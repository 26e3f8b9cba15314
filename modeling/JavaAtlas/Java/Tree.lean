import JavaAtlas.Java.Phrase
import JavaAtlas.Text.Span

/-!
# Concrete syntax trees

A tree keeps every token of a Java text. Phrases of the grammar and comments are named nodes; the
keywords and punctuation between them are anonymous ones. What could not be fitted into the grammar
is an `error` node, and a token that had to be assumed is marked missing.
-/

namespace JavaAtlas.Java

set_option autoImplicit false

inductive Kind
  | phrase (p : Phrase)
  | token (text : String)
  | error
deriving DecidableEq

def Kind.isNamed : Kind → Bool
  | .token _ => false
  | _ => true

structure Label where
  kind : Kind
  field : Option Field := none
  span : Span
  isMissing : Bool := false
deriving DecidableEq

def Label.isFault (l : Label) : Bool := l.isMissing || l.kind == .error

inductive Tree
  | node (label : Label) (children : List Tree)

namespace Tree

mutual

def size : Tree → Nat
  | node _ children => sizeAll children + 1

def sizeAll : List Tree → Nat
  | [] => 0
  | t :: rest => t.size + sizeAll rest

end

theorem sizeAll_append (ts us : List Tree) : sizeAll (ts ++ us) = sizeAll ts + sizeAll us := by
  induction ts with
  | nil => simp [sizeAll]
  | cons t ts ih => simp only [List.cons_append, sizeAll, ih, Nat.add_assoc]

mutual

def hasError : Tree → Bool
  | node l children => l.isFault || hasErrorAmong children

def hasErrorAmong : List Tree → Bool
  | [] => false
  | t :: rest => t.hasError || hasErrorAmong rest

end

def label : Tree → Label
  | node l _ => l

def children : Tree → List Tree
  | node _ cs => cs

def kind (t : Tree) : Kind := t.label.kind

def span (t : Tree) : Span := t.label.span

def isNamed (t : Tree) : Bool := t.kind.isNamed

def is (t : Tree) (p : Phrase) : Bool := t.kind == .phrase p

def namedChildren (t : Tree) : List Tree := t.children.filter isNamed

def childInRole? (t : Tree) (f : Field) : Option Tree :=
  t.children.find? fun c => c.label.field == some f

def childrenInRole (t : Tree) (f : Field) : List Tree :=
  t.children.filter fun c => c.label.field == some f

end Tree

/-- Gives the tree of a text, or says why there is none. -/
abbrev Parser := String → Except String Tree

end JavaAtlas.Java
