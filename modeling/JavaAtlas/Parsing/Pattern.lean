import JavaAtlas.Data.BitSet
import JavaAtlas.Text.Ranges

/-!
# Patterns of tokens

A pattern is a regular expression over *classes* of characters. Every ASCII character is a class of
its own; beyond ASCII only letters, digits and the cent sign are told apart, since no token asks for
more.
-/

namespace JavaAtlas.Parsing

set_option autoImplicit false

/-! ## Classes of characters -/

def letterClass : Nat := 128

def digitClass : Nat := 129

def centClass : Nat := 130

def otherClass : Nat := 131

def classCount : Nat := 132

def classOf (c : Char) : Nat :=
  if c.toNat < 128 then c.toNat
  else if c.toNat == 0xA2 then centClass
  else if Text.letterRanges.holds c then letterClass
  else if Text.decimalDigitRanges.holds c then digitClass
  else otherClass

def charsOf (s : String) : BitSet := .ofList (s.toList.map classOf)

def charRange (first last : Char) : BitSet :=
  (BitSet.below (last.toNat + 1)).diff (.below first.toNat)

/-- Every character but those of `s`. No token holds the character 0. -/
def charsBut (s : BitSet) : BitSet := (BitSet.below classCount).diff (s.insert 0)

/-- White space between tokens. -/
def blanks : BitSet := charsOf " \t\n\r\x0b\x0c"

/-! ## Patterns -/

inductive Pattern
  /-- The empty text. -/
  | nothing
  /-- One character of a set of classes. -/
  | one (chars : BitSet)
  | seq (first second : Pattern)
  | either (first second : Pattern)
  | many1 (body : Pattern)
deriving Inhabited

namespace Pattern

def all : List Pattern → Pattern
  | [] => nothing
  | [p] => p
  | p :: ps => seq p (all ps)

def oneOf : List Pattern → Pattern
  | [] => nothing
  | [p] => p
  | p :: ps => either p (oneOf ps)

def maybe (p : Pattern) : Pattern := either p nothing

def many (p : Pattern) : Pattern := maybe (many1 p)

def text (s : String) : Pattern := all (s.toList.map fun c => one (.singleton (classOf c)))

def anyOf (s : String) : Pattern := one (charsOf s)

def separated (item separator : Pattern) : Pattern := seq item (many (seq separator item))

end Pattern

structure Lexeme where
  pattern : Pattern
  /-- The text of a keyword or a punctuation mark. -/
  literal : Option String := none
  /-- Follows without white space in between. -/
  isImmediate : Bool := false
  /-- Of two tokens that could be read, the one of higher precedence is, whatever their lengths. -/
  precedence : Nat := 0
  /-- Only looked for where the grammar allows it, not where a reader is lost. -/
  isContextual : Bool := false
deriving Inhabited

namespace Lexeme

def ofLiteral (s : String) : Lexeme := { pattern := .text s, literal := some s }

/-- Literals win over patterns of the same text, tokens without a gap over others. -/
def rank (l : Lexeme) : Nat := (if l.literal.isSome then 2 else 0) + (if l.isImmediate then 1 else 0)

/-- A literal that is a word. Where words are read, it is told from other words by its text. -/
def isKeyword (l : Lexeme) : Bool :=
  l.literal.any fun s => s.toList.all fun c => c.isAlpha || c == '_'

end Lexeme

end JavaAtlas.Parsing
