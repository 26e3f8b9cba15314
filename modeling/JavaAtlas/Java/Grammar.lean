import JavaAtlas.Java.Grammar.Declarations
import JavaAtlas.Java.Grammar.Literals
import JavaAtlas.Java.Grammar.Statements
import JavaAtlas.Java.Tree
import Std.Data.HashMap

/-!
# The Java grammar

The rules of all phrases, and the grammar of numbered symbols they stand for. Tokens and variables
are numbered in the order of the definitions, punctuation marks and keywords where they first occur.
-/

namespace JavaAtlas.Java

set_option autoImplicit false

open Std (HashMap)
open Parsing (Lexeme Step Production)

namespace Grammar

open Rule Phrase Category Definition

def programRules : List Definition := [
  rule program (many topLevel),
  rule topLevel (oneOf [statement, methodDeclaration])]

def definitions : List Definition :=
  words ++ programRules ++ literals ++ expressions ++ statements ++ declarations ++ comments

end Grammar

inductive Term
  | mark (text : String)
  | part (p : Part)
deriving DecidableEq, Hashable

def Rule.marks : Rule → List String
  | .nothing => []
  | .mark text => [text]
  | .part _ => []
  | .seq first second => first.marks ++ second.marks
  | .choice first second => first.marks ++ second.marks
  | .many1 body => body.marks
  | .role _ body => body.marks
  | .shownAs _ body => body.marks

def Definition.tokens (d : Definition) : List (Term × Lexeme) :=
  match d.body with
  | .token l => [(.part d.part, l)]
  | .phrase alternatives =>
    alternatives.flatMap fun a => a.rule.marks.map fun s => (.mark s, .ofLiteral s)

def Definition.alternatives (d : Definition) : List Alternative :=
  match d.body with
  | .token _ => []
  | .phrase alternatives => alternatives

/-- Drops what occurred before under the same name. -/
def firstOccurrences (tokens : List (Term × Lexeme)) : Array (Term × Lexeme) :=
  (tokens.foldl (fun (seen, out) (term, l) =>
    if HashMap.contains seen term then (seen, out)
    else (seen.insert term (), Array.push out (term, l)))
    (({} : HashMap Term Unit), (#[] : Array (Term × Lexeme)))).2

/-- The rows found so far, each with the bodies of its parts. -/
structure Rows where
  /-- The number of the first row. -/
  base : Nat
  numbers : HashMap (List (List Step)) Nat := {}
  bodies : Array (List (List Step)) := #[]

def Rows.symbolOf (rows : Rows) (body : List (List Step)) : Nat × Rows :=
  match rows.numbers[body]? with
  | some n => (n, rows)
  | none =>
    let n := rows.base + rows.bodies.size
    (n, { rows with numbers := rows.numbers.insert body n, bodies := rows.bodies.push body })

/-- The sequences of symbols that a rule allows. The innermost role of a symbol counts. -/
def Rule.sequences (numberOf : Term → Nat) :
    Rule → Option Field → Option Phrase → Rows → List (List Step) × Rows
  | .nothing, _, _, rows => ([[]], rows)
  | .mark text, f, p, rows => ([[⟨numberOf (.mark text), p, f⟩]], rows)
  | .part q, f, p, rows => ([[⟨numberOf (.part q), p, f⟩]], rows)
  | .seq first second, f, p, rows =>
    let (heads, rows) := first.sequences numberOf f p rows
    let (tails, rows) := second.sequences numberOf f p rows
    (heads.flatMap fun head => tails.map fun tail => head ++ tail, rows)
  | .choice first second, f, p, rows =>
    let (lefts, rows) := first.sequences numberOf f p rows
    let (rights, rows) := second.sequences numberOf f p rows
    (lefts ++ rights, rows)
  | .many1 body, f, p, rows =>
    let (parts, rows) := body.sequences numberOf none none rows
    let (symbol, rows) := rows.symbolOf parts
    ([[⟨symbol, p, f⟩]], rows)
  | .role g body, _, p, rows => body.sequences numberOf (some g) p rows
  | .shownAs q body, f, _, rows => body.sequences numberOf f (some q) rows

def productionsOf (numberOf : Term → Nat) (alternatives : List Alternative) (rows : Rows) :
    List Production × Rows :=
  let (productions, rows) := alternatives.foldl (fun (out, rows) a =>
    let (bodies, rows) := a.rule.sequences numberOf none none rows
    (out ++ bodies.map fun steps => ⟨steps, a.level, a.associativity, a.weight⟩, rows)) ([], rows)
  (productions.eraseDups, rows)

def Part.kind : Part → Parsing.VariableKind
  | .phrase _ => .shown
  | .category c => if c.isChoice then .choice else .hidden

/-- A row is two rows, or one of its parts. -/
def rowVariable (symbol : Nat) (body : List (List Step)) : Parsing.Variable :=
  { kind := .row
    productions :=
      ({ steps := [{ symbol := symbol }, { symbol := symbol }] } ::
        body.map fun steps => { steps := steps }).eraseDups }

def Term.kind? : Term → Option Kind
  | .mark text => some (.token text)
  | .part (.phrase p) => some (.phrase p)
  | .part (.category _) => none

/-- A grammar with the kinds of nodes that its symbols have; hidden symbols have none. -/
structure NumberedGrammar where
  grammar : Parsing.Grammar
  kinds : Array (Option Kind)

def NumberedGrammar.ofDefinitions (definitions : List Definition) (extras : List Phrase) :
    NumberedGrammar :=
  let tokens := firstOccurrences (definitions.flatMap Definition.tokens)
  let phrases := definitions.filter fun d => !d.alternatives.isEmpty
  let terms := tokens.toList.map (·.1) ++ phrases.map fun d => .part d.part
  let numbers : HashMap Term Nat :=
    terms.zipIdx.foldl (fun m (t, i) => m.insert t (i + 1)) {}
  let numberOf (t : Term) : Nat := numbers.getD t 0
  let (parts, rows) := phrases.foldl (fun (out, rows) d =>
    let (productions, rows) := productionsOf numberOf d.alternatives rows
    (Array.push out { kind := d.part.kind, productions := productions }, rows))
    ((#[] : Array Parsing.Variable), ({ base := terms.length + 1 } : Rows))
  let rowParts := rows.bodies.zipIdx.map fun (body, i) => rowVariable (rows.base + i) body
  { grammar :=
      { lexemes := tokens.map (·.2)
        parts := parts ++ rowParts
        extras := extras.map fun p => numberOf (.part (.phrase p)) }
    kinds := #[none] ++ (terms.map Term.kind?).toArray ++ Array.replicate rowParts.size none }

/-- The grammar of Java. Comments may stand anywhere. -/
def numberedGrammar : NumberedGrammar :=
  .ofDefinitions Grammar.definitions [.lineComment, .blockComment]

end JavaAtlas.Java
