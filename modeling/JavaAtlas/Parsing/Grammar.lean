import JavaAtlas.Java.Phrase
import JavaAtlas.Parsing.Pattern

/-!
# Context-free grammars

Symbols are numbers: 0 is the end of the text, the tokens follow, then the variables. No production
is empty, except that the first variable, which stands for a whole text, may be.

A production can bind more or less tightly than others; that and its associativity settle which of
two readings is taken. Its weight counts where both are kept for a while.
-/

namespace JavaAtlas.Parsing

set_option autoImplicit false

open Java (Phrase Field)

inductive Associativity
  | left
  | right
deriving DecidableEq, Hashable

/-- One symbol of a production. -/
structure Step where
  symbol : Nat
  /-- The phrase as which the symbol is shown here. -/
  shownAs : Option Phrase := none
  role : Option Field := none
deriving DecidableEq, Hashable, Inhabited

structure Production where
  steps : List Step
  level : Int := 0
  associativity : Option Associativity := none
  weight : Nat := 0
deriving DecidableEq, Hashable, Inhabited

inductive VariableKind
  /-- Has a node of its own. -/
  | shown
  /-- Its children stand in its place. -/
  | hidden
  /-- A choice of phrases, hidden too. -/
  | choice
  /-- A row of one or more equal parts, hidden too. -/
  | row
deriving DecidableEq, Inhabited

structure Variable where
  kind : VariableKind
  productions : List Production
deriving Inhabited

structure Grammar where
  /-- The tokens; the first is the word token. -/
  lexemes : Array Lexeme
  /-- The variables; the first stands for a whole text. -/
  parts : Array Variable
  /-- The tokens that may stand anywhere. -/
  extras : List Nat

namespace Grammar

def endSymbol : Nat := 0

def wordSymbol : Nat := 1

variable (g : Grammar)

def tokenCount : Nat := g.lexemes.size + 1

def symbolCount : Nat := g.tokenCount + g.parts.size

def isToken (symbol : Nat) : Bool := symbol < g.tokenCount

def variableOf (symbol : Nat) : Variable := g.parts.getD (symbol - g.tokenCount) default

def lexemeOf (symbol : Nat) : Lexeme := g.lexemes.getD (symbol - 1) default

def isKeyword (symbol : Nat) : Bool := symbol != endSymbol && (g.lexemeOf symbol).isKeyword

/-- Grows one set for each variable until nothing is added. Each round adds, for every production,
what `part` says. -/
def grow (part : (Nat → BitSet) → Production → BitSet) : Array BitSet :=
  let round (sets : Array BitSet) : Array BitSet :=
    let setOf (symbol : Nat) : BitSet := sets.getD (symbol - g.tokenCount) .empty
    (g.parts.zip sets).map fun (v, s) =>
      v.productions.foldl (fun s p => s.union (part setOf p)) s
  (List.range g.parts.size).foldl (fun sets _ => round sets)
    (Array.replicate g.parts.size .empty)

/-- The tokens of `symbol` if it is one, else what `setOf` says. -/
def tokensOf (setOf : Nat → BitSet) (symbol : Nat) : BitSet :=
  if g.isToken symbol then .singleton symbol else setOf symbol

def firstSets : Array BitSet :=
  g.grow fun setOf p => (p.steps.head?.map fun s => g.tokensOf setOf s.symbol).getD .empty

def lastSets : Array BitSet :=
  g.grow fun setOf p => (p.steps.getLast?.map fun s => g.tokensOf setOf s.symbol).getD .empty

/-- The roles that the children of each hidden variable have in the node around them. -/
def inheritedRoles : Array BitSet :=
  g.grow fun setOf p => p.steps.foldl (fun roles s =>
    let own := (s.role.map fun f => BitSet.singleton f.ctorIdx).getD .empty
    let below :=
      if g.isToken s.symbol then .empty
      else
        match (g.variableOf s.symbol).kind with
        | .hidden | .row => setOf s.symbol
        | _ => .empty
    roles.union (own.union below)) .empty

end Grammar

end JavaAtlas.Parsing
