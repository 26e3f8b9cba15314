import JavaAtlas.Parsing.Grammar

/-!
# Rules of the Java grammar

A rule says of which parts a phrase is made. Most parts are phrases with a node of their own; a
*category* has none, its children stand in its place.
-/

namespace JavaAtlas.Java

set_option autoImplicit false

open Parsing (Associativity Lexeme)

/-- The parts of the grammar without a node of their own. -/
inductive Category
  | topLevel
  | literal
  | plainString
  | textBlock
  | textRun
  | quoteRun
  | plainEscape
  | escape
  | expression
  | primary
  | creation
  | wildcardBounds
  | statement
  | anyAnnotation
  | elementValue
  | declaration
  | moduleDirective
  | constructorDeclarator
  | defaultValue
  | declaratorList
  | declaratorId
  | anyType
  | plainType
  | methodHeader
  | methodDeclarator
  | reservedIdentifier
deriving DecidableEq, Hashable

/-- A category that is a mere choice of phrases. -/
def Category.isChoice : Category → Bool
  | .literal | .expression | .primary | .statement | .declaration | .moduleDirective | .anyType
  | .plainType => true
  | _ => false

inductive Part
  | phrase (p : Phrase)
  | category (c : Category)
deriving DecidableEq, Hashable

inductive Rule
  | nothing
  /-- A keyword or a punctuation mark. -/
  | mark (text : String)
  | part (p : Part)
  | seq (first second : Rule)
  | choice (first second : Rule)
  | many1 (body : Rule)
  | role (f : Field) (body : Rule)
  /-- Shows the parts of `body` as other phrases. -/
  | shownAs (p : Phrase) (body : Rule)

instance : Coe Phrase Part := ⟨.phrase⟩

instance : Coe Category Part := ⟨.category⟩

instance : Coe Phrase Rule := ⟨fun p => .part (.phrase p)⟩

instance : Coe Category Rule := ⟨fun c => .part (.category c)⟩

instance : Coe String Rule := ⟨.mark⟩

namespace Rule

def all : List Rule → Rule
  | [] => nothing
  | [r] => r
  | r :: rs => seq r (all rs)

def oneOf : List Rule → Rule
  | [] => nothing
  | [r] => r
  | r :: rs => choice r (oneOf rs)

def maybe (r : Rule) : Rule := choice r nothing

def many (r : Rule) : Rule := maybe (many1 r)

/-- One or more of `r`, with `separator` between them. -/
def separated (separator : String) (r : Rule) : Rule := seq r (many (seq (mark separator) r))

def commas1 (r : Rule) : Rule := separated "," r

def commas (r : Rule) : Rule := maybe (commas1 r)

end Rule

/-- One way to build a phrase. A higher level binds more tightly; the weight counts where the text
can be read in several ways. -/
structure Alternative where
  rule : Rule
  level : Int := 0
  associativity : Option Associativity := none
  weight : Nat := 0

inductive Body
  | token (l : Lexeme)
  | phrase (alternatives : List Alternative)

structure Definition where
  part : Part
  body : Body

namespace Definition

def rule (p : Part) (r : Rule) : Definition := ⟨p, .phrase [{ rule := r }]⟩

def atLevel (p : Part) (level : Int) (r : Rule) : Definition :=
  ⟨p, .phrase [{ rule := r, level := level }]⟩

def leftAt (p : Part) (level : Int) (r : Rule) : Definition :=
  ⟨p, .phrase [{ rule := r, level := level, associativity := some .left }]⟩

def rightAt (p : Part) (level : Int) (r : Rule) : Definition :=
  ⟨p, .phrase [{ rule := r, level := level, associativity := some .right }]⟩

def weighted (p : Part) (weight : Nat) (r : Rule) : Definition :=
  ⟨p, .phrase [{ rule := r, weight := weight }]⟩

def token (p : Part) (l : Lexeme) : Definition := ⟨p, .token l⟩

def word (p : Phrase) (text : String) : Definition := ⟨p, .token (.ofLiteral text)⟩

end Definition

end JavaAtlas.Java
