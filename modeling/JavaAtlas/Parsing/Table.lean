import JavaAtlas.Parsing.Lexer
import JavaAtlas.Parsing.Merge

/-!
# Parse tables

All that is needed to read texts by a grammar: the states with what is done in each, the lexer, and
how the symbols are shown.
-/

namespace JavaAtlas.Parsing

set_option autoImplicit false

open Std (HashMap)

structure Table where
  tokenCount : Nat
  states : Array State
  /-- For each state, where its lexer starts. -/
  lexStarts : Array Nat
  lexStates : Array LexState
  /-- The symbols of the keywords. -/
  keywords : HashMap String Nat
  reductions : Array Reduction
  labels : Array (List ChildLabel)
  /-- For each symbol, whether it has a node of its own. -/
  shown : Array Bool

namespace Table

def ofGrammar (g : Grammar) (shown : Array Bool) : Table :=
  let items := Items.ofGrammar g
  let nfa := Nfa.ofLexemes g.lexemes
  let overlaps := Overlaps.ofGrammar g nfa
  let fullStates := items.states
  let states := mergedStates items overlaps fullStates
  let together := companions g.tokenCount (distinctSets (fullStates.toList.map State.tokens))
  let share := canShare g.tokenCount (rivals g.tokenCount overlaps together)
  let (modes, tokens) := modesOf share (states.toList.map fun s => lexTokens g s.tokens)
  let lexer := Lexer.ofModes g nfa tokens
  { tokenCount := g.tokenCount
    states := states
    lexStarts := modes.map fun m => lexer.starts.getD m 0
    lexStates := lexer.states
    keywords := (List.range g.tokenCount).foldl (fun m t =>
      if g.isKeyword t then m.insert ((g.lexemeOf t).literal.getD "") t else m) {}
    reductions := items.reductions
    labels := items.labels
    shown := shown }

variable (t : Table)

def stateAt (state : Nat) : State := t.states.getD state default

def actions (state token : Nat) : List Action := (t.stateAt state).actions.getD token []

def reductionAt (i : Nat) : Reduction := t.reductions.getD i default

def goto (state symbol : Nat) : Nat := (t.stateAt state).gotos.getD (symbol - t.tokenCount) 0

def afterToken (state token : Nat) : Nat :=
  match (t.actions state token).getLast? with
  | some (.shift target _) => target
  | some .extra => state
  | _ => 0

def completesFirst (state token : Nat) : Bool :=
  match t.actions state token with
  | .reduce _ :: _ => true
  | _ => false

def isShown (symbol : Nat) : Bool := t.shown.getD symbol false

end Table

end JavaAtlas.Parsing
