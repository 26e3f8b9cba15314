import JavaAtlas.Parsing.Item

/-!
# The automaton of a grammar

A state of the automaton is a set of items, each with the tokens that may follow it. The states are
found from the first one by reading symbol after symbol. Where a state can both read a token and
complete a production before it, or complete two, the levels and associativities of the productions
decide; where these leave several possibilities, all are kept.

State 0 is for being lost: nothing is known about what was read. State 1 is the start.
-/

namespace JavaAtlas.Parsing

set_option autoImplicit false

open Std (HashMap)

inductive Action
  /-- Reads the token. Where `isRow` holds, a row of equal parts could as well be completed first,
  and is. -/
  | shift (target : Nat) (isRow : Bool)
  /-- Reads a token that may stand anywhere. -/
  | extra
  | reduce (reduction : Nat)
  | accept
  /-- Tries to find the way back. -/
  | recover
deriving DecidableEq, Inhabited

structure State where
  /-- States of the same core differ only in the tokens that may follow. -/
  core : Nat
  /-- For each token, what can be done before it. -/
  actions : Array (List Action)
  /-- For each variable, the state after it; 0 where there is none. -/
  gotos : Array Nat
deriving Inhabited

/-- Items with the tokens that may follow them, by class. -/
abbrev Kernel := Array (Nat × BitSet)

namespace Items

variable (it : Items)

def classAt (item : Nat) : Nat := it.classes.getD item 0

def nextOf (item : Nat) : Nat := it.next.getD item 0

def isFinished (item : Nat) : Bool := it.nextOf item == Grammar.endSymbol

def firstOf (symbol : Nat) : BitSet :=
  it.grammar.tokensOf (fun s => it.firstSets.getD (s - it.grammar.tokenCount) .empty) symbol

def lookaheads (kernel : Kernel) : Array BitSet := Id.run do
  let tokenCount := it.grammar.tokenCount
  let mut sets := Array.replicate it.grammar.parts.size BitSet.empty
  for (item, tokens) in kernel do
    let symbol := it.nextOf item
    if tokenCount ≤ symbol then
      let follow := (it.follow.getD item none).getD tokens
      for o in it.openings.getD (symbol - tokenCount) [] do
        let add := if o.isLast then o.tokens.union follow else o.tokens
        sets := sets.modify o.part (·.union add)
  return sets

def sortKernel (kernel : Kernel) : Kernel :=
  let rec isSorted : List (Nat × BitSet) → Bool
    | a :: b :: rest => it.classAt a.1 < it.classAt b.1 && isSorted (b :: rest)
    | _ => true
  let items := kernel.toList
  if isSorted items then kernel
  else (items.mergeSort fun a b => it.classAt a.1 ≤ it.classAt b.1).toArray

/-- For each symbol, the kernel after reading it. -/
def successors (kernel : Kernel) (sets : Array BitSet) : Array Kernel := Id.run do
  let mut out : Array Kernel := Array.replicate it.grammar.symbolCount #[]
  for (tokens, items) in sets.zip it.starts do
    if !tokens.isEmpty then
      for item in items do
        if !it.isFinished item then
          out := out.modify (it.nextOf item) (·.push (item + 1, tokens))
  for (item, tokens) in kernel do
    if !it.isFinished item then
      out := out.modify (it.nextOf item) (·.push (item + 1, tokens))
  return out.map it.sortKernel

def finished (kernel : Kernel) (sets : Array BitSet) : List (Nat × BitSet) :=
  let fresh := (sets.zip it.starts).toList.flatMap fun (tokens, items) =>
    if tokens.isEmpty then [] else (items.filter it.isFinished).map fun i => (i, tokens)
  fresh ++ kernel.toList.filter fun (i, _) => it.isFinished i

def levelOf (item : Nat) : Int := it.levels.getD item 0

def associativityOf (item : Nat) : Option Associativity := it.associativities.getD item none

def symbolOf (item : Nat) : Nat := it.symbols.getD item 0

def isOrigin (item : Nat) : Bool := it.symbolOf item == it.grammar.symbolCount

def completion (item : Nat) : Action :=
  if it.isOrigin item then .accept else .reduce (it.reductionOf.getD item 0)

/-- What is done before `token` in a state that completes `done` and reads on to `target` if that is
given. Of the completions only those of the highest level count. -/
def resolve (kernel : Kernel) (token : Nat) (done : List Nat) (target : Option Nat) : List Action :=
  let top := done.foldl (fun l i => max l (it.levelOf i)) (((done.head?).map it.levelOf).getD 0)
  let best := done.filter fun i => it.levelOf i == top
  let completions := best.map it.completion
  match target with
  | none => completions
  | some t =>
    if done.isEmpty then [.shift t false]
    else
      let reading := (kernel.toList.map (·.1)).filter fun i =>
        !it.isFinished i && it.dots.getD i 0 != 0 && (it.firstOf (it.nextOf i)).contains token
      let symbols := ((reading ++ done).filter fun i => !it.isOrigin i).map it.symbolOf
      let isRow :=
        match symbols with
        | [] => false
        | s :: rest => (it.grammar.variableOf s).kind == VariableKind.row && rest.all (· == s)
      if isRow then completions ++ [Action.shift t true]
      else
        let tighter := reading.any fun i => it.levelOf i > top
        let looser := reading.any fun i => it.levelOf i < top
        let allGo (a : Associativity) : Bool := best.all fun i => it.associativityOf i == some a
        if tighter && !looser then [.shift t false]
        else if looser && !tighter then completions
        else if !looser && !tighter && allGo .left then completions
        else if !looser && !tighter && allGo .right then [.shift t false]
        else completions ++ [Action.shift t false]

end Items

/-- The automaton while it is found: kernels of all states known, and the finished states. -/
structure Exploration where
  kernels : Array Kernel := #[]
  numbers : HashMap Kernel Nat := {}
  cores : HashMap (Array Nat) Nat := {}
  states : Array State := #[]

namespace Exploration

def number (it : Items) (e : Exploration) (kernel : Kernel) : Nat × Exploration :=
  let key := kernel.map fun (i, tokens) => (it.classAt i, tokens)
  match e.numbers[key]? with
  | some n => (n, e)
  | none =>
    let n := e.kernels.size
    (n, { e with kernels := e.kernels.push kernel, numbers := e.numbers.insert key n })

def coreNumber (it : Items) (e : Exploration) (kernel : Kernel) : Nat × Exploration :=
  let core := kernel.map fun (i, _) => it.classAt i
  match e.cores[core]? with
  | some n => (n, e)
  | none =>
    let n := e.cores.size
    (n, { e with cores := e.cores.insert core n })

def visit (it : Items) (e : Exploration) (kernel : Kernel) : Exploration := Id.run do
  let tokenCount := it.grammar.tokenCount
  let sets := it.lookaheads kernel
  let after := it.successors kernel sets
  let done := it.finished kernel sets
  let (core, e) := e.coreNumber it kernel
  let mut e := e
  let mut actions : Array (List Action) := Array.replicate tokenCount []
  let follow : BitSet := done.foldl (fun s d => s.union d.2) {}
  for token in [0:tokenCount] do
    let next := after.getD token #[]
    if !next.isEmpty || follow.contains token then
      let completed := (done.filter fun (_, tokens) => tokens.contains token).map (·.1)
      let mut target : Option Nat := none
      if !next.isEmpty then
        let (n, e') := e.number it next
        e := e'
        target := some n
      actions := actions.setIfInBounds token (it.resolve kernel token completed target)
  for token in it.grammar.extras do
    actions := actions.modify token fun as => if as.isEmpty then [.extra] else as
  let mut gotos : Array Nat := #[]
  for part in [0:it.grammar.parts.size] do
    let next := after.getD (tokenCount + part) #[]
    if next.isEmpty then gotos := gotos.push 0
    else
      let (n, e') := e.number it next
      e := e'
      gotos := gotos.push n
  return { e with states := e.states.push ⟨core, actions, gotos⟩ }

def run (it : Items) : Nat → Exploration → Exploration
  | 0, e => e
  | fuel + 1, e =>
    match e.kernels[e.states.size]? with
    | none => e
    | some kernel => run it fuel (e.visit it kernel)

end Exploration

namespace Items

/-- More states than a grammar has here. -/
def stateLimit : Nat := 1000000

def states (it : Items) : Array State :=
  let lost : Kernel := #[]
  let start : Kernel := #[(it.origin, .singleton Grammar.endSymbol)]
  let e : Exploration := {}
  let e := (e.number it lost).2
  let e := (e.number it start).2
  (e.run it stateLimit).states

end Items

end JavaAtlas.Parsing
