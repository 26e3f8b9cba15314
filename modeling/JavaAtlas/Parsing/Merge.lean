import JavaAtlas.Parsing.Automaton
import JavaAtlas.Parsing.Overlap

/-!
# Joining states

Most states of the automaton of a grammar do the same and differ only in the tokens that may follow.
Such states are joined, unless one of them does something else before some token, or looks for a
token that gets in the way of a token of the other. States whose successors stay apart stay apart
too.

Then states that do nothing but pass one hidden part on are bypassed, and what no state leads to is
dropped.
-/

namespace JavaAtlas.Parsing

set_option autoImplicit false

namespace State

def tokens (s : State) : BitSet :=
  s.actions.zipIdx.foldl (fun set (as, t) => if as.isEmpty then set else set.insert t) .empty

def actionList (s : State) : List (Nat × List Action) :=
  (s.actions.zipIdx.toList.filter fun (as, _) => !as.isEmpty).map fun (as, t) => (t, as)

/-- The state after a token, if the token can be read at once; else 0. -/
def shiftTarget : List Action → Nat
  | [] => 0
  | [.shift target _] => target
  | _ :: rest => shiftTarget rest

def successors (s : State) : List (Nat × Nat) :=
  ((s.actions.map shiftTarget ++ s.gotos).zipIdx.toList.filter fun (t, _) => t != 0).map
    fun (t, symbol) => (symbol, t)

def mapTargets (f : Nat → Nat) (s : State) : State :=
  { s with
    actions := s.actions.map fun as => as.map fun
      | .shift target isRow => .shift (f target) isRow
      | a => a
    gotos := s.gotos.map fun t => if t == 0 then 0 else f t }

def join (s t : State) : State :=
  { s with
    actions := s.actions.zipWith (fun as bs => if bs.isEmpty then as else bs) t.actions
    gotos := s.gotos.zipWith (fun a b => if b == 0 then a else b) t.gotos }

end State

/-! ## Groups of states -/

structure Grouping where
  groups : Array (List Nat)
  groupOf : Array Nat

namespace Grouping

def ofCores (states : Array State) : Grouping :=
  let count := states.foldl (fun n s => max n (s.core + 1)) 0
  let groups := states.zipIdx.foldr (fun (s, i) (groups : Array (List Nat)) =>
    groups.modify s.core (i :: ·)) (Array.replicate count [])
  ⟨groups, states.map (·.core)⟩

/-- Splits a list into members that are pairwise alike and the rest. -/
def settle (differ : Nat → Nat → Bool) : List Nat → List Nat × List Nat
  | [] => ([], [])
  | i :: rest =>
    let parts := rest.partition (differ i)
    let settled := settle differ parts.2
    (i :: settled.1, parts.1 ++ settled.2)
termination_by states => states.length
decreasing_by
  simp only [List.partition_eq_filter_filter, List.length_cons]
  exact Nat.lt_succ_of_le (List.length_filter_le _ _)

def split (differ : Array Nat → Nat → Nat → Bool) : Nat → Nat → Grouping → Grouping
  | 0, _, g => g
  | fuel + 1, i, g =>
    match g.groups[i]? with
    | none => g
    | some members =>
      let (stay, leave) := settle (differ g.groupOf) members
      if leave.isEmpty then split differ fuel (i + 1) g
      else
        let fresh := g.groups.size
        split differ fuel (i + 1)
          { groups := (g.groups.setIfInBounds i stay).push leave
            groupOf := leave.foldl (fun m s => m.setIfInBounds s fresh) g.groupOf }

/-- Splits groups until all of them are settled. -/
def refine (differ : Array Nat → Nat → Nat → Bool) (limit : Nat) : Nat → Grouping → Grouping
  | 0, g => g
  | fuel + 1, g =>
    let g' := g.split differ limit 0
    if g'.groups.size == g.groups.size then g else refine differ limit fuel g'

end Grouping

/-! ## Differences between states -/

/-- Two lists of actions are the same up to groups of states. -/
def sameActions (groupOf : Array Nat) : List Action → List Action → Bool
  | [], [] => true
  | .shift a isRow :: as, .shift b isRow' :: bs =>
    groupOf.getD a 0 == groupOf.getD b 0 && isRow == isRow' && sameActions groupOf as bs
  | a :: as, b :: bs => a == b && sameActions groupOf as bs
  | _, _ => false

/-- Before some token both states do something, and not the same. -/
def actionsDiffer (groupOf : Array Nat) :
    List (Nat × List Action) → List (Nat × List Action) → Bool
  | (x, as) :: xs, (y, bs) :: ys =>
    if x < y then actionsDiffer groupOf xs ((y, bs) :: ys)
    else if y < x then actionsDiffer groupOf ((x, as) :: xs) ys
    else !sameActions groupOf as bs || actionsDiffer groupOf xs ys
  | _, _ => false

/-- Some token of the first set only gets in the way of a token of the second. -/
def tokensClash (conflicts : Array BitSet) (tokenCount : Nat) (s t : BitSet) : Bool :=
  ((s.diff t).toListBelow tokenCount).any fun token => (conflicts.getD token .empty).meets t

/-- Some symbol leads to different groups. -/
def successorsDiffer (groupOf : Array Nat) : List (Nat × Nat) → List (Nat × Nat) → Bool
  | (x, s) :: xs, (y, t) :: ys =>
    if x < y then successorsDiffer groupOf xs ((y, t) :: ys)
    else if y < x then successorsDiffer groupOf ((x, s) :: xs) ys
    else groupOf.getD s 0 != groupOf.getD t 0 || successorsDiffer groupOf xs ys
  | _, _ => false

/-- Keywords and words do not clash, since a keyword is a word at first. -/
def conflictsOf (g : Grammar) (o : Overlaps) : Array BitSet :=
  let keywords : BitSet := .ofList ((List.range g.tokenCount).filter g.isKeyword)
  o.conflicts.mapIdx fun t s =>
    if t == Grammar.wordSymbol then s.diff keywords
    else if g.isKeyword t then s.diff (.singleton Grammar.wordSymbol)
    else s

def groupStates (g : Grammar) (o : Overlaps) (states : Array State) : Grouping :=
  let conflicts := conflictsOf g o
  let tokens := states.map State.tokens
  let actions := states.map State.actionList
  let successors := states.map State.successors
  let tokensAt (i : Nat) : BitSet := tokens.getD i .empty
  let clash (s t : BitSet) : Bool :=
    s != t && (tokensClash conflicts g.tokenCount s t || tokensClash conflicts g.tokenCount t s)
  let grouping := (Grouping.ofCores states).split (fun groupOf i j =>
    actionsDiffer groupOf (actions.getD i []) (actions.getD j []) || clash (tokensAt i) (tokensAt j)) states.size 0
  grouping.refine (fun groupOf i j =>
    successorsDiffer groupOf (successors.getD i []) (successors.getD j [])) states.size states.size

def joinStates (states : Array State) (grouping : Grouping) : Array State :=
  grouping.groups.map fun members =>
    let all := members.map fun i => states.getD i default
    (all.tail.foldl State.join (all.headD default)).mapTargets fun t => grouping.groupOf.getD t 0

/-! ## Bypassing states -/

/-- Passes a single hidden part on as another hidden part, and nothing else. -/
def Reduction.isUnit (g : Grammar) (r : Reduction) : Bool :=
  r.count == 1 && r.labels == 0 && r.weight == 0 &&
    match (g.variableOf r.symbol).kind with
    | .hidden | .row => true
    | .shown | .choice => false

/-- The one part that a state passes on, if that is all it does. -/
def State.unit? (it : Items) (s : State) : Option Nat :=
  let actions := s.actions.toList.flatten.filter (· != .extra)
  let parts := actions.map fun
    | .reduce r =>
      let r := it.reductions.getD r default
      if r.isUnit it.grammar then some r.symbol else none
    | _ => none
  match parts with
  | some symbol :: rest => if rest.all (· == some symbol) then some symbol else none
  | _ => none

/-- Goes to the state after the part that a state passes on, as long as there is one. -/
def State.bypass (units : Array (Option Nat)) (tokenCount : Nat) (s : State) : Nat → Nat → Nat
  | 0, target => target
  | fuel + 1, target =>
    match units.getD target none with
    | none => target
    | some symbol =>
      let next := s.gotos.getD (symbol - tokenCount) 0
      if next == 0 then target else bypass units tokenCount s fuel next

def bypassUnits (it : Items) (states : Array State) : Array State :=
  let units := states.map (State.unit? it)
  states.map fun s => s.mapTargets (s.bypass units it.grammar.tokenCount states.size)

/-! ## The states in the end -/

/-- What is done when lost: every token that is looked for everywhere can help to find the way
back. -/
def lostState (g : Grammar) (s : State) : State :=
  { s with
    actions := s.actions.mapIdx fun t as =>
      if as.isEmpty && !(t != Grammar.endSymbol && (g.lexemeOf t).isContextual) then [.recover]
      else as }

def State.size (s : State) : Nat :=
  s.actions.foldl (fun n as => if as.isEmpty then n else n + 1) 0 +
    s.gotos.foldl (fun n t => if t == 0 then n else n + 1) 0

/-- The states that are led to, the first two in their place and the others by size, large ones
first. -/
def orderStates (states : Array State) : Array State :=
  let used := states.foldl (fun used s =>
    s.successors.foldl (fun (used : Array Bool) (_, t) => used.setIfInBounds t true) used)
    (((Array.replicate states.size false).setIfInBounds 0 true).setIfInBounds 1 true)
  let sizes := states.map State.size
  let kept := (List.range states.size).filter fun i => used.getD i false
  let order := kept.take 2 ++
    (kept.drop 2).mergeSort fun i j => sizes.getD i 0 ≥ sizes.getD j 0
  let places := order.zipIdx.foldl (fun (m : Array Nat) (i, n) => m.setIfInBounds i n)
    (Array.replicate states.size 0)
  (order.map fun i => (states.getD i default).mapTargets fun t => places.getD t 0).toArray

def mergedStates (it : Items) (o : Overlaps) (states : Array State) : Array State :=
  let joined := joinStates states (groupStates it.grammar o states)
  orderStates ((bypassUnits it joined).modify 0 (lostState it.grammar))

end JavaAtlas.Parsing
