import JavaAtlas.Parsing.Stack

/-!
# Completing phrases

The machine that reads a text keeps a stack with several heads and the best tree of the whole text so
far. Completing a phrase takes its parts off a head and puts one tree for them there; where that can
be done in several ways, heads are added.
-/

namespace JavaAtlas.Parsing

set_option autoImplicit false

structure Machine where
  stack : Stack := .start
  /-- The best tree of the whole text. -/
  finished : Option Subtree := none
  /-- How often the end was reached. -/
  accepted : Nat := 0

abbrev Reading := StateM Machine

def maxHeads : Nat := 6

def maxOverflow : Nat := 4

def getStack : Reading Stack := do
  let m ← get
  return m.stack

def modifyStack (f : Stack → Stack) : Reading Unit := modify fun m => { m with stack := f m.stack }

def headCount : Reading Nat := do
  let s ← getStack
  return s.heads.size

def stateOf (v : Nat) : Reading Nat := do
  let s ← getStack
  return s.state v

def positionOf (v : Nat) : Reading Extent := do
  let s ← getStack
  return s.position v

def isActiveHead (v : Nat) : Reading Bool := do
  let s ← getStack
  return (s.head v).isActive

def takeSlices {α : Type} (take : Stack → List α × Stack) : Reading (List α) :=
  modifyGet fun m =>
    let (slices, s) := take m.stack
    (slices, { m with stack := s })

/-- Joins head `w` into the first of `candidates` that it can be joined into. -/
def joinInto (w : Nat) (candidates : List Nat) : Reading Bool := do
  let s ← getStack
  match s.partner? w candidates with
  | none => return false
  | some v =>
    modifyStack (·.merge v w)
    return true

/-! ## Comparing heads -/

/-- How well a head does. -/
structure Standing where
  cost : Nat
  /-- The number of nodes read since the last mistake. -/
  count : Nat
  weight : Nat
  isLost : Bool

inductive Preference
  | takeFirst
  | preferFirst
  | neither
  | preferSecond
  | takeSecond

/-- A head that costs this much more, for each node read since the last mistake, is given up. -/
def maxDifference : Nat := 1600

def Standing.compare (a b : Standing) : Preference :=
  if !a.isLost && b.isLost then if a.cost < b.cost then .takeFirst else .preferFirst
  else if a.isLost && !b.isLost then if b.cost < a.cost then .takeSecond else .preferSecond
  else if a.cost < b.cost then
    if (b.cost - a.cost) * (1 + a.count) > maxDifference then .takeFirst else .preferFirst
  else if b.cost < a.cost then
    if (a.cost - b.cost) * (1 + b.count) > maxDifference then .takeSecond else .preferSecond
  else if a.weight > b.weight then .preferFirst
  else if b.weight > a.weight then .preferSecond
  else .neither

def countSince (v : Nat) : Reading Nat := do
  modifyStack (·.settleCount v)
  let s ← getStack
  return s.countSince v

def standing (v : Nat) : Reading Standing := do
  let count ← countSince v
  let s ← getStack
  let isPaused := (s.head v).isPaused
  return {
    cost := s.costOf v + (if isPaused then costOfTree else 0)
    count := count
    weight := (s.node v).weight
    isLost := isPaused || s.state v == 0 }

def betterExists (v cost : Nat) : Reading Bool := do
  let m ← get
  if m.finished.any fun tree => tree.cost ≤ cost then return true
  let count ← countSince v
  let mine : Standing := ⟨cost, count, (m.stack.node v).weight, false⟩
  for w in [0:m.stack.heads.size] do
    let s ← getStack
    if w != v && (s.head w).isActive && (s.position v).bytes ≤ (s.position w).bytes then
      let other ← standing w
      match mine.compare other with
      | .takeSecond => return true
      | .preferSecond => if s.canMerge w v then return true
      | _ => pure ()
  return false

/-! ## Completing phrases -/

def groupSlices : List Stack.Slice → List (Nat × List (List Subtree))
  | [] => []
  | s :: rest =>
    match groupSlices rest with
    | (v, ways) :: groups =>
      if v == s.version then (v, s.trees :: ways) :: groups
      else (s.version, [s.trees]) :: (v, ways) :: groups
    | [] => [(s.version, [s.trees])]

variable (t : Table)

/-- The best tree for a symbol, and the extras after it. -/
def bestBranch (r : Reduction) (ways : List (List Subtree)) : Option (Subtree × List Subtree) :=
  ways.foldl (fun best trees =>
    let (children, extras) := Subtree.splitExtras trees
    let tree := Subtree.branch t (.symbol r.symbol) r.labels children
    match best with
    | none => some (tree, extras)
    | some (old, _) => if old.prefersSecond tree then some (tree, extras) else best) none

/-- Completes a phrase on head `v`. Gives the first of the new heads. -/
def reduce (v : Nat) (r : Reduction) : Reading (Option Nat) := do
  let before ← headCount
  let slices ← takeSlices fun s => s.pop v r.count
  let mut removed := 0
  for (version, ways) in groupSlices slices do
    let w := version - removed
    if w > maxHeads + maxOverflow then
      modifyStack (·.remove w)
      removed := removed + 1
    else
      match bestBranch t r ways with
      | none => pure ()
      | some (tree, extras) =>
        let tree := tree.modifyInfo fun i => { i with weight := i.weight + r.weight }
        let next := t.goto (← stateOf w) r.symbol
        modifyStack fun s => s.pushAll w (tree :: extras) next
        if ← joinInto w ((List.range w).filter (· != v)) then removed := removed + 1
  return if before < (← headCount) then some before else none

/-- The tree of a whole text: all else goes into the last tree that is not extra. -/
def rootOf (trees : List Subtree) : Option Subtree :=
  let (front, extras) := Subtree.splitExtras trees
  front.getLast?.map fun last =>
    Subtree.branch t last.symbol last.info.labels (front.dropLast ++ last.children ++ extras)

def accept (v : Nat) (token : Subtree) : Reading Unit := do
  modifyStack (·.push v (some token) 1)
  let slices ← takeSlices fun s => s.popAll v
  for slice in slices do
    modify fun m => { m with accepted := m.accepted + 1 }
    match rootOf t slice.trees with
    | none => pure ()
    | some root =>
      modify fun m =>
        match m.finished with
        | none => { m with finished := some root }
        | some old => if old.prefersSecond root then { m with finished := some root } else m
  match slices.head? with
  | some slice => modifyStack (·.remove slice.version)
  | none => pure ()
  modifyStack (·.setStatus v .halted)

end JavaAtlas.Parsing
