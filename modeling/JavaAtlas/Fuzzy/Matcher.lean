import JavaAtlas.Fuzzy.Score

/-!
# A matcher that keeps its rows

A matcher scores one candidate after another for the same query. Its rows are written in place, in
32-bit arithmetic, and stay for the next candidate. A step without a result has left the range of 32
bits or the end of a row.
-/

namespace JavaAtlas.Fuzzy

set_option autoImplicit false

def word (x : Int) : Option Int := if -2147483648 ≤ x ∧ x ≤ 2147483647 then some x else none

def put (row : List Int) (j : Nat) (v : Int) : Option (List Int) :=
  if j < row.length then some (row.set j v) else none

/-- What query byte `q` earns on byte `c`, on top of `score`. -/
def earn (score : Int) (q c : UInt8) (wordStart : Bool) : Option Int := do
  let score ← word (score + 10)
  let score ← if wordStart then word (score + 15) else some score
  word (score + if q == c then 2 else 0)

def fillFirst (starts : List Bool) (q : UInt8) : Nat → List UInt8 → List Int → Option (List Int)
  | _, [], row => some row
  | j, c :: rest, row =>
    if fold c == fold q then do
      let earned ← earn 0 q c (← starts[j]?)
      let score ← word (earned - (← word j))
      fillFirst starts q (j + 1) rest (← put row j score)
    else fillFirst starts q (j + 1) rest row

/-- The running score once the score to the left of place `j` is seen. -/
def advance? (above : List Int) (j : Nat) (running : Int) : Option Int :=
  if j = 0 then some running
  else do
    let left ← above[j - 1]?
    if left > floor then return max running (← word (left + (← word j)))
    else return running

def apart? (j : Nat) (running : Int) : Option Int :=
  if running > floor then do word (running - (← word j)) else some unreachable

def adjacent? (above : List Int) (j : Nat) : Option Int :=
  if j = 0 then some unreachable else do word ((← above[j - 1]?) + 5)

/-- The best score before place `j`, over the gap and without one. -/
def before? (above : List Int) (j : Nat) (running : Int) : Option Int := do
  return max (← apart? j running) (← adjacent? above j)

/-- Writes the scores of query byte `q` into `row`, from place `j` on. -/
def fillNext (starts : List Bool) (above : List Int) (q : UInt8) :
    Nat → Int → List UInt8 → List Int → Option (List Int)
  | _, _, [], row => some row
  | j, running, c :: rest, row => do
    let running ← advance? above j running
    if fold c == fold q then
      let best ← before? above j running
      if best ≤ floor then fillNext starts above q (j + 1) running rest row
      else
        let score ← earn best q c (← starts[j]?)
        fillNext starts above q (j + 1) running rest (← put row j score)
    else fillNext starts above q (j + 1) running rest row

def bestOfRow? (row : List Int) : Option (Option Int) := do
  let ends := row.zipIdx.filter fun e => e.1 > floor
  let scores ← ends.mapM fun e => do word (e.1 - (← word (row.length - 1 - e.2 : Nat)))
  return scores.max?

def prefixScore? (query candidate : List UInt8) : Option Int := do
  let same ← word ((candidate.zip query).countP fun e => e.1 == e.2)
  let longer ← word (candidate.length - query.length : Nat)
  word ((← word (2 * same)) - longer)

structure Matcher where
  query : List UInt8
  /-- The scores of the query byte before. -/
  above : List Int := []
  here : List Int := []
  starts : List Bool := []

namespace Matcher

def ofQuery (query : String) : Matcher := { query := Text.encode query }

def reset (m : Matcher) (candidate : List UInt8) : Matcher :=
  { m with
    above := List.replicate candidate.length unreachable
    here := List.replicate candidate.length unreachable
    starts := (cells candidate).map (·.wordStart) }

/-- Works through further query bytes; the two rows change places after each. -/
def fillRows (candidate : List UInt8) : List UInt8 → Matcher → Option Matcher
  | [], m => some m
  | q :: rest, m => do
    let cleared := m.here.map fun _ => unreachable
    let row ← fillNext m.starts m.above q 0 unreachable candidate cleared
    fillRows candidate rest { m with above := row, here := m.above }

def rows? (m : Matcher) (candidate : List UInt8) (q : UInt8) (done : List UInt8) : Option Matcher := do
  let m := m.reset candidate
  let above ← fillFirst m.starts q 0 candidate m.above
  fillRows candidate done { m with above := above }

def placementScore? (m : Matcher) (candidate : List UInt8) : Option (Matcher × Option Int) :=
  match m.query with
  | [] => some (m, none)
  | q :: rest =>
    if m.query.length > candidate.length then some (m, none)
    else do
      let m ← m.rows? candidate q rest
      return (m, ← bestOfRow? m.above)

def score? (m : Matcher) (candidate : List UInt8) : Option (Matcher × Option MatchScore) :=
  if m.query.isEmpty then some (m, some ⟨.leading, 0⟩)
  else if foldedPrefix m.query candidate then do
    let kind := if candidate.length == m.query.length then .exact else .leading
    return (m, some ⟨kind, ← prefixScore? m.query candidate⟩)
  else do
    let kind := if foldedInfix m.query candidate then .substring else .scattered
    let (m, score) ← m.placementScore? candidate
    return (m, score.map (⟨kind, ·⟩))

end Matcher

end JavaAtlas.Fuzzy
