import JavaAtlas.Naming
import JavaAtlas.Text.Utf8

/-!
# Scoring a name against a query

A query matches a name when its bytes occur in the name in order, ASCII case aside. Whole names beat
prefixes, prefixes beat substrings and those beat scattered matches; within the last two kinds the
score is that of the best placement of the query, which rewards word starts and runs and charges for
everything skipped.
-/

namespace JavaAtlas.Fuzzy

set_option autoImplicit false

inductive MatchKind
  | scattered
  | substring
  | leading
  | exact
deriving DecidableEq

instance : Named MatchKind where
  all := [.scattered, .substring, .leading, .exact]
  name
    | .scattered => "Fuzzy"
    | .substring => "Substring"
    | .leading => "Prefix"
    | .exact => "Exact"

def MatchKind.rank : MatchKind → Nat
  | .scattered => 0
  | .substring => 1
  | .leading => 2
  | .exact => 3

structure MatchScore where
  kind : MatchKind
  score : Int
deriving DecidableEq

/-- Kind and score as one number: the kind counts in units that no score reaches. -/
def MatchScore.value (m : MatchScore) : Int := m.kind.rank * 4294967296 + m.score

def MatchScore.compare (a b : MatchScore) : Ordering :=
  (Ord.compare a.kind.rank b.kind.rank).then (Ord.compare a.score b.score)

/-- The ASCII lower case of a byte. -/
def fold (b : UInt8) : UInt8 := if 65 ≤ b && b ≤ 90 then b + 32 else b

def isUpper (b : UInt8) : Bool := 65 ≤ b && b ≤ 90

def isLower (b : UInt8) : Bool := 97 ≤ b && b ≤ 122

def isLetter (b : UInt8) : Bool := isUpper b || isLower b

def isDigit (b : UInt8) : Bool := 48 ≤ b && b ≤ 57

def isSeparator (b : UInt8) : Bool :=
  ("_- /\\.:<>()[]$".toList.map fun c => UInt8.ofNat c.toNat).contains b

def startsWord (prior : Option UInt8) (b : UInt8) : Bool :=
  match prior with
  | none => true
  | some p =>
    isSeparator p || (isLower p && isUpper b) || (isLetter p && isDigit b) ||
      (isDigit p && isLetter b)

/-- A byte of the candidate and whether a word starts there. -/
structure Cell where
  byte : UInt8
  wordStart : Bool

def cellsAfter : Option UInt8 → List UInt8 → List Cell
  | _, [] => []
  | prior, b :: rest => ⟨b, startsWord prior b⟩ :: cellsAfter (some b) rest

def cells (candidate : List UInt8) : List Cell := cellsAfter none candidate

/-- Stands for "no placement ends here". -/
def unreachable : Int := -536870912

/-- Every score of a real placement lies above this bound, and `unreachable` below it. -/
def floor : Int := -268435456

def gain (q : UInt8) (cell : Cell) : Int :=
  10 + (if cell.wordStart then 15 else 0) + (if q == cell.byte then 2 else 0)

/-- Scores of placing the first query byte at each position from `j` on: the bytes skipped before it
count against it. -/
def firstRow (q : UInt8) : Nat → List Cell → List Int
  | _, [] => []
  | j, cell :: rest =>
    (if fold cell.byte == fold q then gain q cell - j else unreachable) :: firstRow q (j + 1) rest

/-- Scores of placing query byte `q` at each position from `j` on, given the scores of the byte
before it. `left` is the score one position to the left, `running` the best score further left when
each skipped byte costs one. -/
def nextRow (q : UInt8) : Nat → Int → Option Int → List (Cell × Int) → List Int
  | _, _, _, [] => []
  | j, running, left, (cell, above) :: rest =>
    let running :=
      match left with
      | some p => if p > floor then max running (p + j) else running
      | none => running
    let here :=
      if fold cell.byte == fold q then
        let apart := if running > floor then running - j else unreachable
        let adjacent := match left with | some p => p + 5 | none => unreachable
        let best := max apart adjacent
        if best ≤ floor then unreachable else best + gain q cell
      else unreachable
    here :: nextRow q (j + 1) running (some above) rest

/-- Scores of placing the whole query with its last byte at each position. -/
def lastRow (cells : List Cell) : UInt8 → List UInt8 → List Int
  | q, query =>
    query.foldl (fun row b => nextRow b 0 unreachable none (cells.zip row)) (firstRow q 0 cells)

/-- The best score once each byte after the last placed one costs one. -/
def bestOfRow (row : List Int) : Option Int :=
  let ends := row.zipIdx.filter fun e => e.1 > floor
  (ends.map fun e => e.1 - Int.ofNat (row.length - 1 - e.2)).max?

def placementScore (query candidate : List UInt8) : Option Int :=
  match query with
  | [] => none
  | q :: rest =>
    if query.length > candidate.length then none
    else bestOfRow (lastRow (cells candidate) q rest)

def foldedPrefix (query candidate : List UInt8) : Bool :=
  (query.map fold).isPrefixOf (candidate.map fold)

def foldedInfix (query : List UInt8) : List UInt8 → Bool
  | [] => query.isEmpty
  | c :: cs => foldedPrefix query (c :: cs) || foldedInfix query cs

/-- Two for each byte of equal case, less one for each byte the candidate is longer. -/
def prefixScore (query candidate : List UInt8) : Int :=
  2 * Int.ofNat ((candidate.zip query).countP fun e => e.1 == e.2) -
    Int.ofNat (candidate.length - query.length)

def scoreBytes (query candidate : List UInt8) : Option MatchScore :=
  if query.isEmpty then some ⟨.leading, 0⟩
  else if foldedPrefix query candidate then
    let kind := if candidate.length == query.length then .exact else .leading
    some ⟨kind, prefixScore query candidate⟩
  else if foldedInfix query candidate then
    (placementScore query candidate).map (⟨.substring, ·⟩)
  else (placementScore query candidate).map (⟨.scattered, ·⟩)

/-- How `candidate` matches `query`; an empty query matches everything as a prefix. -/
def score (query candidate : String) : Option MatchScore :=
  scoreBytes (Text.encode query) (Text.encode candidate)

def isPrefixMatch (query candidate : String) : Bool :=
  match score query candidate with
  | some m => m.kind.rank ≥ MatchKind.leading.rank
  | none => false

end JavaAtlas.Fuzzy
