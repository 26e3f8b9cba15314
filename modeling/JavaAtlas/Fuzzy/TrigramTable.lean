import JavaAtlas.Fuzzy.Trigram

/-!
# Trigram postings in flat arrays

The postings of all trigrams one behind the other, in order. A sorted array holds the trigrams that
occur, and a second one where the ids of each begin, with the end of the last at its end. Pairs of a
trigram and an id are collected as single words, so sorting the words sorts the pairs.
-/

namespace JavaAtlas.Fuzzy

set_option autoImplicit false

universe u

def sortedUnique {α : Type u} [LE α] [DecidableLE α] [BEq α] (l : List α) : List α :=
  (l.mergeSort (· ≤ ·)).eraseReps

/-! ## Words -/

def packBytes (a b c : UInt8) : UInt32 := a.toUInt32 <<< 16 ||| b.toUInt32 <<< 8 ||| c.toUInt32

def packedTrigrams : List UInt8 → List UInt32
  | a :: b :: c :: rest => packBytes (fold a) (fold b) (fold c) :: packedTrigrams (b :: c :: rest)
  | _ => []

def sortedTrigrams (text : String) : List UInt32 := sortedUnique (packedTrigrams (Text.encode text))

def packPair (t id : UInt32) : UInt64 := t.toUInt64 <<< 32 ||| id.toUInt64

def trigramOf (pair : UInt64) : UInt32 := (pair >>> 32).toUInt32

def idOf (pair : UInt64) : UInt32 := pair.toUInt32

/-! ## Sorted arrays -/

/-- Halves the window of `size` places from `base` on until one place is left. -/
def narrow (xs : Array UInt32) (x : UInt32) (base size : Nat) : Nat :=
  if size ≤ 1 then base
  else
    let half := size / 2
    if (xs[base + half]?).any (x < ·) then narrow xs x base (size - half)
    else narrow xs x (base + half) (size - half)
termination_by size

/-- Where `x` stands in a sorted array. -/
def position? (xs : Array UInt32) (x : UInt32) : Option Nat :=
  let i := narrow xs x 0 xs.size
  if xs[i]? = some x then some i else none

/-- The elements from `start` to before `stop`, or `none` if these bounds are out of range. -/
def slice? (xs : Array UInt32) (start stop : UInt32) : Option (Array UInt32) :=
  if start ≤ stop ∧ stop.toNat ≤ xs.size then some (xs.extract start.toNat stop.toNat) else none

/-- What sorted lists have in common. The shortest one is looked up in the others; `none` only if
there is no list. -/
def common (lists : List (Array UInt32)) : Option (List UInt32) :=
  if lists.any Array.isEmpty then some []
  else
    match lists.mergeSort fun a b => a.size ≤ b.size with
    | [] => none
    | base :: rest =>
      some (base.toList.filter fun id => rest.all fun xs => (position? xs id).isSome)

/-! ## The table -/

structure TrigramTable where
  /-- The trigrams that occur, in increasing order. -/
  keys : Array UInt32 := #[]
  /-- The ids of key number `i` stand from place `offsets[i]` to before `offsets[i + 1]`. -/
  offsets : Array UInt32 := #[]
  ids : Array UInt32 := #[]

namespace TrigramTable

def isEmpty (table : TrigramTable) : Bool := table.keys.isEmpty

def postings? (table : TrigramTable) (t : UInt32) : Option (Array UInt32) :=
  match position? table.keys t with
  | none => some #[]
  | some i =>
    (table.offsets[i]?).bind fun start => (table.offsets[i + 1]?).bind fun stop =>
      slice? table.ids start stop

/-- The ids that have every trigram of the query, where the inner `none` says that the query has no
trigram and the outer one that the table sends the reader out of range. -/
def candidates? (table : TrigramTable) (query : String) : Option (Option (List UInt32)) :=
  match sortedTrigrams query with
  | [] => some none
  | trigrams => (trigrams.mapM table.postings?).map common

/-! ## Building -/

/-- Begins the ids of another trigram, unless they are those of the last one. -/
def beginKey (table : TrigramTable) (t : UInt32) : TrigramTable :=
  if table.keys.back? = some t then table
  else
    { table with
      keys := table.keys.push t
      offsets :=
        if table.keys.isEmpty then table.offsets else table.offsets.push table.ids.size.toUInt32 }

def pushPair (table : TrigramTable) (pair : UInt64) : TrigramTable :=
  let table := table.beginKey (trigramOf pair)
  { table with ids := table.ids.push (idOf pair) }

def finish (table : TrigramTable) : TrigramTable :=
  if table.keys.isEmpty then table
  else { table with offsets := table.offsets.push table.ids.size.toUInt32 }

def ofPairs (pairs : List UInt64) : TrigramTable :=
  ((sortedUnique pairs).foldl pushPair { offsets := #[0] }).finish

end TrigramTable

structure TrigramTableBuilder where
  pairs : Array UInt64 := #[]

namespace TrigramTableBuilder

def insert (builder : TrigramTableBuilder) (id : UInt32) (text : String) : TrigramTableBuilder :=
  ⟨builder.pairs ++ (sortedTrigrams text).map (packPair · id)⟩

def build (builder : TrigramTableBuilder) : TrigramTable := .ofPairs builder.pairs.toList

end TrigramTableBuilder

def TrigramTable.ofList (docs : List (UInt32 × String)) : TrigramTable :=
  (docs.foldl (fun builder doc => builder.insert doc.1 doc.2) ({} : TrigramTableBuilder)).build

end JavaAtlas.Fuzzy
