/-!
# Small sets of numbers

A set of natural numbers kept as the bits of one number, so that union, intersection and difference
are single operations. Sets of tokens and of character classes are kept this way.
-/

namespace JavaAtlas

set_option autoImplicit false

structure BitSet where
  bits : Nat := 0
deriving DecidableEq, Hashable, Inhabited

namespace BitSet

def empty : BitSet := ⟨0⟩

def singleton (i : Nat) : BitSet := ⟨1 <<< i⟩

def contains (s : BitSet) (i : Nat) : Bool := s.bits.testBit i

def isEmpty (s : BitSet) : Bool := s.bits == 0

def union (s t : BitSet) : BitSet := ⟨s.bits ||| t.bits⟩

def inter (s t : BitSet) : BitSet := ⟨s.bits &&& t.bits⟩

def diff (s t : BitSet) : BitSet := ⟨s.bits ^^^ (s.bits &&& t.bits)⟩

def meets (s t : BitSet) : Bool := !(s.inter t).isEmpty

def insert (s : BitSet) (i : Nat) : BitSet := s.union (singleton i)

def ofList (members : List Nat) : BitSet := members.foldl insert empty

def below (n : Nat) : BitSet := ⟨(1 <<< n) - 1⟩

def toListBelow (s : BitSet) (bound : Nat) : List Nat := (List.range bound).filter s.contains

@[simp] theorem contains_empty (i : Nat) : empty.contains i = false := by
  simp [contains, empty]

@[simp] theorem contains_union (s t : BitSet) (i : Nat) :
    (s.union t).contains i = (s.contains i || t.contains i) := by
  simp [contains, union]

@[simp] theorem contains_inter (s t : BitSet) (i : Nat) :
    (s.inter t).contains i = (s.contains i && t.contains i) := by
  simp [contains, inter]

@[simp] theorem contains_diff (s t : BitSet) (i : Nat) :
    (s.diff t).contains i = (s.contains i && !t.contains i) := by
  simp only [contains, diff, Nat.testBit_xor, Nat.testBit_and]
  cases s.bits.testBit i <;> cases t.bits.testBit i <;> rfl

@[simp] theorem contains_singleton (i j : Nat) : (singleton i).contains j = decide (i = j) := by
  simp [contains, singleton, Nat.shiftLeft_eq, Nat.testBit_two_pow]

@[simp] theorem mem_toListBelow (s : BitSet) (bound i : Nat) :
    i ∈ s.toListBelow bound ↔ i < bound ∧ s.contains i = true := by
  simp [toListBelow]

end BitSet

end JavaAtlas
