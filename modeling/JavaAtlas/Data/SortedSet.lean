import JavaAtlas.Data.SortedMap

/-!
# Finite sets in order, and maps to such sets

A set is a sorted map to `Unit`. A `MultiMap` relates keys to sets and never keeps a key whose set
is empty, so the presence of a key says that something is stored under it.
-/

namespace JavaAtlas

set_option autoImplicit false

universe u v

open Std (TransOrd)

abbrev SortedSet (α : Type u) [Ord α] := SortedMap α Unit

namespace SortedSet

variable {α : Type u} [Ord α]

def toList (s : SortedSet α) : List α := s.keys

/-- Adds `a` unless an element that compares equal is there already. -/
def add [TransOrd α] (s : SortedSet α) (a : α) : SortedSet α :=
  if s.contains a then s else s.insert a ()

def addAll [TransOrd α] (s : SortedSet α) (as : List α) : SortedSet α := as.foldl add s

def ofList [TransOrd α] (as : List α) : SortedSet α := addAll ∅ as

end SortedSet

/-- Keys with non-empty sets of values. -/
abbrev MultiMap (κ : Type u) (α : Type v) [Ord κ] [Ord α] := SortedMap κ (SortedSet α)

namespace MultiMap

variable {κ : Type u} {α : Type v} [Ord κ] [Ord α]

def lookup (m : MultiMap κ α) (k : κ) : List α :=
  match m.get? k with
  | some s => s.toList
  | none => []

def link [TransOrd κ] [TransOrd α] (m : MultiMap κ α) (k : κ) (a : α) : MultiMap κ α :=
  m.alter k fun s => some ((s.getD ∅).insert a ())

/-- Removes `a` under `k`, and `k` with its last value. -/
def unlink [TransOrd κ] (m : MultiMap κ α) (k : κ) (a : α) : MultiMap κ α :=
  m.alter k fun s =>
    match s with
    | none => none
    | some s => if (s.erase a).isEmpty then none else some (s.erase a)

end MultiMap

end JavaAtlas
