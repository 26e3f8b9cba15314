import JavaAtlas.Fuzzy.TrigramTable
import Mathlib.Data.List.Basic

/-!
# Sorted words

Sorting and dropping repetitions leaves the elements in strictly increasing order. In such an array
a binary search finds every element and nothing else. A pair packed into a word can be taken apart
again, and words compare as the pairs do, by trigram first.
-/

namespace JavaAtlas.Fuzzy

set_option autoImplicit false

universe u

/-! ## Each element once -/

section Unique

variable {α : Type u} [LE α] [LT α] [BEq α] [LawfulBEq α] [Std.IsLinearOrder α]
  [Std.LawfulOrderLT α]

/-- The loop behind `eraseReps` on what follows `a`. -/
theorem eraseReps_loop (a : α) (l acc : List α) (h : (a :: l).Pairwise (· ≤ ·)) :
    ∃ kept, List.eraseRepsBy.loop (· == ·) a l acc = acc.reverse ++ kept ∧
      kept.Pairwise (· < ·) ∧ ∀ b, b ∈ kept ↔ b ∈ a :: l := by
  induction l generalizing a acc with
  | nil =>
    exact ⟨[a], by rw [List.eraseRepsBy.loop, List.reverse_cons], List.pairwise_singleton _ _,
      fun b => Iff.rfl⟩
  | cons b l ih =>
    obtain ⟨ha, hl⟩ := List.pairwise_cons.mp h
    cases hab : a == b with
    | true =>
      obtain rfl := eq_of_beq hab
      obtain ⟨kept, hloop, hsorted, hmem⟩ := ih a acc hl
      refine ⟨kept, ?_, hsorted, fun c => ?_⟩
      · rw [List.eraseRepsBy.loop, hab]
        exact hloop
      · rw [hmem, List.mem_cons, List.mem_cons, List.mem_cons, or_self_left]
    | false =>
      obtain ⟨kept, hloop, hsorted, hmem⟩ := ih b (a :: acc) hl
      have hlt : a < b := Std.lt_of_le_of_ne (ha b List.mem_cons_self) (ne_of_beq_false hab)
      refine ⟨a :: kept, ?_, List.pairwise_cons.mpr ⟨fun c hc => ?_, hsorted⟩, fun c => ?_⟩
      · rw [List.eraseRepsBy.loop, hab]
        exact hloop.trans (by rw [List.reverse_cons, List.append_assoc, List.singleton_append])
      · rcases List.mem_cons.mp ((hmem c).mp hc) with rfl | hc
        · exact hlt
        · exact Std.lt_of_lt_of_le hlt ((List.pairwise_cons.mp hl).1 c hc)
      · rw [List.mem_cons, hmem, ← List.mem_cons]

theorem eraseReps_spec {l : List α} (h : l.Pairwise (· ≤ ·)) :
    l.eraseReps.Pairwise (· < ·) ∧ ∀ b, b ∈ l.eraseReps ↔ b ∈ l := by
  cases l with
  | nil => exact ⟨List.Pairwise.nil, fun _ => Iff.rfl⟩
  | cons a l =>
    obtain ⟨kept, hloop, hspec⟩ := eraseReps_loop a l [] h
    have heq : (a :: l).eraseReps = kept := hloop
    rw [heq]
    exact hspec

variable [DecidableLE α]

theorem sortedUnique_spec (l : List α) :
    (sortedUnique l).Pairwise (· < ·) ∧ ∀ b, b ∈ sortedUnique l ↔ b ∈ l := by
  have hsorted : (l.mergeSort (· ≤ ·)).Pairwise (· ≤ ·) := by
    refine (List.pairwise_mergeSort (fun a b c hab hbc => ?_) (fun a b => ?_) l).imp
      of_decide_eq_true
    · exact decide_eq_true (Std.le_trans (of_decide_eq_true hab) (of_decide_eq_true hbc))
    · rw [Bool.or_eq_true, decide_eq_true_iff, decide_eq_true_iff]
      exact Std.le_total
  obtain ⟨hlt, hmem⟩ := eraseReps_spec hsorted
  exact ⟨hlt, fun b => (hmem b).trans List.mem_mergeSort⟩

theorem pairwise_sortedUnique (l : List α) : (sortedUnique l).Pairwise (· < ·) :=
  (sortedUnique_spec l).1

@[simp] theorem mem_sortedUnique {l : List α} {a : α} : a ∈ sortedUnique l ↔ a ∈ l :=
  (sortedUnique_spec l).2 a

theorem nodup_sortedUnique (l : List α) : (sortedUnique l).Nodup :=
  (pairwise_sortedUnique l).imp fun h => (Std.lt_iff_le_and_ne.mp h).2

end Unique

/-! ## Binary search -/

section Search

variable {xs : Array UInt32} {x : UInt32} {i j : Nat}

theorem lt_of_increasing (h : xs.toList.Pairwise (· < ·)) {a b : UInt32} (hij : i < j)
    (ha : xs[i]? = some a) (hb : xs[j]? = some b) : a < b := by
  rw [← Array.getElem?_toList] at ha hb
  obtain ⟨hi, rfl⟩ := List.getElem?_eq_some_iff.mp ha
  obtain ⟨hj, rfl⟩ := List.getElem?_eq_some_iff.mp hb
  exact List.pairwise_iff_getElem.mp h i j hi hj hij

/-- A place that holds `x` never leaves the window. -/
theorem narrow_eq (h : xs.toList.Pairwise (· < ·)) (hj : xs[j]? = some x) {base size : Nat}
    (hbase : base ≤ j) (hlt : j < base + size) (hsize : base + size ≤ xs.size) :
    narrow xs x base size = j := by
  induction base, size using narrow.induct xs x with
  | case1 base size hone =>
    rw [narrow, if_pos hone]
    omega
  | case2 base size hmany half hleft ih =>
    rw [narrow, if_neg hmany, if_pos hleft]
    obtain ⟨y, hy, hxy⟩ := (Option.any_eq_true _ _).mp hleft
    -- `x` is smaller than the element in the middle, so it stands before that
    refine ih hbase ?_ (by omega)
    by_contra hge
    have hmid : base + half ≤ j := by omega
    rcases Nat.lt_or_eq_of_le hmid with hmid | hmid
    · have := lt_of_increasing h hmid hy hj
      exact absurd (of_decide_eq_true hxy) (UInt32.lt_asymm this)
    · rw [hmid, hj] at hy
      rw [Option.some.inj hy] at hxy
      exact UInt32.lt_irrefl _ (of_decide_eq_true hxy)
  | case3 base size hmany half hright ih =>
    rw [narrow, if_neg hmany, if_neg hright]
    have hmid : base + half < xs.size := by omega
    refine ih ?_ (by omega) (by omega)
    by_contra hless
    have hy : xs[base + half]? = some xs[base + half] := Array.getElem?_eq_getElem hmid
    refine hright ((Option.any_eq_true _ _).mpr ⟨_, hy, decide_eq_true ?_⟩)
    exact lt_of_increasing h (by omega) hj hy

theorem position?_eq_some_iff (h : xs.toList.Pairwise (· < ·)) :
    position? xs x = some i ↔ xs[i]? = some x := by
  rw [position?]
  constructor
  · intro hi
    split at hi
    next hfound => exact Option.some.inj hi ▸ hfound
    next => cases hi
  · intro hi
    have hlt : i < xs.size := (Array.getElem?_eq_some_iff.mp hi).1
    rw [narrow_eq h hi (Nat.zero_le _) (by omega) (by omega), if_pos hi]

theorem isSome_position?_iff (h : xs.toList.Pairwise (· < ·)) :
    (position? xs x).isSome = true ↔ x ∈ xs := by
  rw [Option.isSome_iff_exists, Array.mem_iff_getElem?]
  exact exists_congr fun i => position?_eq_some_iff h

end Search

/-! ## Pairs in words -/

section Pairs

variable {t t' id id' : UInt32} {p q : UInt64}

theorem toNat_packPair (t id : UInt32) :
    (packPair t id).toNat = 4294967296 * t.toNat + id.toNat := by
  have ht := t.toNat_lt
  have hshift : t.toNat <<< 32 % 2 ^ 64 = 2 ^ 32 * t.toNat := by
    rw [Nat.shiftLeft_eq, Nat.mod_eq_of_lt] <;> omega
  rw [Nat.two_pow_add_eq_or_of_lt id.toNat_lt, ← hshift, packPair, UInt64.toNat_or,
    UInt64.toNat_shiftLeft, UInt32.toNat_toUInt64, UInt32.toNat_toUInt64]
  rfl

@[simp] theorem trigramOf_packPair (t id : UInt32) : trigramOf (packPair t id) = t := by
  have ht := t.toNat_lt
  have hid := id.toNat_lt
  apply UInt32.toNat_inj.mp
  rw [trigramOf, UInt64.toNat_toUInt32, UInt64.toNat_shiftRight, toNat_packPair,
    Nat.shiftRight_eq_div_pow]
  change (2 ^ 32 * t.toNat + id.toNat) / 2 ^ 32 % 2 ^ 32 = t.toNat
  omega

@[simp] theorem idOf_packPair (t id : UInt32) : idOf (packPair t id) = id := by
  have hid := id.toNat_lt
  apply UInt32.toNat_inj.mp
  rw [idOf, UInt64.toNat_toUInt32, toNat_packPair]
  omega

theorem packPair_inj : packPair t id = packPair t' id' ↔ t = t' ∧ id = id' := by
  refine ⟨fun h => ?_, fun ⟨ht, hid⟩ => by rw [ht, hid]⟩
  exact ⟨by rw [← trigramOf_packPair t id, h, trigramOf_packPair],
    by rw [← idOf_packPair t id, h, idOf_packPair]⟩

@[simp] theorem packPair_parts (p : UInt64) : packPair (trigramOf p) (idOf p) = p := by
  have hp := p.toNat_lt
  apply UInt64.toNat_inj.mp
  rw [toNat_packPair, trigramOf, idOf, UInt64.toNat_toUInt32, UInt64.toNat_toUInt32,
    UInt64.toNat_shiftRight, Nat.shiftRight_eq_div_pow]
  change 2 ^ 32 * (p.toNat / 2 ^ 32 % 2 ^ 32) + p.toNat % 2 ^ 32 = p.toNat
  omega

theorem packPair_lt_packPair : packPair t id < packPair t' id' ↔ t < t' ∨ t = t' ∧ id < id' := by
  have hid := id.toNat_lt
  have hid' := id'.toNat_lt
  rw [UInt64.lt_iff_toNat_lt, toNat_packPair, toNat_packPair, UInt32.lt_iff_toNat_lt,
    UInt32.lt_iff_toNat_lt, ← UInt32.toNat_inj]
  omega

end Pairs

/-! ## Trigrams in words -/

theorem toNat_packBytes (a b c : UInt8) :
    (packBytes a b c).toNat = a.toNat * 65536 + b.toNat * 256 + c.toNat := by
  have ha := a.toNat_lt
  have hb := b.toNat_lt
  have hc := c.toNat_lt
  have hhigh : a.toNat <<< 16 % 2 ^ 32 = 2 ^ 16 * a.toNat := by
    rw [Nat.shiftLeft_eq, Nat.mod_eq_of_lt] <;> omega
  have hmiddle : b.toNat <<< 8 % 2 ^ 32 = 2 ^ 8 * b.toNat := by
    rw [Nat.shiftLeft_eq, Nat.mod_eq_of_lt] <;> omega
  have hword : (packBytes a b c).toNat = 2 ^ 16 * a.toNat ||| 2 ^ 8 * b.toNat ||| c.toNat := by
    rw [packBytes, UInt32.toNat_or, UInt32.toNat_or, UInt32.toNat_shiftLeft, UInt32.toNat_shiftLeft,
      UInt8.toNat_toUInt32, UInt8.toNat_toUInt32, UInt8.toNat_toUInt32, ← hhigh, ← hmiddle]
    rfl
  rw [hword, Nat.or_assoc, ← Nat.two_pow_add_eq_or_of_lt hc,
    ← Nat.two_pow_add_eq_or_of_lt (by omega)]
  omega

theorem map_toNat_packedTrigrams (bytes : List UInt8) :
    (packedTrigrams bytes).map UInt32.toNat = trigrams bytes := by
  match bytes with
  | [] | [_] | [_, _] => rfl
  | a :: b :: c :: rest =>
    rw [packedTrigrams, trigrams, List.map_cons, toNat_packBytes, map_toNat_packedTrigrams,
      Trigram.ofBytes]

theorem mem_packedTrigrams_iff_toNat {bytes : List UInt8} {t : UInt32} :
    t ∈ packedTrigrams bytes ↔ t.toNat ∈ trigrams bytes := by
  rw [← map_toNat_packedTrigrams, List.mem_map]
  constructor
  · exact fun h => ⟨t, h, rfl⟩
  · rintro ⟨t', h, heq⟩
    rwa [← UInt32.toNat_inj.mp heq]

/-- Three bytes that follow one another in the text, ASCII case aside, make up the trigram. -/
def HasTrigram (text : String) (t : UInt32) : Prop :=
  ∃ a b c, [a, b, c] <:+: (Text.encode text).map fold ∧ t = packBytes a b c

theorem mem_packedTrigrams_iff {bytes : List UInt8} {t : UInt32} :
    t ∈ packedTrigrams bytes ↔ ∃ a b c, [a, b, c] <:+: bytes.map fold ∧ t = packBytes a b c := by
  match bytes with
  | [] | [_] | [_, _] =>
    refine iff_of_false (by simp [packedTrigrams]) ?_
    rintro ⟨a, b, c, hinfix, -⟩
    exact absurd hinfix.length_le (by simp)
  | x :: y :: z :: rest =>
    rw [packedTrigrams, List.mem_cons, mem_packedTrigrams_iff]
    constructor
    · rintro (rfl | ⟨a, b, c, hinfix, ht⟩)
      · exact ⟨_, _, _, ⟨[], rest.map fold, rfl⟩, rfl⟩
      · exact ⟨a, b, c, hinfix.trans (List.suffix_cons _ _).isInfix, ht⟩
    · rintro ⟨a, b, c, hinfix, rfl⟩
      rw [List.map_cons, List.infix_cons_iff] at hinfix
      rcases hinfix with hstart | hinfix
      · obtain ⟨after, hafter⟩ := hstart
        simp only [List.map_cons, List.cons_append, List.cons.injEq] at hafter
        obtain ⟨rfl, rfl, rfl, -⟩ := hafter
        exact Or.inl rfl
      · exact Or.inr ⟨a, b, c, hinfix, rfl⟩

theorem mem_sortedTrigrams {text : String} {t : UInt32} :
    t ∈ sortedTrigrams text ↔ HasTrigram text t := by
  rw [sortedTrigrams, mem_sortedUnique, mem_packedTrigrams_iff, HasTrigram]

/-- A text that contains another one has its trigrams. -/
theorem HasTrigram.of_infix {text text' : String} {t : UInt32} (h : HasTrigram text t)
    (hinside : (Text.encode text).map fold <:+: (Text.encode text').map fold) :
    HasTrigram text' t := by
  obtain ⟨a, b, c, hinfix, ht⟩ := h
  exact ⟨a, b, c, hinfix.trans hinside, ht⟩

theorem sortedTrigrams_eq_nil_iff {text : String} :
    sortedTrigrams text = [] ↔ (Text.encode text).length < 3 := by
  have hnone : sortedTrigrams text = [] ↔ packedTrigrams (Text.encode text) = [] := by
    simp only [List.eq_nil_iff_forall_not_mem, sortedTrigrams, mem_sortedUnique]
  rw [hnone]
  match Text.encode text with
  | [] | [_] | [_, _] => simp [packedTrigrams]
  | _ :: _ :: _ :: _ => simp [packedTrigrams]

end JavaAtlas.Fuzzy
