import JavaAtlas.Text.Split
import JavaAtlas.Text.Utf8
import Mathlib.Data.List.Basic

/-!
# Texts and their bytes

UTF-8 keeps the order of texts: the bytes of a smaller text are smaller, byte by byte. The texts that
begin with a given one stand together in that order, right from that text on.
-/

namespace JavaAtlas.Text

set_option autoImplicit false

open Std (TransCmp OrientedCmp ReflCmp)

theorem encode_eq_flatMap (s : String) : encode s = s.toList.flatMap String.utf8EncodeChar := by
  rw [encode, String.toUTF8, ← String.utf8Encode_toList, List.utf8Encode,
    List.toList_data_toByteArray]

theorem length_encode (s : String) : (encode s).length = s.utf8ByteSize := by
  rw [encode, Array.length_toList]
  rfl

theorem encode_ne_nil {s : String} (h : s ≠ "") : encode s ≠ [] := by
  intro hnil
  refine h (String.utf8ByteSize_eq_zero_iff.mp ?_)
  rw [← length_encode, hnil, List.length_nil]

theorem compare_cons (a b : UInt8) (as bs : List UInt8) :
    compare (a :: as) (b :: bs) = (compare a b).then (compare as bs) := by
  rw [List.compare_eq_compareLex, List.compareLex_cons_cons]

theorem compare_eq_lt_of_lt {as bs : List UInt8} (h : as < bs) : compare as bs = .lt := by
  induction as generalizing bs with
  | nil =>
    cases bs with
    | nil => simp at h
    | cons b bs => rfl
  | cons a as ih =>
    cases bs with
    | nil => simp at h
    | cons b bs =>
      rw [compare_cons]
      rcases List.cons_lt_cons_iff.mp h with hlt | ⟨rfl, hlt⟩
      · exact Ordering.then_eq_lt.mpr (Or.inl (Std.compare_eq_lt.mpr hlt))
      · exact Ordering.then_eq_lt.mpr (Or.inr ⟨ReflCmp.compare_self, ih hlt⟩)

theorem utf8EncodeChar_lt {c d : Char} (h : c < d) (rest rest' : List UInt8) :
    String.utf8EncodeChar c ++ rest < String.utf8EncodeChar d ++ rest' := by
  have hval : c.val.toNat < d.val.toNat := h
  have hvalid : d.val.toNat < 1114112 := by
    have := d.valid
    unfold UInt32.isValidChar Nat.isValidChar at this
    omega
  have hthird (v : Nat) : v / 4096 = v / 64 / 64 := by omega
  have hfourth (v : Nat) : v / 262144 = v / 64 / 64 / 64 := by omega
  -- the number of bytes grows with the character, so only ten pairs of sizes are left
  simp only [String.utf8EncodeChar]
  split <;> split <;> (try split) <;> (try split) <;> (try split) <;> (try split) <;>
    simp only [List.cons_append, List.nil_append, List.cons_lt_cons_iff, UInt8.lt_iff_toNat_lt,
      UInt8.toNat_ofNat', ← UInt8.toNat_inj, hthird, hfourth] <;> omega

theorem flatMap_utf8EncodeChar_lt {as bs : List Char} (h : as < bs) :
    as.flatMap String.utf8EncodeChar < bs.flatMap String.utf8EncodeChar := by
  induction as generalizing bs with
  | nil =>
    cases bs with
    | nil => simp at h
    | cons b bs =>
      obtain ⟨x, xs, hx⟩ := List.exists_cons_of_ne_nil (String.utf8EncodeChar_ne_nil (c := b))
      simp [hx]
  | cons a as ih =>
    cases bs with
    | nil => simp at h
    | cons b bs =>
      rw [List.flatMap_cons, List.flatMap_cons]
      rcases List.cons_lt_cons_iff.mp h with hlt | ⟨rfl, hlt⟩
      · exact utf8EncodeChar_lt hlt _ _
      · exact List.append_left_lt (ih hlt)

theorem compare_eq_lt_iff {a b : String} : compare a b = .lt ↔ a.toList < b.toList :=
  compareOfLessAndEq_eq_lt

theorem compare_encode (a b : String) : compare (encode a) (encode b) = compare a b := by
  have hlt {a b : String} (h : compare a b = .lt) : compare (encode a) (encode b) = .lt := by
    rw [encode_eq_flatMap, encode_eq_flatMap]
    exact compare_eq_lt_of_lt (flatMap_utf8EncodeChar_lt (compare_eq_lt_iff.mp h))
  cases h : compare a b with
  | lt => exact hlt h
  | eq =>
    rw [Std.LawfulEqOrd.eq_of_compare h]
    exact ReflCmp.compare_self
  | gt => exact OrientedCmp.gt_of_lt (hlt (OrientedCmp.lt_of_gt h))

theorem encode_lt_iff {a b : String} : encode a < encode b ↔ compare a b = .lt := by
  constructor
  · intro h
    rw [← compare_encode]
    exact compare_eq_lt_of_lt h
  · intro h
    rw [encode_eq_flatMap, encode_eq_flatMap]
    exact flatMap_utf8EncodeChar_lt (compare_eq_lt_iff.mp h)

theorem encode_le_iff {a b : String} : encode a ≤ encode b ↔ (compare a b).isLE = true := by
  have hswap : compare b a = (compare a b).swap := OrientedCmp.eq_swap
  rw [← List.not_lt, encode_lt_iff, hswap]
  cases compare a b <;> simp

/-! ## Prefixes -/

theorem isSome_stripPrefix?_iff (head cs : List Char) :
    (stripPrefix? head cs).isSome = true ↔ head <+: cs := by
  induction head generalizing cs with
  | nil => simp [stripPrefix?]
  | cons h head ih =>
    cases cs with
    | nil => simp [stripPrefix?]
    | cons c cs =>
      rw [stripPrefix?, List.cons_prefix_cons]
      split
      next heq => rw [ih, and_iff_right heq]
      next hne => simp [hne]

theorem startsWith_iff {head s : String} :
    startsWith head s = true ↔ head.toList <+: s.toList :=
  isSome_stripPrefix?_iff head.toList s.toList

theorem not_lt_of_isPrefix {head cs : List Char} (h : head <+: cs) : ¬ cs < head := by
  obtain ⟨rest, rfl⟩ := h
  induction head with
  | nil => simp
  | cons c head ih =>
    rw [List.cons_append, List.cons_lt_cons_iff, not_or]
    exact ⟨Char.lt_irrefl c, fun h => ih h.2⟩

/-- What lies between a text and one that begins with it begins with it too. -/
theorem prefix_of_between {head as bs : List Char} (hhead : ¬ as < head) (hle : ¬ bs < as)
    (h : head <+: bs) : head <+: as := by
  induction head generalizing as bs with
  | nil => exact List.nil_prefix
  | cons c head ih =>
    cases bs with
    | nil => simp at h
    | cons b bs =>
      obtain ⟨rfl, hrest⟩ := List.cons_prefix_cons.mp h
      cases as with
      | nil => simp at hhead
      | cons a as =>
        rw [List.cons_lt_cons_iff, not_or, not_and] at hhead hle
        obtain rfl : c = a := Char.le_antisymm (Char.not_lt.mp hhead.1) (Char.not_lt.mp hle.1)
        exact List.cons_prefix_cons.mpr ⟨rfl, ih (hhead.2 rfl) (hle.2 rfl) hrest⟩

theorem isLE_compare_iff {a b : String} : (compare a b).isLE = true ↔ ¬ b.toList < a.toList := by
  have hswap : compare b a = (compare a b).swap := OrientedCmp.eq_swap
  rw [← compare_eq_lt_iff, hswap]
  cases compare a b <;> simp

/-- A text stands before all that begin with it. -/
theorem isLE_of_startsWith {head s : String} (h : startsWith head s = true) :
    (compare head s).isLE = true :=
  isLE_compare_iff.mpr (not_lt_of_isPrefix (startsWith_iff.mp h))

/-- From a text on, those that begin with it come first. -/
theorem startsWith_of_between {head a b : String} (hhead : (compare head a).isLE = true)
    (hle : (compare a b).isLE = true) (h : startsWith head b = true) : startsWith head a = true :=
  startsWith_iff.mpr (prefix_of_between (isLE_compare_iff.mp hhead) (isLE_compare_iff.mp hle)
    (startsWith_iff.mp h))

end JavaAtlas.Text
