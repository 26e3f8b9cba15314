import JavaAtlas.Record.Layout
import Mathlib.Algebra.Group.Nat.Defs

/-!
# Reading back what was written

What is read off a written record is the record itself, and what follows it is left. Lengths are
kept in 64 bits, so this is said of values that take fewer bytes than that.
-/

namespace JavaAtlas

set_option autoImplicit false

namespace Codec

/-! ## Words -/

theorem length_writeWord (width n : Nat) : (writeWord width n).length = width := by
  induction width generalizing n with
  | zero => rfl
  | succ width ih => rw [writeWord, List.length_cons, ih]

theorem readWord_writeWord (width n : Nat) (rest : List UInt8) :
    readWord width (writeWord width n ++ rest) = some (n % 256 ^ width, rest) := by
  induction width generalizing n with
  | zero => simp [readWord, writeWord, Nat.mod_one]
  | succ width ih =>
    have hbyte : (UInt8.ofNat (n % 256)).toNat = n % 256 := by
      rw [UInt8.toNat_ofNat']
      exact Nat.mod_eq_of_lt (Nat.mod_lt n (by decide))
    rw [writeWord, List.cons_append, readWord, ih, Option.bind_eq_bind, Option.bind_some, hbyte,
      Nat.pow_succ', Nat.mod_mul]
    rfl

theorem readWord_writeWord_of_lt {width n : Nat} (h : n < 256 ^ width) (rest : List UInt8) :
    readWord width (writeWord width n ++ rest) = some (n, rest) := by
  rw [readWord_writeWord, Nat.mod_eq_of_lt h]

/-! ## Codecs that read back -/

variable {α β : Type}

/-- Reading takes exactly what was written. -/
structure Faithful (c : Codec α) : Prop where
  length_pos : ∀ a, 0 < (c.write a).length
  read_write : ∀ a rest, (c.write a).length < 256 ^ 8 → c.read (c.write a ++ rest) = some (a, rest)

/-- As `Faithful`, with values allowed that take no byte; only sequences of these cannot be read. -/
def ReadsBack (c : Codec α) : Prop :=
  ∀ a rest, (c.write a).length < 256 ^ 8 → c.read (c.write a ++ rest) = some (a, rest)

theorem Faithful.readsBack {c : Codec α} (h : c.Faithful) : c.ReadsBack := h.read_write

theorem faithful_u32 : Faithful u32 where
  length_pos a := by simp [u32, length_writeWord]
  read_write a rest _ := by
    have hlt : a.toNat < 256 ^ 4 := a.toNat_lt
    simp [u32, readWord_writeWord_of_lt hlt]

theorem faithful_u64 : Faithful u64 where
  length_pos a := by simp [u64, length_writeWord]
  read_write a rest _ := by
    have hlt : a.toNat < 256 ^ 8 := a.toNat_lt
    simp [u64, readWord_writeWord_of_lt hlt]

theorem faithful_bool : Faithful bool where
  length_pos _ := Nat.one_pos
  read_write a _ _ := by cases a <;> rfl

theorem takeBytes_append (bytes rest : List UInt8) :
    takeBytes bytes.length (bytes ++ rest) = some (bytes, rest) := by
  simp [takeBytes]

theorem decode?_encode (s : String) : Text.decode? (Text.encode s) = some s := by
  rw [Text.decode?, Text.encode, Array.toArray_toList]
  exact dif_pos s.isValidUTF8

theorem faithful_text : Faithful text where
  length_pos s := by
    rw [text, List.length_append, length_writeWord]
    omega
  read_write s rest h := by
    have hlt : (Text.encode s).length < 256 ^ 8 := by
      simp only [text, List.length_append, length_writeWord] at h
      omega
    simp only [text, List.append_assoc, readWord_writeWord_of_lt hlt, takeBytes_append,
      decode?_encode, Option.bind_eq_bind, Option.bind_some]
    rfl

theorem Faithful.option {c : Codec α} (h : c.Faithful) : (option c).Faithful where
  length_pos a := by cases a <;> simp [Codec.option]
  read_write a rest hlt := by
    cases a with
    | none => rfl
    | some a =>
      have hlt' : (c.write a).length < 256 ^ 8 := by
        simp only [Codec.option, List.length_cons] at hlt
        omega
      simp [Codec.option, h.read_write a rest hlt']

theorem Faithful.length_le_flatMap {c : Codec α} (h : c.Faithful) (as : List α) :
    as.length ≤ (as.flatMap c.write).length := by
  induction as with
  | nil => exact Nat.le_refl 0
  | cons a as ih =>
    have hpos := h.length_pos a
    rw [List.flatMap_cons, List.length_append, List.length_cons]
    omega

theorem Faithful.readMany {c : Codec α} (h : c.Faithful) (as : List α) (rest : List UInt8)
    (hlt : (as.flatMap c.write).length < 256 ^ 8) :
    readMany c as.length (as.flatMap c.write ++ rest) = some (as, rest) := by
  induction as with
  | nil => rfl
  | cons a as ih =>
    rw [List.flatMap_cons, List.length_append] at hlt
    have hfirst := h.read_write a (as.flatMap c.write ++ rest) (by omega)
    have hothers := ih (by omega)
    simp [Codec.readMany, hfirst, hothers]

/-- Every element takes a byte, so a sequence has fewer elements than it takes bytes. -/
theorem Faithful.list {c : Codec α} (h : c.Faithful) : (list c).Faithful where
  length_pos as := by
    rw [Codec.list, List.length_append, length_writeWord]
    omega
  read_write as rest hlt := by
    have hbytes : (as.flatMap c.write).length < 256 ^ 8 := by
      simp only [Codec.list, List.length_append, length_writeWord] at hlt
      omega
    have hcount := Nat.lt_of_le_of_lt (h.length_le_flatMap as) hbytes
    simp only [Codec.list, List.append_assoc, readWord_writeWord_of_lt hcount, Option.bind_eq_bind,
      Option.bind_some]
    exact h.readMany as rest hbytes

theorem ReadsBack.pair {a : Codec α} {b : Codec β} (ha : a.ReadsBack) (hb : b.ReadsBack) :
    (pair a b).ReadsBack := by
  intro p rest hlt
  simp only [Codec.pair, List.length_append] at hlt
  have hleft := ha p.1 (b.write p.2 ++ rest) (by omega)
  have hright := hb p.2 rest (by omega)
  simp [Codec.pair, hleft, hright]

theorem ReadsBack.via {c : Codec α} (h : c.ReadsBack) {parts : β → α} {make : α → Option β}
    (hmake : ∀ b, make (parts b) = some b) : (via c parts make).ReadsBack := by
  intro b rest hlt
  have hread := h (parts b) rest hlt
  simp [Codec.via, hread, hmake]

theorem Faithful.pair {a : Codec α} {b : Codec β} (ha : a.Faithful) (hb : b.Faithful) :
    (pair a b).Faithful where
  length_pos p := by
    have hpos := ha.length_pos p.1
    simp only [Codec.pair, List.length_append]
    omega
  read_write := ha.readsBack.pair hb.readsBack

theorem Faithful.via {c : Codec α} (h : c.Faithful) {parts : β → α} {make : α → Option β}
    (hmake : ∀ b, make (parts b) = some b) : (via c parts make).Faithful where
  length_pos b := h.length_pos (parts b)
  read_write := h.readsBack.via hmake

theorem faithful_named [Named β] [DecidableEq β] (hfew : (Named.all : List β).length < 256 ^ 4) :
    (named : Codec β).Faithful where
  length_pos b := by simp [named, length_writeWord]
  read_write b rest _ := by
    have hmem : ∃ x ∈ (Named.all : List β), (x == b) = true := ⟨b, Named.mem_all b, by simp⟩
    have hlt := List.findIdx_lt_length_of_exists hmem
    have hfound := List.findIdx_getElem (p := (· == b)) (w := hlt)
    simp only [named, readWord_writeWord_of_lt (Nat.lt_trans hlt hfew), Option.bind_eq_bind,
      Option.bind_some, List.getElem?_eq_getElem hlt]
    rw [eq_of_beq hfound]
    rfl

/-! ## The layout of records -/

/-- The offsets of a span fit 32 bits. -/
theorem faithful_span : Faithful span := by
  refine (faithful_u32.pair faithful_u32).via fun s => ?_
  have hstop : s.stop < 4294967296 := Nat.lt_succ_of_le s.bounded
  have hstart := Nat.lt_of_le_of_lt s.ordered hstop
  have hs : (UInt32.ofNat s.start).toNat = s.start := UInt32.toNat_ofNat_of_lt' hstart
  have ht : (UInt32.ofNat s.stop).toNat = s.stop := UInt32.toNat_ofNat_of_lt' hstop
  simp only [hs, ht]
  rw [Span.mk?, dif_pos ⟨s.ordered, s.bounded⟩]

theorem faithful_path : Faithful path := faithful_text.via fun _ => rfl

theorem faithful_fingerprint : Faithful fingerprint := faithful_text.via fun _ => rfl

theorem faithful_symbol : Faithful symbol :=
  (faithful_text.pair <| faithful_text.pair <| (faithful_named (by decide)).pair <|
    (faithful_named (by decide)).option.pair <| faithful_path.pair <| faithful_span.pair <|
    faithful_span.pair <| faithful_text.pair <| faithful_text.option.pair faithful_u32).via
    fun _ => rfl

theorem faithful_reference : Faithful reference := (faithful_text.pair faithful_span).via fun _ => rfl

theorem faithful_callReference : Faithful callReference :=
  (faithful_text.pair <| faithful_span.pair faithful_text.option).via fun _ => rfl

theorem faithful_supertypeEdge : Faithful supertypeEdge :=
  (faithful_text.pair <| faithful_text.pair faithful_bool).via fun _ => rfl

theorem faithful_scope : Faithful scope :=
  ((faithful_named (by decide)).pair faithful_span).via fun _ => rfl

theorem faithful_diagnostic : Faithful diagnostic :=
  ((faithful_named (by decide)).pair <| (faithful_named (by decide)).pair <|
    faithful_span.pair faithful_text).via fun _ => rfl

theorem faithful_fileSymbols : Faithful fileSymbols :=
  (faithful_text.option.pair <| faithful_symbol.list.pair <| faithful_reference.list.pair <|
    faithful_callReference.list.pair <| faithful_text.list.pair <| faithful_supertypeEdge.list.pair <|
    faithful_scope.list.pair <| faithful_diagnostic.list.pair faithful_bool).via fun _ => rfl

theorem Faithful.record {c : Codec α} (h : c.Faithful) : (StoredRecord.codec c).Faithful :=
  (faithful_u32.pair <| faithful_u64.pair <| faithful_text.pair <| faithful_fingerprint.pair h).via
    fun _ => rfl

theorem ReadsBack.record {c : Codec α} (h : c.ReadsBack) : (StoredRecord.codec c).ReadsBack :=
  (faithful_u32.readsBack.pair <| faithful_u64.readsBack.pair <| faithful_text.readsBack.pair <|
    faithful_fingerprint.readsBack.pair h).via fun _ => rfl

theorem ReadsBack.read_write {c : Codec α} (h : c.ReadsBack) {a : α}
    (hlt : (c.write a).length < 256 ^ 8) : c.read (c.write a) = some (a, []) := by
  have hread := h a [] hlt
  rwa [List.append_nil] at hread

theorem Faithful.decode_write {c : Codec α} (h : c.Faithful) {a : α}
    (hlt : (c.write a).length < 256 ^ 8) : c.decode (c.write a) = some a := by
  rw [decode, h.readsBack.read_write hlt]

end Codec

end JavaAtlas
