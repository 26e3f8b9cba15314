import JavaAtlas.Proofs.Record.RoundTrip
import JavaAtlas.Store.Directory
import Mathlib.Data.List.Nodup

/-!
# One encoding for every record

Whatever is read was written in the only way there is: the bytes that a reader takes are those the
writer gives for the value read. With the converse for what fits a record file, writing is a
bijection between the records that fit and the byte strings that are read as one of them.
-/

namespace JavaAtlas

set_option autoImplicit false

namespace Codec

variable {α β : Type}

/-- The reader takes nothing but what the writer gives for the value read. -/
structure Canonical (c : Codec α) : Prop where
  eq_write : ∀ {bytes a rest}, c.read bytes = some (a, rest) → bytes = c.write a ++ rest

/-! ## Words -/

theorem writeWord_succ_byte (width : Nat) (b : UInt8) (n : Nat) :
    writeWord (width + 1) (b.toNat + 256 * n) = b :: writeWord width n := by
  have hb : b.toNat < 256 := b.toNat_lt
  have hlow : (b.toNat + 256 * n) % 256 = b.toNat := by omega
  have hhigh : (b.toNat + 256 * n) / 256 = n := by omega
  rw [writeWord, hlow, hhigh, UInt8.ofNat_toNat]

theorem readWord_eq_some {width n : Nat} {bytes rest : List UInt8}
    (h : readWord width bytes = some (n, rest)) :
    n < 256 ^ width ∧ bytes = writeWord width n ++ rest := by
  induction width generalizing bytes n with
  | zero =>
    obtain ⟨rfl, rfl⟩ := Prod.mk.inj (Option.some.inj h)
    exact ⟨Nat.one_pos, rfl⟩
  | succ width ih =>
    cases bytes with
    | nil => simp [readWord] at h
    | cons b bytes =>
      obtain ⟨⟨high, rest'⟩, hread, hn⟩ := Option.bind_eq_some_iff.mp h
      obtain ⟨rfl, rfl⟩ := Prod.mk.inj (Option.some.inj hn)
      obtain ⟨hhigh, rfl⟩ := ih hread
      refine ⟨?_, by rw [writeWord_succ_byte, List.cons_append]⟩
      have hb : b.toNat < 256 := b.toNat_lt
      rw [Nat.pow_succ']
      omega

theorem canonical_u32 : Canonical u32 := by
  refine ⟨fun {bytes a rest} h => ?_⟩
  obtain ⟨⟨n, rest'⟩, hread, ha⟩ := Option.map_eq_some_iff.mp h
  obtain ⟨rfl, rfl⟩ := Prod.mk.inj ha
  obtain ⟨hn, rfl⟩ := readWord_eq_some hread
  have hback : (UInt32.ofNat n).toNat = n := UInt32.toNat_ofNat_of_lt' hn
  simp only [u32, hback]

theorem canonical_u64 : Canonical u64 := by
  refine ⟨fun {bytes a rest} h => ?_⟩
  obtain ⟨⟨n, rest'⟩, hread, ha⟩ := Option.map_eq_some_iff.mp h
  obtain ⟨rfl, rfl⟩ := Prod.mk.inj ha
  obtain ⟨hn, rfl⟩ := readWord_eq_some hread
  have hback : (UInt64.ofNat n).toNat = n := UInt64.toNat_ofNat_of_lt' hn
  simp only [u64, hback]

/-! ## Tags -/

theorem canonical_bool : Canonical bool := by
  refine ⟨fun {bytes a rest} h => ?_⟩
  unfold bool at h
  dsimp only at h
  split at h
  · obtain ⟨rfl, rfl⟩ := Prod.mk.inj (Option.some.inj h)
    rfl
  · obtain ⟨rfl, rfl⟩ := Prod.mk.inj (Option.some.inj h)
    rfl
  · simp at h

theorem Canonical.option {c : Codec α} (hc : c.Canonical) : (option c).Canonical := by
  refine ⟨fun {bytes a rest} h => ?_⟩
  unfold Codec.option at h
  dsimp only at h
  split at h
  · obtain ⟨rfl, rfl⟩ := Prod.mk.inj (Option.some.inj h)
    rfl
  · obtain ⟨⟨x, rest'⟩, hread, ha⟩ := Option.map_eq_some_iff.mp h
    obtain ⟨rfl, rfl⟩ := Prod.mk.inj ha
    rw [hc.eq_write hread]
    rfl
  · simp at h

/-- No kind is listed twice, so the position that is written is the one that was read. -/
theorem canonical_named [Named β] [DecidableEq β] (hnodup : (Named.all : List β).Nodup) :
    (named : Codec β).Canonical := by
  refine ⟨fun {bytes b rest} h => ?_⟩
  obtain ⟨⟨i, rest'⟩, hread, h⟩ := Option.bind_eq_some_iff.mp h
  obtain ⟨b', hget, hb⟩ := Option.bind_eq_some_iff.mp h
  obtain ⟨rfl, rfl⟩ := Prod.mk.inj (Option.some.inj hb)
  obtain ⟨-, rfl⟩ := readWord_eq_some hread
  obtain ⟨hi, rfl⟩ := List.getElem?_eq_some_iff.mp hget
  have hindex : (Named.all : List β).findIdx (· == (Named.all : List β)[i]) = i :=
    hnodup.idxOf_getElem i hi
  simp only [named, hindex]

/-! ## Texts and sequences -/

theorem takeBytes_eq_some {n : Nat} {bytes body rest : List UInt8}
    (h : takeBytes n bytes = some (body, rest)) : body.length = n ∧ bytes = body ++ rest := by
  rw [takeBytes] at h
  split at h
  next hn =>
    obtain ⟨rfl, rfl⟩ := Prod.mk.inj (Option.some.inj h)
    exact ⟨List.length_take_of_le hn, (List.take_append_drop n bytes).symm⟩
  next => simp at h

theorem encode_of_decode? {bytes : List UInt8} {s : String} (h : Text.decode? bytes = some s) :
    Text.encode s = bytes := by
  rw [Text.decode?, String.fromUTF8?] at h
  split at h
  next hvalid =>
    rw [← Option.some.inj h]
    rfl
  next => simp at h

theorem canonical_text : Canonical text := by
  refine ⟨fun {bytes s rest} h => ?_⟩
  rw [text] at h
  obtain ⟨⟨n, tail⟩, hlength, h⟩ := Option.bind_eq_some_iff.mp h
  obtain ⟨⟨body, rest'⟩, hbody, h⟩ := Option.bind_eq_some_iff.mp h
  obtain ⟨s', hdecode, hs⟩ := Option.bind_eq_some_iff.mp h
  obtain ⟨rfl, rfl⟩ := Prod.mk.inj (Option.some.inj hs)
  obtain ⟨-, rfl⟩ := readWord_eq_some hlength
  obtain ⟨rfl, rfl⟩ := takeBytes_eq_some hbody
  simp only [text, encode_of_decode? hdecode, List.append_assoc]

theorem Canonical.readMany {c : Codec α} (hc : c.Canonical) {n : Nat} {bytes rest : List UInt8}
    {as : List α} (h : readMany c n bytes = some (as, rest)) :
    as.length = n ∧ bytes = as.flatMap c.write ++ rest := by
  induction n generalizing bytes as with
  | zero =>
    obtain ⟨rfl, rfl⟩ := Prod.mk.inj (Option.some.inj h)
    exact ⟨rfl, rfl⟩
  | succ n ih =>
    obtain ⟨⟨a, tail⟩, hfirst, h⟩ := Option.bind_eq_some_iff.mp h
    obtain ⟨⟨others, rest'⟩, hothers, has⟩ := Option.bind_eq_some_iff.mp h
    obtain ⟨rfl, rfl⟩ := Prod.mk.inj (Option.some.inj has)
    obtain ⟨hlength, htail⟩ := ih hothers
    refine ⟨by rw [List.length_cons, hlength], ?_⟩
    rw [hc.eq_write hfirst, htail, List.flatMap_cons, List.append_assoc]

theorem Canonical.list {c : Codec α} (hc : c.Canonical) : (list c).Canonical := by
  refine ⟨fun {bytes as rest} h => ?_⟩
  obtain ⟨⟨n, tail⟩, hlength, hmany⟩ := Option.bind_eq_some_iff.mp h
  obtain ⟨-, hbytes⟩ := readWord_eq_some hlength
  obtain ⟨hn, htail⟩ := hc.readMany hmany
  simp only [Codec.list, hn]
  rw [hbytes, htail, List.append_assoc]

/-! ## Records -/

theorem Canonical.pair {a : Codec α} {b : Codec β} (ha : a.Canonical) (hb : b.Canonical) :
    (pair a b).Canonical := by
  refine ⟨fun {bytes p rest} h => ?_⟩
  obtain ⟨⟨x, tail⟩, hfirst, h⟩ := Option.bind_eq_some_iff.mp h
  obtain ⟨⟨y, rest'⟩, hsecond, hp⟩ := Option.bind_eq_some_iff.mp h
  obtain ⟨rfl, rfl⟩ := Prod.mk.inj (Option.some.inj hp)
  rw [ha.eq_write hfirst, hb.eq_write hsecond]
  simp only [Codec.pair, List.append_assoc]

theorem Canonical.via {c : Codec α} (hc : c.Canonical) {parts : β → α} {make : α → Option β}
    (hparts : ∀ {a b}, make a = some b → parts b = a) : (via c parts make).Canonical := by
  refine ⟨fun {bytes b rest} h => ?_⟩
  obtain ⟨⟨a, rest'⟩, hread, h⟩ := Option.bind_eq_some_iff.mp h
  obtain ⟨b', hmake, hb⟩ := Option.bind_eq_some_iff.mp h
  obtain ⟨rfl, rfl⟩ := Prod.mk.inj (Option.some.inj hb)
  rw [hc.eq_write hread, ← hparts hmake]
  rfl

theorem canonical_span : Canonical span := by
  refine (canonical_u32.pair canonical_u32).via ?_
  rintro ⟨start, stop⟩ s hmake
  rw [Span.mk?] at hmake
  split at hmake
  · rw [← Option.some.inj hmake]
    simp
  · simp at hmake

/-- A record is made of its parts without a check. -/
theorem Canonical.ofParts {c : Codec α} (hc : c.Canonical) {parts : β → α} {make : α → β}
    (hparts : ∀ a, parts (make a) = a) : (Codec.via c parts fun a => some (make a)).Canonical := by
  apply hc.via
  intro a b hmake
  rw [← Option.some.inj hmake, hparts]

theorem canonical_path : Canonical path := canonical_text.ofParts fun _ => rfl

theorem canonical_fingerprint : Canonical fingerprint := canonical_text.ofParts fun _ => rfl

theorem canonical_symbol : Canonical symbol :=
  (canonical_text.pair <| canonical_text.pair <| (canonical_named (by decide)).pair <|
    (canonical_named (by decide)).option.pair <| canonical_path.pair <| canonical_span.pair <|
    canonical_span.pair <| canonical_text.pair <| canonical_text.option.pair canonical_u32).ofParts
    fun _ => rfl

theorem canonical_reference : Canonical reference :=
  (canonical_text.pair canonical_span).ofParts fun _ => rfl

theorem canonical_callReference : Canonical callReference :=
  (canonical_text.pair <| canonical_span.pair canonical_text.option).ofParts fun _ => rfl

theorem canonical_supertypeEdge : Canonical supertypeEdge :=
  (canonical_text.pair <| canonical_text.pair canonical_bool).ofParts fun _ => rfl

theorem canonical_scope : Canonical scope :=
  ((canonical_named (by decide)).pair canonical_span).ofParts fun _ => rfl

theorem canonical_diagnostic : Canonical diagnostic :=
  ((canonical_named (by decide)).pair <| (canonical_named (by decide)).pair <|
    canonical_span.pair canonical_text).ofParts fun _ => rfl

theorem canonical_fileSymbols : Canonical fileSymbols :=
  (canonical_text.option.pair <| canonical_symbol.list.pair <| canonical_reference.list.pair <|
    canonical_callReference.list.pair <| canonical_text.list.pair <|
    canonical_supertypeEdge.list.pair <| canonical_scope.list.pair <|
    canonical_diagnostic.list.pair canonical_bool).ofParts fun _ => rfl

theorem Canonical.record {c : Codec α} (hc : c.Canonical) : (StoredRecord.codec c).Canonical :=
  (canonical_u32.pair <| canonical_u64.pair <| canonical_text.pair <|
    canonical_fingerprint.pair hc).ofParts fun _ => rfl

theorem Canonical.write_of_decode {c : Codec α} (hc : c.Canonical) {bytes : List UInt8} {a : α}
    (h : c.decode bytes = some a) : c.write a = bytes := by
  rw [decode] at h
  split at h
  next hread =>
    obtain rfl := Option.some.inj h
    rw [hc.eq_write hread, List.append_nil]
  next => simp at h

end Codec

namespace StoredRecord

open Codec

/-- The records of symbols that fit a record file correspond to the byte strings that are read as
one: reading what was written gives the record and leaves nothing, and whatever byte string is read
as a record, or as symbols alone, is what the writer gives for it. -/
theorem codec_inverse_on_image :
    (∀ r : StoredRecord FileSymbols, ((codec fileSymbols).write r).length ≤ recordLimit →
      (codec fileSymbols).read ((codec fileSymbols).write r) = some (r, []) ∧
        (codec fileSymbols).decode ((codec fileSymbols).write r) = some r) ∧
    (∀ (bytes : List UInt8) (r : StoredRecord FileSymbols),
      (codec fileSymbols).decode bytes = some r → (codec fileSymbols).write r = bytes) ∧
    ∀ (bytes : List UInt8) (symbols : FileSymbols),
      fileSymbols.decode bytes = some symbols → fileSymbols.write symbols = bytes := by
  refine ⟨fun r hfits => ?_, fun bytes r h => ?_, fun bytes symbols h => ?_⟩
  · have hlt : ((codec fileSymbols).write r).length < 256 ^ 8 :=
      Nat.lt_of_le_of_lt hfits (by decide)
    exact ⟨faithful_fileSymbols.record.readsBack.read_write hlt,
      faithful_fileSymbols.record.decode_write hlt⟩
  · exact canonical_fileSymbols.record.write_of_decode h
  · exact canonical_fileSymbols.write_of_decode h

/-- The record of a file with one type, whose supertype could not be bound. -/
def ofOneType : StoredRecord FileSymbols where
  schema := 3
  savedAt := 0
  key := "/p/A.java"
  fingerprint := ⟨"00ff"⟩
  payload :=
    { package := some "p"
      symbols := [{
        fqn := "p.A"
        name := "A"
        kind := .type
        typeKind := some .classType
        path := ⟨"/p/A.java"⟩
        span := .clamp 11 21
        nameSpan := .clamp 17 18
        signature := "class A"
        container := none
        ordinal := 0 }]
      supertypes := [⟨"p.A", "B", false⟩]
      unresolved := ["B"]
      attributed := true }

theorem length_write_ofOneType : ((codec fileSymbols).write ofOneType).length ≤ recordLimit := by
  decide +kernel

theorem codec_inverse_ofOneType :
    ((codec fileSymbols).write ofOneType).length ≤ recordLimit ∧
      (codec fileSymbols).decode ((codec fileSymbols).write ofOneType) = some ofOneType ∧
      ∃ r, (codec fileSymbols).decode ((codec fileSymbols).write ofOneType) = some r ∧
        (codec fileSymbols).write r = (codec fileSymbols).write ofOneType := by
  have hdecode := (codec_inverse_on_image.1 ofOneType length_write_ofOneType).2
  exact ⟨length_write_ofOneType, hdecode, ofOneType, hdecode, codec_inverse_on_image.2.1 _ _ hdecode⟩

end StoredRecord

end JavaAtlas
