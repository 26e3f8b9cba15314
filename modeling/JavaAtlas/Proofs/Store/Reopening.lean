import JavaAtlas.Proofs.Store.Marker
import Mathlib.Data.List.Induction
import Mathlib.Data.Nat.Digits.Defs

/-!
# Which directories are used again

A marker writes a version by its decimal digits. Main statement: a directory is used again, with all
its records, under the version its marker writes, and under the largest version also when its marker
writes none. Otherwise it is emptied, and from then on used again under the version it was opened
for.
-/

namespace JavaAtlas

set_option autoImplicit false

/-! ## Versions as texts -/

/-- Decimal digits of a number. -/
def WritesNumber (digits : List Char) (n : Nat) : Prop :=
  digits ≠ [] ∧ (∀ c ∈ digits, c.isDigit = true) ∧
    Nat.ofDigits 10 (digits.reverse.map fun c => c.toNat - 48) = n

/-- Decimal digits of a version, with or without a plus in front, and blanks around them. -/
def WritesVersion (text : String) (v : UInt32) : Prop :=
  ∃ before sign digits after, text.toList = before ++ (sign ++ digits) ++ after ∧
    Text.Blank before ∧ Text.Blank after ∧ (sign = [] ∨ sign = ['+']) ∧ WritesNumber digits v.toNat

theorem ofDigits_reverse (digits : List Char) :
    Nat.ofDigits 10 (digits.reverse.map fun c => c.toNat - 48) =
      digits.foldl (fun n c => 10 * n + (c.toNat - 48)) 0 := by
  induction digits using List.reverseRecOn with
  | nil => rfl
  | append_singleton digits c ih =>
    rw [List.reverse_append, List.reverse_singleton, List.singleton_append, List.map_cons,
      Nat.ofDigits_cons, ih, List.foldl_append, List.foldl_cons, List.foldl_nil]
    omega

/-- What the characters after a sign are read as. -/
def versionOf? (digits : List Char) : Option UInt32 :=
  if digits.isEmpty || !digits.all Char.isDigit then none
  else
    let n := digits.foldl (fun n c => 10 * n + (c.toNat - 48)) 0
    if n < 4294967296 then some (UInt32.ofNat n) else none

theorem versionOf?_eq_some_iff {digits : List Char} {v : UInt32} :
    versionOf? digits = some v ↔ WritesNumber digits v.toNat := by
  unfold versionOf? WritesNumber
  rw [ofDigits_reverse]
  dsimp only
  constructor
  · intro h
    split at h
    · cases h
    · rename_i hguard
      simp only [Bool.or_eq_true, List.isEmpty_iff, Bool.not_eq_true', not_or,
        Bool.not_eq_false, List.all_eq_true] at hguard
      split at h
      · rename_i hlt
        refine ⟨hguard.1, hguard.2, ?_⟩
        rw [← Option.some.inj h, UInt32.toNat_ofNat_of_lt' hlt]
      · cases h
  · rintro ⟨hne, hall, hvalue⟩
    have hlt := v.toNat_lt
    rw [if_neg, hvalue, if_pos hlt, UInt32.ofNat_toNat]
    simpa [hne] using hall

theorem readSchema?_eq_some_iff {text : String} {v : UInt32} :
    readSchema? text = some v ↔ ∃ sign digits, text.toList = sign ++ digits ∧
      (sign = [] ∨ sign = ['+']) ∧ WritesNumber digits v.toNat := by
  unfold readSchema?
  split
  · rename_i rest htext
    change versionOf? rest = some v ↔ _
    rw [versionOf?_eq_some_iff]
    constructor
    · intro h
      exact ⟨['+'], rest, htext, Or.inr rfl, h⟩
    · rintro ⟨sign, digits, hsplit, rfl | rfl, h⟩
      · -- a plus is no digit
        have hplus : '+' ∈ digits := by rw [← List.nil_append digits, ← hsplit, htext]; simp
        exact absurd (h.2.1 _ hplus) (by decide)
      · rw [htext] at hsplit
        rw [(List.cons.inj hsplit).2]
        exact h
  · rename_i hplus
    change versionOf? text.toList = some v ↔ _
    rw [versionOf?_eq_some_iff]
    constructor
    · intro h
      exact ⟨[], text.toList, rfl, Or.inl rfl, h⟩
    · rintro ⟨sign, digits, hsplit, rfl | rfl, h⟩
      · rw [hsplit]
        exact h
      · exact absurd hsplit (hplus digits)

theorem isBlank_of_signed {sign digits : List Char} {n : Nat} (hsign : sign = [] ∨ sign = ['+'])
    (h : WritesNumber digits n) : ∀ c ∈ sign ++ digits, Text.isBlank c = false := by
  intro c hc
  rcases List.mem_append.mp hc with hc | hc
  · rcases hsign with rfl | rfl
    · cases hc
    · rw [List.mem_singleton.mp hc]
      rfl
  · exact isBlank_of_isDigit (h.2.1 c hc)

/-- Trimming finds the version a text writes. -/
theorem readSchema?_trim_iff {text : String} {v : UInt32} :
    readSchema? (String.ofList (Text.trim text.toList)) = some v ↔ WritesVersion text v := by
  rw [readSchema?_eq_some_iff, String.toList_ofList]
  constructor
  · rintro ⟨sign, digits, htrim, hsign, h⟩
    obtain ⟨before, after, hbefore, hafter, htext⟩ := Text.exists_trim text.toList
    exact ⟨before, sign, digits, after, htrim ▸ htext, hbefore, hafter, hsign, h⟩
  · rintro ⟨before, sign, digits, after, htext, hbefore, hafter, hsign, h⟩
    refine ⟨sign, digits, ?_, hsign, h⟩
    rw [htext, Text.trim_append hbefore (isBlank_of_signed hsign h) hafter]

theorem writesVersion_toString (v : UInt32) : WritesVersion (toString v.toNat) v := by
  obtain ⟨sign, digits, htext, hsign, h⟩ := readSchema?_eq_some_iff.mp (readSchema?_toString v)
  refine ⟨[], sign, digits, [], ?_, List.forall_mem_nil _, List.forall_mem_nil _, hsign, h⟩
  rw [htext, List.nil_append, List.append_nil]

/-- A marker stands for the version it writes, and for the largest one if it writes none. -/
theorem markerVersion_eq_iff {text : String} {v : UInt32} :
    markerVersion text = v ↔
      WritesVersion text v ∨ ((∀ w, ¬ WritesVersion text w) ∧ v = 4294967295) := by
  simp only [← readSchema?_trim_iff, markerVersion]
  cases readSchema? (String.ofList (Text.trim text.toList)) with
  | none => simp [eq_comm]
  | some w => simp

/-! ## Opening a directory -/

namespace StoreDirectory

variable {d d' : StoreDirectory} {schema : UInt32} {status : StoreStatus}

/-- Everything opening a directory can do. -/
theorem openFor_cases (h : d.openFor schema = some (d', status)) :
    d.blocked = false ∧
      ((d.markerText?.map markerVersion = some schema ∧ status = .reused ∧
          d' = { d with records := some (d.records.getD ∅) }) ∨
        (d.markerText?.map markerVersion ≠ some schema ∧
          status = (if d.isPresent then .rebuilt (d.markerText?.map markerVersion) else .fresh) ∧
          d' = { d with marker := some (Text.encode (toString schema.toNat)), records := some ∅ })) := by
  rw [openFor] at h
  split at h
  · cases h
  · rename_i hguard
    have hfree : d.blocked = false := by
      cases hblocked : d.blocked with
      | false => rfl
      | true => exact absurd (by rw [hblocked]; rfl) hguard
    refine ⟨hfree, ?_⟩
    dsimp only at h
    by_cases hfound : d.markerText?.map markerVersion = some schema
    · rw [if_pos hfound] at h
      obtain ⟨rfl, rfl⟩ := Prod.mk.inj (Option.some.inj h)
      exact Or.inl ⟨hfound, rfl, rfl⟩
    · rw [if_neg hfound] at h
      obtain ⟨rfl, rfl⟩ := Prod.mk.inj (Option.some.inj h)
      exact Or.inr ⟨hfound, rfl, rfl⟩

/-- A directory whose marker stands for a version is used again under it. -/
theorem openFor_of_found (hfree : d.blocked = false)
    (hfound : d.markerText?.map markerVersion = some schema) :
    d.openFor schema = some ({ d with records := some (d.records.getD ∅) }, .reused) := by
  have htext : d.markerText?.isNone = false := by
    cases htext : d.markerText? with
    | none => simp [htext] at hfound
    | some text => rfl
  rw [openFor, hfree, htext]
  simp [hfound]

theorem found_iff : d.markerText?.map markerVersion = some schema ↔
    ∃ text, d.markerText? = some text ∧ (WritesVersion text schema ∨
      ((∀ v, ¬ WritesVersion text v) ∧ schema = 4294967295)) := by
  simp only [Option.map_eq_some_iff, markerVersion_eq_iff]

/-- What a directory is like that was opened for a version. -/
theorem found_of_openFor (h : d.openFor schema = some (d', status)) :
    d'.blocked = false ∧ d'.records.isSome ∧ d'.markerText?.map markerVersion = some schema := by
  obtain ⟨hfree, ⟨hfound, -, rfl⟩ | ⟨-, -, rfl⟩⟩ := openFor_cases h
  · exact ⟨hfree, rfl, hfound⟩
  · refine ⟨hfree, rfl, ?_⟩
    rw [markerText?, Option.bind_some, Codec.decode?_encode, Option.map_some,
      markerVersion_toString]

/-- A directory is used again, with its marker and all its records, exactly if its marker writes the
version it is opened for, or writes none and this is the largest version. Otherwise it holds no
record and the marker of that version. Either way it is as it should be for the next time. -/
theorem reused_iff_marker_writes (h : d.openFor schema = some (d', status)) :
    (status = .reused ↔ ∃ text, d.markerText? = some text ∧ (WritesVersion text schema ∨
      ((∀ v, ¬ WritesVersion text v) ∧ schema = 4294967295))) ∧
    (status = .reused → d'.marker = d.marker ∧ ∀ name, d'.node? name = d.node? name) ∧
    (status ≠ .reused →
      (∀ name, d'.node? name = none) ∧ (status = .fresh ↔ d.marker = none ∧ d.records = none) ∧
        d'.markerText? = some (toString schema.toNat) ∧
        WritesVersion (toString schema.toNat) schema) ∧
    d'.openFor schema = some (d', .reused) := by
  have hagain : d'.openFor schema = some (d', .reused) := by
    obtain ⟨hfree, hrecords, hfound⟩ := found_of_openFor h
    obtain ⟨records, hrecords⟩ := Option.isSome_iff_exists.mp hrecords
    rw [openFor_of_found hfree hfound, hrecords, Option.getD_some, ← hrecords]
  rw [← found_iff]
  obtain ⟨-, ⟨hfound, rfl, rfl⟩ | ⟨hfound, hstatus, rfl⟩⟩ := openFor_cases h
  · refine ⟨iff_of_true rfl hfound, fun _ => ⟨rfl, ?_⟩, fun hne => absurd rfl hne, hagain⟩
    intro name
    rw [node?, node?]
    cases d.records <;> rfl
  · have hne : status ≠ .reused := by
      rw [hstatus]
      split <;> simp
    refine ⟨iff_of_false hne hfound, fun heq => absurd heq hne, fun _ => ⟨fun _ => rfl, ?_, ?_⟩, hagain⟩
    · rw [hstatus, isPresent]
      cases d.marker <;> cases d.records <;> simp
    · refine ⟨?_, writesVersion_toString schema⟩
      rw [markerText?, Option.bind_some, Codec.decode?_encode]

/-- Under a marker that writes no version, the records are dropped for version 3 and kept for the
largest version. -/
theorem reused_iff_marker_writes_none :
    ∃ d emptied kept : StoreDirectory, d.markerText? = some "junk" ∧
      (∀ v, ¬ WritesVersion "junk" v) ∧ d.node? "a.rec" = some (.file [0]) ∧
      d.openFor 3 = some (emptied, .rebuilt (some 4294967295)) ∧ emptied.node? "a.rec" = none ∧
      emptied.openFor 3 = some (emptied, .reused) ∧
      d.openFor 4294967295 = some (kept, .reused) ∧ kept.node? "a.rec" = some (.file [0]) := by
  let d : StoreDirectory :=
    { marker := some (Text.encode "junk"), records := some (SortedMap.ofList [("a.rec", .file [0])]) }
  have htext : d.markerText? = some "junk" := by
    rw [markerText?, Option.bind_some, Codec.decode?_encode]
  have hnone (v : UInt32) : ¬ WritesVersion "junk" v := by
    intro hv
    have hread := readSchema?_trim_iff.mpr hv
    rw [show readSchema? (String.ofList (Text.trim "junk".toList)) = none by decide] at hread
    cases hread
  have hversion : markerVersion "junk" = 4294967295 := markerVersion_eq_iff.mpr (Or.inr ⟨hnone, rfl⟩)
  have hkept : d.openFor 4294967295 = _ := openFor_of_found rfl (by rw [htext, Option.map_some, hversion])
  obtain ⟨emptied, hemptied⟩ : ∃ emptied, d.openFor 3 = some (emptied, .rebuilt (some 4294967295)) := by
    simp [openFor, htext, hversion, isPresent, d]
  obtain ⟨-, -, hdropped, hagain⟩ := reused_iff_marker_writes hemptied
  obtain ⟨-, hkeeps, -, -⟩ := reused_iff_marker_writes hkept
  have hrecord : d.node? "a.rec" = some (.file [0]) := rfl
  exact ⟨d, emptied, _, htext, hnone, hrecord, hemptied, (hdropped (by simp)).1 _, hagain, hkept,
    ((hkeeps rfl).2 _).trans hrecord⟩

end StoreDirectory

end JavaAtlas
