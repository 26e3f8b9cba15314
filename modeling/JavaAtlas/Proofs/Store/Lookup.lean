import JavaAtlas.Proofs.Record.Canonical
import JavaAtlas.Proofs.Store.Written

/-!
# What a lookup finds

Nothing is assumed of the directory: a record file may hold any bytes, and a directory or a link may
stand in its place. `Holds` says which bytes count as the record of a path, and `Found` what a lookup
gives and leaves behind in each case.
-/

namespace JavaAtlas

set_option autoImplicit false

theorem recordName_congr {p q : Path} (h : pathKey p = pathKey q) : recordName p = recordName q := by
  rw [recordName, h, recordName]

namespace StoreDirectory

variable {α : Type} {payload : Codec α} {schema : UInt32} {path : Path} {d : StoreDirectory}

/-! ## Record files by name -/

theorem node?_setNode_self (d : StoreDirectory) (name : String) (node : RecordNode) :
    (d.setNode name node).node? name = some node := by
  rw [node?_setNode, if_pos Std.ReflCmp.compare_self]

theorem node?_setNode_of_ne (d : StoreDirectory) {name other : String} (hne : other ≠ name)
    (node : RecordNode) : (d.setNode name node).node? other = d.node? other := by
  rw [node?_setNode, if_neg fun h => hne (Std.LawfulEqCmp.eq_of_compare h)]

theorem node?_dropNode_self (d : StoreDirectory) (name : String) :
    (d.dropNode name).node? name = none := by
  rw [node?_dropNode, if_pos Std.ReflCmp.compare_self]

theorem node?_dropNode_of_ne (d : StoreDirectory) {name other : String} (hne : other ≠ name) :
    (d.dropNode name).node? other = d.node? other := by
  rw [node?_dropNode, if_neg fun h => hne (Std.LawfulEqCmp.eq_of_compare h)]

/-! ## One lookup -/

/-- The record file of a path is a plain file within the limit, and all of its bytes are a record of
this schema and this path. -/
structure Holds (d : StoreDirectory) (schema : UInt32) (payload : Codec α) (path : Path)
    (r : StoredRecord α) : Prop where
  isRead : ∃ bytes, d.node? (recordName path) = some (.file bytes) ∧ bytes.length ≤ recordLimit ∧
    (StoredRecord.codec payload).read bytes = some (r, [])
  schema : r.schema = schema
  key : r.key = pathKey path

theorem Holds.unique {r r' : StoredRecord α} (h : d.Holds schema payload path r)
    (h' : d.Holds schema payload path r') : r = r' := by
  obtain ⟨bytes, hnode, -, hread⟩ := h.isRead
  obtain ⟨bytes', hnode', -, hread'⟩ := h'.isRead
  rw [hnode] at hnode'
  obtain rfl := RecordNode.file.inj (Option.some.inj hnode')
  rw [hread] at hread'
  exact (Prod.mk.inj (Option.some.inj hread')).1

/-- What a lookup gives, and the directory after it. -/
inductive Found (d : StoreDirectory) (schema : UInt32) (payload : Codec α) (path : Path) :
    StoreDirectory × Lookup α → Prop
  | hit (r : StoredRecord α) (h : d.Holds schema payload path r) :
    Found d schema payload path (d, .hit r.fingerprint r.payload)
  /-- There is no file, or a directory that is left alone. -/
  | absent (h : ∀ bytes, d.node? (recordName path) ≠ some (.file bytes)) :
    Found d schema payload path (d, .miss .absent)
  /-- A link or a file that is too large is removed unread. -/
  | refused (hlarge : ∀ bytes, d.node? (recordName path) = some (.file bytes) →
      recordLimit < bytes.length) (h : ∀ r, ¬ d.Holds schema payload path r) :
    Found d schema payload path (d.dropNode (recordName path), .miss .absent)
  | corrupt (bytes : List UInt8) (hnode : d.node? (recordName path) = some (.file bytes))
    (hlimit : bytes.length ≤ recordLimit) (h : ∀ r, ¬ d.Holds schema payload path r) :
    Found d schema payload path (d.dropNode (recordName path), .miss .corrupt)

theorem decode_eq_some_iff_read {c : Codec α} {bytes : List UInt8} {a : α} :
    c.decode bytes = some a ↔ c.read bytes = some (a, []) := by
  rw [Codec.decode]
  constructor
  · intro h
    split at h
    next hread => rw [hread, Option.some.inj h]
    next => simp at h
  · intro h
    rw [h]

theorem found_load (d : StoreDirectory) (schema : UInt32) (payload : Codec α) (path : Path) :
    Found d schema payload path (d.load schema payload path) := by
  rw [load]
  split
  · rename_i hnode
    exact .absent fun bytes h => by simp [hnode] at h
  · rename_i hnode
    exact .absent fun bytes h => by simp [hnode] at h
  · rename_i hnode
    refine .refused (fun bytes h => by simp [hnode] at h) fun r h => ?_
    obtain ⟨bytes, hfile, -⟩ := h.isRead
    simp [hnode] at hfile
  · rename_i bytes hnode
    -- whatever record the file holds, it is read off these bytes
    have hbytes {r : StoredRecord α} (h : d.Holds schema payload path r) :
        bytes.length ≤ recordLimit ∧ (StoredRecord.codec payload).decode bytes = some r := by
      obtain ⟨bytes', hnode', hlimit, hread⟩ := h.isRead
      rw [hnode] at hnode'
      obtain rfl := RecordNode.file.inj (Option.some.inj hnode')
      exact ⟨hlimit, decode_eq_some_iff_read.mpr hread⟩
    split
    · rename_i hlimit
      refine .refused (fun bytes' h => ?_) fun r h => absurd (hbytes h).1 (Nat.not_le.mpr hlimit)
      rw [hnode] at h
      rwa [← RecordNode.file.inj (Option.some.inj h)]
    · rename_i hlimit
      have hfits := Nat.le_of_not_lt hlimit
      split
      · rename_i r hdecode
        split
        · rename_i hheader
          exact .hit r ⟨⟨bytes, hnode, hfits, decode_eq_some_iff_read.mp hdecode⟩, hheader.1,
            hheader.2⟩
        · rename_i hheader
          refine .corrupt bytes hnode hfits fun r' h => hheader ?_
          rw [(hbytes h).2] at hdecode
          obtain rfl := Option.some.inj hdecode
          exact ⟨h.schema, h.key⟩
      · rename_i hdecode
        refine .corrupt bytes hnode hfits fun r h => ?_
        simp [(hbytes h).2] at hdecode

theorem load_of_holds {r : StoredRecord α} (h : d.Holds schema payload path r) :
    d.load schema payload path = (d, .hit r.fingerprint r.payload) := by
  have hfound := found_load d schema payload path
  generalize d.load schema payload path = found at hfound
  cases hfound with
  | hit r' h' => rw [h.unique h']
  | absent hnone =>
    obtain ⟨bytes, hnode, -⟩ := h.isRead
    exact absurd hnode (hnone bytes)
  | refused _ hnone => exact absurd h (hnone r)
  | corrupt _ _ _ hnone => exact absurd h (hnone r)

theorem load_of_absent (h : ∀ bytes, d.node? (recordName path) ≠ some (.file bytes)) :
    (d.load schema payload path).2 = .miss .absent := by
  have hfound := found_load d schema payload path
  generalize d.load schema payload path = found at hfound
  cases hfound with
  | hit r hr =>
    obtain ⟨bytes, hnode, -⟩ := hr.isRead
    exact absurd hnode (h bytes)
  | absent => rfl
  | refused => rfl
  | corrupt bytes hnode => exact absurd hnode (h bytes)

theorem load_eq_hit_iff {print : Fingerprint} {value : α} :
    (d.load schema payload path).2 = .hit print value ↔
      ∃ r, d.Holds schema payload path r ∧ r.fingerprint = print ∧ r.payload = value := by
  constructor
  · intro hload
    have hfound := found_load d schema payload path
    generalize d.load schema payload path = found at hfound hload
    cases hfound with
    | hit r h => exact ⟨r, h, Lookup.hit.inj hload⟩
    | absent => simp at hload
    | refused => simp at hload
    | corrupt => simp at hload
  · rintro ⟨r, h, rfl, rfl⟩
    rw [load_of_holds h]

theorem load_eq_corrupt_iff :
    (d.load schema payload path).2 = .miss .corrupt ↔
      (∃ bytes, d.node? (recordName path) = some (.file bytes) ∧ bytes.length ≤ recordLimit) ∧
        ∀ r, ¬ d.Holds schema payload path r := by
  have hfound := found_load d schema payload path
  generalize d.load schema payload path = found at hfound
  cases hfound with
  | hit r h => exact ⟨by simp, fun hno => absurd h (hno.2 r)⟩
  | absent hnone =>
    refine ⟨by simp, ?_⟩
    rintro ⟨⟨bytes, hnode, -⟩, -⟩
    exact absurd hnode (hnone bytes)
  | refused hlarge =>
    refine ⟨by simp, ?_⟩
    rintro ⟨⟨bytes, hnode, hlimit⟩, -⟩
    exact absurd (hlarge bytes hnode) (Nat.not_lt.mpr hlimit)
  | corrupt bytes hnode hlimit hno => exact ⟨fun _ => ⟨⟨bytes, hnode, hlimit⟩, hno⟩, fun _ => rfl⟩

/-- A lookup for a content gives what a lookup gives, or that the record is for another one. -/
theorem loadMatching_cases (d : StoreDirectory) (schema : UInt32) (payload : Codec α) (path : Path)
    (wanted : Fingerprint) :
    (∃ r, d.Holds schema payload path r ∧ r.fingerprint ≠ wanted ∧
      d.loadMatching schema payload path wanted = (d, .miss .fingerprintMismatch)) ∨
    ((∀ r, d.Holds schema payload path r → r.fingerprint = wanted) ∧
      d.loadMatching schema payload path wanted = d.load schema payload path) := by
  have hfound := found_load d schema payload path
  rw [loadMatching]
  generalize d.load schema payload path = found at hfound ⊢
  have hnone (h : ∀ r, ¬ d.Holds schema payload path r) :
      ∀ r, d.Holds schema payload path r → r.fingerprint = wanted := fun r hr => absurd hr (h r)
  cases hfound with
  | hit r h =>
    by_cases hprint : r.fingerprint = wanted
    · exact Or.inr ⟨fun r' h' => by rwa [h'.unique h], if_pos hprint⟩
    · exact Or.inl ⟨r, h, hprint, if_neg hprint⟩
  | absent h =>
    refine Or.inr ⟨hnone fun r hr => ?_, rfl⟩
    obtain ⟨bytes, hnode, -⟩ := hr.isRead
    exact h bytes hnode
  | refused _ h => exact Or.inr ⟨hnone h, rfl⟩
  | corrupt bytes hnode hlimit h => exact Or.inr ⟨hnone h, rfl⟩

/-! ## What a lookup leaves behind -/

theorem node?_load_of_ne {name : String} (hne : name ≠ recordName path) :
    (d.load schema payload path).1.node? name = d.node? name := by
  have hfound := found_load d schema payload path
  generalize d.load schema payload path = found at hfound
  cases hfound with
  | hit => rfl
  | absent => rfl
  | refused => exact node?_dropNode_of_ne d hne
  | corrupt => exact node?_dropNode_of_ne d hne

theorem node?_loadMatching_of_ne {wanted : Fingerprint} {name : String}
    (hne : name ≠ recordName path) :
    (d.loadMatching schema payload path wanted).1.node? name = d.node? name := by
  rcases d.loadMatching_cases schema payload path wanted with ⟨r, -, -, hload⟩ | ⟨-, hload⟩
  · rw [hload]
  · rw [hload, node?_load_of_ne hne]

theorem node?_of_corrupt (h : (d.load schema payload path).2 = .miss .corrupt) :
    (d.load schema payload path).1.node? (recordName path) = none := by
  have hfound := found_load d schema payload path
  generalize d.load schema payload path = found at hfound h
  cases hfound with
  | hit => simp at h
  | absent => simp at h
  | refused => simp at h
  | corrupt => exact node?_dropNode_self d _

theorem load_of_node?_eq_none (h : d.node? (recordName path) = none) :
    (d.load schema payload path).2 = .miss .absent :=
  load_of_absent fun bytes hnode => by simp [h] at hnode

theorem loadMatching_of_corrupt {wanted : Fingerprint}
    (h : (d.loadMatching schema payload path wanted).2 = .miss .corrupt) :
    d.loadMatching schema payload path wanted = d.load schema payload path := by
  rcases d.loadMatching_cases schema payload path wanted with ⟨r, -, -, hload⟩ | ⟨-, hload⟩
  · simp [hload] at h
  · exact hload

theorem loadMatching_eq_hit_iff {wanted print : Fingerprint} {value : α} :
    (d.loadMatching schema payload path wanted).2 = .hit print value ↔
      print = wanted ∧ (d.load schema payload path).2 = .hit print value := by
  rw [load_eq_hit_iff]
  rcases d.loadMatching_cases schema payload path wanted with
    ⟨r, hr, hprint, hload⟩ | ⟨hwanted, hload⟩
  · rw [hload]
    constructor
    · simp
    · rintro ⟨rfl, r', hr', rfl, -⟩
      exact absurd (congrArg _ (hr.unique hr')) hprint
  · rw [hload, load_eq_hit_iff]
    constructor
    · rintro ⟨r, hr, rfl, rfl⟩
      exact ⟨hwanted r hr, r, hr, rfl, rfl⟩
    · exact fun h => h.2

theorem loadMatching_eq_mismatch_iff {wanted : Fingerprint} :
    (d.loadMatching schema payload path wanted).2 = .miss .fingerprintMismatch ↔
      ∃ r, d.Holds schema payload path r ∧ r.fingerprint ≠ wanted := by
  rcases d.loadMatching_cases schema payload path wanted with
    ⟨r, hr, hprint, hload⟩ | ⟨hwanted, hload⟩
  · rw [hload]
    exact ⟨fun _ => ⟨r, hr, hprint⟩, fun _ => rfl⟩
  · rw [hload]
    constructor
    · intro hmiss
      have hfound := found_load d schema payload path
      generalize d.load schema payload path = found at hfound hmiss
      cases hfound <;> simp at hmiss
    · rintro ⟨r, hr, hprint⟩
      exact absurd (hwanted r hr) hprint

/-- Whatever the directory holds, a lookup for a path gives a payload only when the record file of
the path is a plain file within the limit whose bytes, all of them, are a record of the schema and of
the path, and then it is that record that is given; a lookup for a content wants the fingerprint of
the record besides. A file found corrupt is gone afterwards, one for another content stays, and
nothing is done to any other file. -/
theorem lookup_sound (d : StoreDirectory) (schema : UInt32) (payload : Codec α) (path : Path)
    (wanted : Fingerprint) :
    (∀ print value, (d.load schema payload path).2 = .hit print value ↔
      ∃ r, d.Holds schema payload path r ∧ r.fingerprint = print ∧ r.payload = value) ∧
    (∀ print value, (d.loadMatching schema payload path wanted).2 = .hit print value ↔
      print = wanted ∧ (d.load schema payload path).2 = .hit print value) ∧
    ((d.load schema payload path).2 = .miss .corrupt →
      (d.load schema payload path).1.node? (recordName path) = none ∧
      ((d.load schema payload path).1.load schema payload path).2 = .miss .absent) ∧
    ((d.loadMatching schema payload path wanted).2 = .miss .corrupt →
      (d.loadMatching schema payload path wanted).1.node? (recordName path) = none ∧
      ((d.loadMatching schema payload path wanted).1.load schema payload path).2 = .miss .absent) ∧
    ((d.loadMatching schema payload path wanted).2 = .miss .fingerprintMismatch →
      (d.loadMatching schema payload path wanted).1 = d) ∧
    (∀ name, name ≠ recordName path →
      (d.load schema payload path).1.node? name = d.node? name ∧
      (d.loadMatching schema payload path wanted).1.node? name = d.node? name) := by
  have hcorrupt (h : (d.load schema payload path).2 = .miss .corrupt) :
      (d.load schema payload path).1.node? (recordName path) = none ∧
        ((d.load schema payload path).1.load schema payload path).2 = .miss .absent :=
    ⟨node?_of_corrupt h, load_of_node?_eq_none (node?_of_corrupt h)⟩
  refine ⟨fun _ _ => load_eq_hit_iff, fun _ _ => loadMatching_eq_hit_iff, hcorrupt, ?_, ?_,
    fun name hne => ⟨node?_load_of_ne hne, node?_loadMatching_of_ne hne⟩⟩
  · intro h
    have hload := loadMatching_of_corrupt h
    rw [hload] at h ⊢
    exact hcorrupt h
  · intro h
    obtain ⟨r, hr, hprint⟩ := loadMatching_eq_mismatch_iff.mp h
    rcases d.loadMatching_cases schema payload path wanted with ⟨_, -, -, hload⟩ | ⟨hwanted, -⟩
    · rw [hload]
    · exact absurd (hwanted r hr) hprint

/-- The record of `/p/A.java`, and a copy of it in the place of the record of `/p/B.java`. -/
def copied : StoreDirectory :=
  let file := .file ((StoredRecord.codec Codec.fileSymbols).write .ofOneType)
  (setNode {} (recordName ⟨"/p/B.java"⟩) file).setNode (recordName ⟨"/p/A.java"⟩) file

theorem node?_copied :
    copied.node? (recordName ⟨"/p/A.java"⟩) =
        some (.file ((StoredRecord.codec Codec.fileSymbols).write .ofOneType)) ∧
      copied.node? (recordName ⟨"/p/B.java"⟩) =
        some (.file ((StoredRecord.codec Codec.fileSymbols).write .ofOneType)) := by
  have hne : recordName ⟨"/p/B.java"⟩ ≠ recordName ⟨"/p/A.java"⟩ := by decide +kernel
  refine ⟨node?_setNode_self _ _ _, ?_⟩
  rw [copied, node?_setNode_of_ne _ hne, node?_setNode_self]

theorem read_write_ofOneType :
    (StoredRecord.codec Codec.fileSymbols).read
      ((StoredRecord.codec Codec.fileSymbols).write .ofOneType) = some (.ofOneType, []) :=
  Codec.faithful_fileSymbols.record.readsBack.read_write
    (Nat.lt_of_le_of_lt StoredRecord.length_write_ofOneType (by decide))

theorem holds_copied : copied.Holds 3 Codec.fileSymbols ⟨"/p/A.java"⟩ .ofOneType where
  isRead := ⟨_, node?_copied.1, StoredRecord.length_write_ofOneType, read_write_ofOneType⟩
  schema := rfl
  key := by decide +kernel

/-- The copy is a record, but not of the path where it stands. -/
theorem not_holds_copied (r : StoredRecord FileSymbols) :
    ¬ copied.Holds 3 Codec.fileSymbols ⟨"/p/B.java"⟩ r := by
  intro h
  obtain ⟨bytes, hnode, -, hread⟩ := h.isRead
  rw [node?_copied.2] at hnode
  obtain rfl := RecordNode.file.inj (Option.some.inj hnode)
  rw [read_write_ofOneType] at hread
  obtain rfl := (Prod.mk.inj (Option.some.inj hread)).1
  exact absurd h.key (by decide +kernel)

theorem lookup_sound_copied :
    (copied.load 3 Codec.fileSymbols ⟨"/p/A.java"⟩).2 =
        .hit ⟨"00ff"⟩ StoredRecord.ofOneType.payload ∧
      (copied.load 3 Codec.fileSymbols ⟨"/p/B.java"⟩).2 = .miss .corrupt ∧
      ((copied.load 3 Codec.fileSymbols ⟨"/p/B.java"⟩).1.load 3 Codec.fileSymbols
        ⟨"/p/B.java"⟩).2 = .miss .absent ∧
      (copied.loadMatching 3 Codec.fileSymbols ⟨"/p/A.java"⟩ ⟨"11ee"⟩).1 = copied := by
  have hcorrupt : (copied.load 3 Codec.fileSymbols ⟨"/p/B.java"⟩).2 = .miss .corrupt :=
    load_eq_corrupt_iff.mpr ⟨⟨_, node?_copied.2, StoredRecord.length_write_ofOneType⟩, not_holds_copied⟩
  have hmismatch : (copied.loadMatching 3 Codec.fileSymbols ⟨"/p/A.java"⟩ ⟨"11ee"⟩).2 =
      .miss .fingerprintMismatch :=
    loadMatching_eq_mismatch_iff.mpr ⟨_, holds_copied, by decide⟩
  obtain ⟨hhit, -, -, -, hstays, -⟩ :=
    lookup_sound copied 3 Codec.fileSymbols ⟨"/p/A.java"⟩ ⟨"11ee"⟩
  obtain ⟨-, -, hgone, -⟩ := lookup_sound copied 3 Codec.fileSymbols ⟨"/p/B.java"⟩ ⟨"11ee"⟩
  exact ⟨(hhit _ _).mpr ⟨_, holds_copied, rfl, rfl⟩, hcorrupt, (hgone hcorrupt).2,
    hstays hmismatch⟩

end StoreDirectory

end JavaAtlas
