import JavaAtlas.Proofs.Store.Lookup

/-!
# What comes on record

A record file is named and marked by the key of its path, so paths with one key share a record. Only
storing brings a record that was not there, and it brings it for these paths alone.
-/

namespace JavaAtlas

set_option autoImplicit false

namespace StoreDirectory

variable {α β : Type} {payload : Codec α} {schema : UInt32} {d d' : StoreDirectory} {p q : Path}
  {r : StoredRecord α}

/-! ## One key -/

theorem load_congr (h : pathKey p = pathKey q) (d : StoreDirectory) (schema : UInt32)
    (payload : Codec α) : d.load schema payload p = d.load schema payload q := by
  rw [load, recordName_congr h, h, load]

theorem loadMatching_congr (h : pathKey p = pathKey q) (d : StoreDirectory) (schema : UInt32)
    (payload : Codec α) (print : Fingerprint) :
    d.loadMatching schema payload p print = d.loadMatching schema payload q print := by
  rw [loadMatching, load_congr h, loadMatching]

/-! ## No new records -/

theorem Holds.of_dropNode {name : String} (h : (d.dropNode name).Holds schema payload p r) :
    d.Holds schema payload p r := by
  refine ⟨?_, h.schema, h.key⟩
  obtain ⟨bytes, hnode, hbytes⟩ := h.isRead
  rw [node?_dropNode] at hnode
  split at hnode
  · simp at hnode
  · exact ⟨bytes, hnode, hbytes⟩

theorem Holds.of_load {wanted : UInt32} {other : Codec β}
    (h : (d.load wanted other q).1.Holds schema payload p r) : d.Holds schema payload p r := by
  have hfound := found_load d wanted other q
  generalize d.load wanted other q = found at hfound h
  cases hfound with
  | hit => exact h
  | absent => exact h
  | refused => exact h.of_dropNode
  | corrupt => exact h.of_dropNode

theorem Holds.of_loadMatching {wanted : UInt32} {other : Codec β} {print : Fingerprint}
    (h : (d.loadMatching wanted other q print).1.Holds schema payload p r) :
    d.Holds schema payload p r := by
  rcases d.loadMatching_cases wanted other q print with ⟨_, -, -, hload⟩ | ⟨-, hload⟩
  · rwa [hload] at h
  · rw [hload] at h
    exact h.of_load

theorem Holds.of_remove (h : (d.remove q).1.Holds schema payload p r) :
    d.Holds schema payload p r := by
  rw [remove] at h
  split at h
  · exact h
  · split at h
    · exact h
    · exact h.of_dropNode

theorem Holds.of_openFor {wanted : UInt32} {opened : StoreDirectory × StoreStatus}
    (hopen : d.openFor wanted = some opened) (h : opened.1.Holds schema payload p r) :
    d.Holds schema payload p r := by
  refine ⟨?_, h.schema, h.key⟩
  obtain ⟨bytes, hnode, hbytes⟩ := h.isRead
  exact ⟨bytes, node?_of_openFor hopen hnode, hbytes⟩

/-! ## Storing -/

theorem Holds.of_store (hpayload : payload.ReadsBack) {time : UInt64} {print : Fingerprint} {value : α}
    (hstore : d.store schema payload time q print value = some d')
    (h : d'.Holds schema payload p r) :
    d.Holds schema payload p r ∨
      (pathKey p = pathKey q ∧ r.fingerprint = print ∧ r.payload = value) := by
  obtain ⟨bytes, hnode, hlimit, hread⟩ := h.isRead
  rw [store] at hstore
  split at hstore
  · simp at hstore
  · split at hstore
    · simp at hstore
    · rw [← Option.some.inj hstore, node?_setNode] at hnode
      split at hnode
      · obtain rfl := RecordNode.file.inj (Option.some.inj hnode)
        have hwritten := hpayload.record.read_write (Nat.lt_of_le_of_lt hlimit (by decide))
        rw [hread, Option.some.injEq, Prod.mk.injEq] at hwritten
        obtain ⟨rfl, -⟩ := hwritten
        exact Or.inr ⟨h.key.symm, rfl, rfl⟩
      · exact Or.inl ⟨⟨bytes, hnode, hlimit, hread⟩, h.schema, h.key⟩

end StoreDirectory

end JavaAtlas
