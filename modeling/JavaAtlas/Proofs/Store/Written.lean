import JavaAtlas.Proofs.Data.SortedMap
import JavaAtlas.Proofs.Record.RoundTrip
import JavaAtlas.Store.Directory

/-!
# Directories that only records were written to

When every record file was written as a record, a lookup that gives a payload gives one that was
written. Files are named and marked by their path, so nothing is said about which path it was
written for.
-/

namespace JavaAtlas

set_option autoImplicit false

namespace StoreDirectory

variable {α : Type} {payload : Codec α} {kind : α → Prop} {d : StoreDirectory}

/-- Every record file was written as a record whose payload is of a kind. -/
def Written (payload : Codec α) (kind : α → Prop) (d : StoreDirectory) : Prop :=
  ∀ name bytes, d.node? name = some (.file bytes) →
    ∃ r : StoredRecord α, kind r.payload ∧ bytes = (StoredRecord.codec payload).write r

theorem written_default : (default : StoreDirectory).Written payload kind :=
  fun _ _ h => nomatch h

theorem node?_setNode (d : StoreDirectory) (name other : String) (node : RecordNode) :
    (d.setNode name node).node? other =
      if compare other name = .eq then some node else d.node? other := by
  rw [node?, setNode, Option.bind_some, SortedMap.get?_insert, node?]
  cases d.records <;> rfl

theorem node?_dropNode (d : StoreDirectory) (name other : String) :
    (d.dropNode name).node? other = if compare other name = .eq then none else d.node? other := by
  rw [node?, dropNode, node?]
  cases hrecords : d.records with
  | none => simp
  | some records => exact SortedMap.get?_erase records name other

theorem Written.dropNode (h : d.Written payload kind) (name : String) :
    (d.dropNode name).Written payload kind := by
  intro other bytes hnode
  rw [node?_dropNode] at hnode
  split at hnode
  · simp at hnode
  · exact h other bytes hnode

/-- Opening a directory keeps its records or drops them all. -/
theorem records_openFor {schema : UInt32} {opened : StoreDirectory × StoreStatus}
    (hopen : d.openFor schema = some opened) :
    opened.1.records = some (d.records.getD ∅) ∨ opened.1.records = some ∅ := by
  rw [openFor] at hopen
  split at hopen
  · simp at hopen
  · by_cases hfound : d.markerText?.map markerVersion = some schema
    · simp only [hfound, if_true] at hopen
      rw [← Option.some.inj hopen]
      exact Or.inl rfl
    · simp only [hfound, if_false] at hopen
      rw [← Option.some.inj hopen]
      exact Or.inr rfl

/-- Opening a directory brings no record. -/
theorem node?_of_openFor {schema : UInt32} {opened : StoreDirectory × StoreStatus}
    (hopen : d.openFor schema = some opened) {name : String} {node : RecordNode}
    (hnode : opened.1.node? name = some node) : d.node? name = some node := by
  rcases records_openFor hopen with hrecords | hrecords
  · rw [node?, hrecords] at hnode
    rw [node?]
    cases hd : d.records with
    | none => simp [hd, EmptyCollection.emptyCollection] at hnode
    | some records => simpa [hd] using hnode
  · simp [node?, hrecords, EmptyCollection.emptyCollection] at hnode

theorem Written.openFor (h : d.Written payload kind) {schema : UInt32}
    {opened : StoreDirectory × StoreStatus} (hopen : d.openFor schema = some opened) :
    opened.1.Written payload kind :=
  fun name bytes hnode => h name bytes (node?_of_openFor hopen hnode)

theorem Written.store (h : d.Written payload kind) {schema : UInt32} {time : UInt64} {path : Path}
    {print : Fingerprint} {value : α} (hvalue : kind value) {d' : StoreDirectory}
    (hstore : d.store schema payload time path print value = some d') : d'.Written payload kind := by
  rw [StoreDirectory.store] at hstore
  split at hstore
  · simp at hstore
  · split at hstore
    · simp at hstore
    · rw [← Option.some.inj hstore]
      intro name bytes hnode
      rw [node?_setNode] at hnode
      split at hnode
      · obtain rfl := RecordNode.file.inj (Option.some.inj hnode)
        exact ⟨_, hvalue, rfl⟩
      · exact h name bytes hnode

theorem Written.remove (h : d.Written payload kind) (path : Path) :
    (d.remove path).1.Written payload kind := by
  rw [StoreDirectory.remove]
  split
  · exact h
  · split
    · exact h
    · exact h.dropNode _

/-- A lookup may drop a record and gives none that was not written. -/
theorem Written.load (h : d.Written payload kind) (hfaithful : payload.Faithful) (schema : UInt32)
    (path : Path) :
    (d.load schema payload path).1.Written payload kind ∧
      ∀ print value, (d.load schema payload path).2 = .hit print value → kind value := by
  rw [StoreDirectory.load]
  split
  · exact ⟨h, by simp⟩
  · exact ⟨h, by simp⟩
  · exact ⟨h.dropNode _, by simp⟩
  · rename_i bytes hnode
    obtain ⟨r, hr, rfl⟩ := h _ _ hnode
    split
    · exact ⟨h.dropNode _, by simp⟩
    · rename_i hlimit
      have hshort : ((StoredRecord.codec payload).write r).length < 256 ^ 8 :=
        Nat.lt_of_le_of_lt (Nat.le_of_not_lt hlimit) (by decide)
      rw [hfaithful.record.decode_write hshort]
      simp only
      split
      · refine ⟨h, fun print value hhit => ?_⟩
        obtain ⟨-, rfl⟩ := Lookup.hit.inj hhit
        exact hr
      · exact ⟨h.dropNode _, by simp⟩

theorem Written.loadMatching (h : d.Written payload kind) (hfaithful : payload.Faithful)
    (schema : UInt32) (path : Path) (print : Fingerprint) :
    (d.loadMatching schema payload path print).1.Written payload kind ∧
      ∀ found value, (d.loadMatching schema payload path print).2 = .hit found value → kind value := by
  have hload := h.load hfaithful schema path
  rw [StoreDirectory.loadMatching]
  split
  · rename_i d' found value heq
    rw [heq] at hload
    split
    · exact hload
    · exact ⟨hload.1, by simp⟩
  · exact hload

end StoreDirectory

end JavaAtlas
