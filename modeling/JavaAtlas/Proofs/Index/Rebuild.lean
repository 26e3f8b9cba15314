import JavaAtlas.Proofs.Index.Exact

/-!
# The index after any changes

Whatever was published, replaced and dropped before, a snapshot is the one that its surviving files
give when they are put one by one, in any order, into an empty index. Only the generation remembers
the history. Changes of different files can therefore be made in either order.
-/

namespace JavaAtlas

set_option autoImplicit false

open Std (TransCmp OrientedCmp ReflCmp)

inductive IndexChange
  | upsert (path : Path) (fingerprint : Fingerprint) (symbols : FileSymbols)
  | remove (path : Path)
  | clear

namespace Snapshot

def apply (s : Snapshot) : IndexChange → Snapshot
  | .upsert path fingerprint symbols => (s.upsert path fingerprint symbols).1
  | .remove path => (s.remove path).1
  | .clear => s.clear

def applyAll (s : Snapshot) (changes : List IndexChange) : Snapshot := changes.foldl apply s

theorem Exact.withGeneration {s : Snapshot} (h : s.Exact) (generation : Nat) :
    Exact { s with generation } :=
  ⟨h.keyed, h.byFqn, h.byName, h.fqnOrder, h.packages, h.referencing, h.unresolved, h.subtypes,
    h.supertypes⟩

/-! ## What one change does -/

theorem Exact.replaceFile {s : Snapshot} (h : s.Exact) (e : FileEntry) :
    ((s.removeFile e.path).insertFile e).Exact := by
  apply (h.removeFile e.path).insertFile
  rw [files_removeFile, SortedMap.get?_erase, if_pos ReflCmp.compare_self]

theorem Exact.upsert {s : Snapshot} (h : s.Exact) (path : Path) (fingerprint : Fingerprint)
    (symbols : FileSymbols) : (s.upsert path fingerprint symbols).1.Exact := by
  rw [Snapshot.upsert]
  split
  · exact h
  · exact (h.replaceFile ⟨path, fingerprint, symbols⟩).withGeneration _

theorem Exact.remove {s : Snapshot} (h : s.Exact) (path : Path) : (s.remove path).1.Exact := by
  rw [Snapshot.remove]
  split
  · exact (h.removeFile path).withGeneration _
  · exact h

theorem Exact.apply {s : Snapshot} (h : s.Exact) (change : IndexChange) : (s.apply change).Exact := by
  cases change with
  | upsert path fingerprint symbols => exact h.upsert path fingerprint symbols
  | remove path => exact h.remove path
  | clear => exact exact_of_empty _

theorem Exact.applyAll {s : Snapshot} (h : s.Exact) (changes : List IndexChange) :
    (s.applyAll changes).Exact := by
  induction changes generalizing s with
  | nil => exact h
  | cons change changes ih => exact ih (h.apply change)

theorem files_upsert (s : Snapshot) (path : Path) (fingerprint : Fingerprint)
    (symbols : FileSymbols) :
    (s.upsert path fingerprint symbols).1.files =
      if s.holds path fingerprint symbols then s.files
      else s.files.insert path ⟨path, fingerprint, symbols⟩ := by
  rw [upsert]
  split
  · rfl
  · simp only [files_insertFile, files_removeFile]
    apply SortedMap.eq_of_mem_iff
    intro x
    rw [SortedMap.mem_insert_iff, SortedMap.mem_insert_iff, SortedMap.mem_erase_iff]
    refine or_congr_right ⟨fun hx => ⟨hx.1.1, hx.2⟩, fun hx => ⟨⟨hx.1, fun hc => ?_⟩, hx.2⟩⟩
    exact hx.2 (OrientedCmp.eq_symm hc)

theorem generation_upsert (s : Snapshot) (path : Path) (fingerprint : Fingerprint)
    (symbols : FileSymbols) :
    (s.upsert path fingerprint symbols).1.generation =
      s.generation + if s.holds path fingerprint symbols then 0 else 1 := by
  rw [upsert]
  split <;> rfl

theorem files_remove (s : Snapshot) (path : Path) : (s.remove path).1.files = s.files.erase path := by
  rw [remove]
  split
  next => exact files_removeFile s path
  next hno =>
    rw [file?, ← SortedMap.contains_eq_isSome_get?, Bool.not_eq_true] at hno
    have hsame : s.removeFile path = s := by
      rw [removeFile, SortedMap.get?_eq_none_iff.mpr hno]
    rw [← files_removeFile, hsame]

/-! ## Rebuilding -/

theorem Exact.foldl_insertFile {s : Snapshot} (h : s.Exact) (order : List FileEntry)
    (hnew : ∀ e ∈ order, s.files.get? e.path = none)
    (hdiff : order.Pairwise fun a b => compare a.path b.path ≠ .eq) :
    (order.foldl Snapshot.insertFile s).Exact ∧
      ∀ e, e ∈ (order.foldl Snapshot.insertFile s).files.values ↔
        e ∈ s.files.values ∨ e ∈ order := by
  induction order generalizing s with
  | nil => exact ⟨h, fun e => by simp⟩
  | cons a order ih =>
    rw [List.pairwise_cons] at hdiff
    have ha := hnew a List.mem_cons_self
    have hrest : ∀ e ∈ order, (s.insertFile a).files.get? e.path = none := by
      intro e he
      have hne : compare e.path a.path ≠ .eq := fun hc => hdiff.1 e he (OrientedCmp.eq_symm hc)
      rw [files_insertFile, SortedMap.get?_insert, if_neg hne]
      exact hnew e (List.mem_cons_of_mem a he)
    obtain ⟨hexact, hmem⟩ := ih (h.insertFile ha) hrest hdiff.2
    refine ⟨hexact, fun e => (hmem e).trans ?_⟩
    have hkeep : e ∈ s.files.values → compare e.path a.path ≠ .eq := by
      intro he hc
      have := h.keyed.get?_eq_some_iff.mpr ⟨he, OrientedCmp.eq_symm hc⟩
      rw [ha] at this
      simp at this
    rw [files_insertFile, h.keyed.mem_values_insert_iff, List.mem_cons]
    grind

/-- The files of an exact snapshot give it back in whatever order they are put into an empty one. -/
theorem Exact.rebuild {s : Snapshot} (h : s.Exact) {order : List FileEntry}
    (horder : order.Perm s.files.values) :
    { order.foldl Snapshot.insertFile {} with generation := s.generation } = s := by
  have hdiff : order.Pairwise fun a b => compare a.path b.path ≠ .eq :=
    (horder.pairwise_iff fun hne hc => hne (OrientedCmp.eq_symm hc)).mpr
      h.keyed.values_pairwise
  obtain ⟨hexact, hmem⟩ := (exact_of_empty 0).foldl_insertFile order (fun _ _ => rfl) hdiff
  refine hexact.eq_of_files_eq h (hexact.keyed.eq_of_mem_values_iff h.keyed fun e => ?_)
  rw [hmem, horder.mem_iff]
  exact or_iff_right fun he => by simp [SortedMap.values, EmptyCollection.emptyCollection] at he

/-! ## Changes of different files -/

theorem holds_congr {s t : Snapshot} {path : Path} (h : s.files.get? path = t.files.get? path)
    (fingerprint : Fingerprint) (symbols : FileSymbols) :
    s.holds path fingerprint symbols = t.holds path fingerprint symbols := by
  rw [holds, file?, h, holds, file?]

theorem get?_files_upsert_of_ne (s : Snapshot) {path other : Path} (hne : compare other path ≠ .eq)
    (fingerprint : Fingerprint) (symbols : FileSymbols) :
    (s.upsert path fingerprint symbols).1.files.get? other = s.files.get? other := by
  rw [files_upsert]
  split
  · rfl
  · rw [SortedMap.get?_insert, if_neg hne]

theorem insert_comm {files : SortedMap Path FileEntry} {p q : Path} (hne : compare p q ≠ .eq)
    (a b : FileEntry) : (files.insert p a).insert q b = (files.insert q b).insert p a := by
  have hne' : compare q p ≠ .eq := fun hc => hne (OrientedCmp.eq_symm hc)
  apply SortedMap.eq_of_mem_iff
  intro x
  simp only [SortedMap.mem_insert_iff]
  constructor
  · rintro (rfl | ⟨rfl | ⟨hx, hxp⟩, hxq⟩)
    · exact Or.inr ⟨Or.inl rfl, hne'⟩
    · exact Or.inl rfl
    · exact Or.inr ⟨Or.inr ⟨hx, hxq⟩, hxp⟩
  · rintro (rfl | ⟨rfl | ⟨hx, hxq⟩, hxp⟩)
    · exact Or.inr ⟨Or.inl rfl, hne⟩
    · exact Or.inl rfl
    · exact Or.inr ⟨Or.inr ⟨hx, hxp⟩, hxq⟩

theorem Exact.upsert_comm {s : Snapshot} (h : s.Exact) {p q : Path} (hne : compare p q ≠ .eq)
    (f g : Fingerprint) (a b : FileSymbols) :
    ((s.upsert p f a).1.upsert q g b).1 = ((s.upsert q g b).1.upsert p f a).1 := by
  have hne' : compare q p ≠ .eq := fun hc => hne (OrientedCmp.eq_symm hc)
  have hq : (s.upsert p f a).1.holds q g b = s.holds q g b :=
    holds_congr (get?_files_upsert_of_ne s hne' f a) g b
  have hp : (s.upsert q g b).1.holds p f a = s.holds p f a :=
    holds_congr (get?_files_upsert_of_ne s hne g b) f a
  have hfiles : ((s.upsert p f a).1.upsert q g b).1.files =
      ((s.upsert q g b).1.upsert p f a).1.files := by
    simp only [files_upsert, hq, hp]
    split <;> split
    · rfl
    · rfl
    · rfl
    · exact insert_comm hne _ _
  have hgeneration : ((s.upsert p f a).1.upsert q g b).1.generation =
      ((s.upsert q g b).1.upsert p f a).1.generation := by
    simp only [generation_upsert, hq, hp]
    omega
  have hsame := Exact.eq_of_files_eq ((h.upsert p f a).upsert q g b)
    ((h.upsert q g b).upsert p f a) hfiles
  rwa [← hgeneration] at hsame

theorem Exact.keys_fqnOrder {s : Snapshot} (h : s.Exact) : s.fqnOrder.keys = s.byFqn.keys := by
  have hset : s.fqnOrder = s.byFqn.map fun _ _ => () := by
    refine fqnOrder_ext fun name => ?_
    rw [h.fqnOrder, SortedMap.contains, SortedMap.contains, SortedMap.find?_map, Option.isSome_map]
  rw [hset]
  simp [SortedMap.keys, SortedMap.map]

/-- After any changes the maps hold exactly what the surviving files contribute, with no empty set
and the ordered names those of `byFqn`; putting the survivors into an empty index in any order gives
the same maps; and a further change of one file commutes with that of another. -/
theorem applyAll_eq_rebuild (changes : List IndexChange) :
    (applyAll {} changes).Exact ∧
    (∀ order : List FileEntry, order.Perm (applyAll {} changes).files.values →
      { order.foldl insertFile {} with generation := (applyAll {} changes).generation } =
        applyAll {} changes) ∧
    (applyAll {} changes).fqnOrder.keys = (applyAll {} changes).byFqn.keys ∧
    ∀ (p q : Path) (f g : Fingerprint) (a b : FileSymbols), compare p q ≠ .eq →
      applyAll {} (changes ++ [.upsert p f a, .upsert q g b]) =
        applyAll {} (changes ++ [.upsert q g b, .upsert p f a]) := by
  have h : (applyAll {} changes).Exact := (exact_of_empty 0).applyAll changes
  refine ⟨h, fun order horder => h.rebuild horder, h.keys_fqnOrder, ?_⟩
  intro p q f g a b hne
  have hcomm := h.upsert_comm hne f g a b
  simpa only [applyAll, List.foldl_append, List.foldl_cons, List.foldl_nil, apply] using hcomm

/-- Two files declare the same type, one of them twice, and one of them is dropped again. -/
def sharedName : List IndexChange :=
  let type (path : String) : Symbol :=
    ⟨"p.X", "X", .type, some .classType, ⟨path⟩, default, default, "class X", none, 0⟩
  [.upsert ⟨"/a"⟩ ⟨"1"⟩ { symbols := [type "/a", type "/a"] },
    .upsert ⟨"/b"⟩ ⟨"2"⟩ { symbols := [type "/b"] }, .remove ⟨"/a"⟩]

theorem applyAll_eq_rebuild_sharedName :
    { (applyAll {} sharedName).files.values.reverse.foldl insertFile {} with
        generation := (applyAll {} sharedName).generation } = applyAll {} sharedName ∧
    compare (⟨"/a"⟩ : Path) ⟨"/b"⟩ ≠ .eq ∧
    applyAll {} (sharedName ++ [.upsert ⟨"/a"⟩ ⟨"1"⟩ {}, .upsert ⟨"/b"⟩ ⟨"3"⟩ {}]) =
      applyAll {} (sharedName ++ [.upsert ⟨"/b"⟩ ⟨"3"⟩ {}, .upsert ⟨"/a"⟩ ⟨"1"⟩ {}]) := by
  have h := applyAll_eq_rebuild sharedName
  have hne : compare (⟨"/a"⟩ : Path) ⟨"/b"⟩ ≠ .eq := by decide
  exact ⟨h.2.1 _ (List.reverse_perm _), hne, h.2.2.2 ⟨"/a"⟩ ⟨"/b"⟩ ⟨"1"⟩ ⟨"3"⟩ {} {} hne⟩

end Snapshot

end JavaAtlas
