import JavaAtlas.Proofs.Data.Reach
import JavaAtlas.Proofs.Index.Rebuild
import Mathlib.Logic.Relation

/-!
# What an exact index answers

With exact maps every answer can be read off the files: which types and packages there are, which
files refer to a type, and which files depend on which. A file is used by the others that refer to
its types; its dependents are the files reached along such uses, whatever cycles they have.
-/

namespace JavaAtlas

set_option autoImplicit false

open Std (TransCmp OrientedCmp ReflCmp)
open Relation (TransGen)

/-- A symbol called `name` leads, by its number, to a type of the file. -/
def FileSymbols.Finds (f : FileSymbols) (name : String) : Prop :=
  ∃ s ∈ f.symbols, s.fqn = name ∧ ∃ t, f.symbols[s.ordinal.toNat]? = some t ∧ t.isType = true

namespace Snapshot

variable {s : Snapshot}

theorem Exact.file?_eq_some_iff (h : s.Exact) {path : Path} {x : FileEntry} :
    s.file? path = some x ↔ x ∈ s.entries ∧ compare path x.path = .eq :=
  h.keyed.get?_eq_some_iff

theorem Exact.file?_of_mem (h : s.Exact) {x : FileEntry} (hx : x ∈ s.entries) :
    s.file? x.path = some x :=
  h.file?_eq_some_iff.mpr ⟨hx, ReflCmp.compare_self⟩

theorem Exact.mem_entries_upsert_iff (h : s.Exact) {path : Path} {print : Fingerprint}
    {symbols : FileSymbols} (hnew : s.holds path print symbols = false) (x : FileEntry) :
    x ∈ (s.upsert path print symbols).1.entries ↔
      x = ⟨path, print, symbols⟩ ∨ (x ∈ s.entries ∧ compare x.path path ≠ .eq) := by
  rw [entries, files_upsert, hnew, if_neg Bool.false_ne_true]
  exact h.keyed.mem_values_insert_iff ⟨path, print, symbols⟩ x

theorem Exact.mem_entries_remove_iff (h : s.Exact) (path : Path) (x : FileEntry) :
    x ∈ (s.remove path).1.entries ↔ x ∈ s.entries ∧ compare x.path path ≠ .eq := by
  rw [entries, files_remove, h.keyed.mem_values_erase_iff]
  exact and_congr_right fun _ => not_congr OrientedCmp.eq_comm

theorem upsert_of_holds {path : Path} {print : Fingerprint} {symbols : FileSymbols}
    (h : s.holds path print symbols = true) :
    s.upsert path print symbols =
      (s, { generation := s.generation, previous := some print, unchanged := true }) := by
  rw [upsert, if_pos h]

theorem Exact.mem_or_eq_of_mem_upsert (h : s.Exact) {path : Path} {print : Fingerprint}
    {symbols : FileSymbols} {x : FileEntry} (hx : x ∈ (s.upsert path print symbols).1.entries) :
    x ∈ s.entries ∨ x = ⟨path, print, symbols⟩ := by
  cases hholds : s.holds path print symbols with
  | true =>
    rw [upsert_of_holds hholds] at hx
    exact Or.inl hx
  | false =>
    rcases (h.mem_entries_upsert_iff hholds x).mp hx with hx | ⟨hx, -⟩
    · exact Or.inr hx
    · exact Or.inl hx

theorem Exact.mem_of_mem_remove (h : s.Exact) {path : Path} {x : FileEntry}
    (hx : x ∈ (s.remove path).1.entries) : x ∈ s.entries :=
  ((h.mem_entries_remove_iff path x).mp hx).1

theorem not_holds_of_none {path : Path} (h : s.file? path = none) (print : Fingerprint)
    (symbols : FileSymbols) : s.holds path print symbols = false := by
  rw [holds, h]
  rfl

theorem upsert_of_not_holds {path : Path} {print : Fingerprint} {symbols : FileSymbols}
    (h : s.holds path print symbols = false) :
    (s.upsert path print symbols).2 = s.changeReport path symbols := by
  rw [upsert, if_neg (by simp [h])]

theorem file?_upsert {path : Path} {print : Fingerprint} {symbols : FileSymbols}
    (hnew : s.holds path print symbols = false) (other : Path) :
    (s.upsert path print symbols).1.file? other =
      if compare other path = .eq then some ⟨path, print, symbols⟩ else s.file? other := by
  rw [file?, files_upsert, hnew, if_neg Bool.false_ne_true, SortedMap.get?_insert, file?]

/-! ## Types and packages -/

theorem Exact.typeExists_iff (h : s.Exact) (name : String) :
    s.typeExists name = true ↔ ∃ x ∈ s.entries, x.symbols.Finds name := by
  rw [typeExists, symbolsByFqn, resolveAll, List.any_eq_true]
  constructor
  · rintro ⟨t, ht, htype⟩
    obtain ⟨ref, href, hresolve⟩ := List.mem_filterMap.mp ht
    obtain ⟨x, hx, hpair⟩ := (h.byFqn.mem_iff name ref).mp href
    obtain ⟨symbol, hsymbol, heq⟩ := List.mem_map.mp hpair
    obtain ⟨rfl, rfl⟩ := Prod.mk.inj heq
    rw [resolve?, h.file?_of_mem hx, Option.bind_some] at hresolve
    exact ⟨x, hx, symbol, hsymbol, rfl, t, hresolve, htype⟩
  · rintro ⟨x, hx, symbol, hsymbol, rfl, t, ht, htype⟩
    refine ⟨t, List.mem_filterMap.mpr ⟨⟨x.path, symbol.ordinal⟩, ?_, ?_⟩, htype⟩
    · exact (h.byFqn.mem_iff _ _).mpr ⟨x, hx, List.mem_map.mpr ⟨symbol, hsymbol, rfl⟩⟩
    · rw [resolve?, h.file?_of_mem hx, Option.bind_some, ht]

theorem Exact.hasPackage_iff (h : s.Exact) (package : String) :
    s.hasPackage package = true ↔ ∃ x ∈ s.entries, x.symbols.package = some package := by
  rw [hasPackage, h.packages.contains_iff]
  constructor
  · rintro ⟨path, x, hx, hpair⟩
    obtain ⟨name, hname, heq⟩ := List.mem_map.mp hpair
    obtain ⟨rfl, -⟩ := Prod.mk.inj heq
    exact ⟨x, hx, Option.mem_toList.mp hname⟩
  · rintro ⟨x, hx, hpackage⟩
    exact ⟨x.path, x, hx, List.mem_map.mpr ⟨package, Option.mem_toList.mpr hpackage, rfl⟩⟩

/-! ## Uses -/

theorem Exact.mem_referencing_iff (h : s.Exact) (target : String) (path : Path) :
    path ∈ MultiMap.lookup s.referencing target ↔
      ∃ x ∈ s.entries, x.path = path ∧ target ∈ x.symbols.references.map (·.target) := by
  rw [h.referencing.mem_iff]
  constructor
  · rintro ⟨x, hx, hpair⟩
    obtain ⟨name, hname, heq⟩ := List.mem_map.mp hpair
    obtain ⟨rfl, rfl⟩ := Prod.mk.inj heq
    exact ⟨x, hx, rfl, hname⟩
  · rintro ⟨x, hx, rfl, htarget⟩
    exact ⟨x, hx, List.mem_map.mpr ⟨target, htarget, rfl⟩⟩

theorem Exact.mem_unresolved_iff (h : s.Exact) (name : String) (path : Path) :
    path ∈ MultiMap.lookup s.unresolved name ↔
      ∃ x ∈ s.entries, x.path = path ∧ name ∈ x.symbols.unresolved := by
  rw [h.unresolved.mem_iff]
  constructor
  · rintro ⟨x, hx, hpair⟩
    obtain ⟨name, hname, heq⟩ := List.mem_map.mp hpair
    obtain ⟨rfl, rfl⟩ := Prod.mk.inj heq
    exact ⟨x, hx, rfl, hname⟩
  · rintro ⟨x, hx, rfl, hname⟩
    exact ⟨x, hx, List.mem_map.mpr ⟨name, hname, rfl⟩⟩

theorem Exact.mem_usages_iff (h : s.Exact) (target : String) (path : Path) :
    path ∈ (s.usages target).map (·.path) ↔
      ∃ x ∈ s.entries, x.path = path ∧ target ∈ x.symbols.references.map (·.target) := by
  simp only [usages, List.mem_map, List.mem_mergeSort, List.mem_flatMap, List.mem_filterMap]
  constructor
  · rintro ⟨u, ⟨x, ⟨p, hp, hfile⟩, r, hr, rfl⟩, rfl⟩
    have hx := (h.file?_eq_some_iff.mp hfile).1
    obtain ⟨hr, htarget⟩ := List.mem_filter.mp hr
    exact ⟨x, hx, rfl, r, hr, by simpa using htarget⟩
  · rintro ⟨x, hx, rfl, r, hr, rfl⟩
    refine ⟨⟨x.path, r.span⟩, ⟨x, ⟨x.path, ?_, h.file?_of_mem hx⟩, r, ?_, rfl⟩, rfl⟩
    · exact (h.mem_referencing_iff _ _).mpr ⟨x, hx, rfl, List.mem_map.mpr ⟨r, hr, rfl⟩⟩
    · exact List.mem_filter.mpr ⟨hr, by simp⟩

end Snapshot

instance : ReflBEq Path := ⟨by simp [BEq.beq, ReflCmp.compare_self]⟩

/-! ## Dependents -/

namespace Snapshot

variable {s : Snapshot}

/-- A type declared in the file at `p` is referred to by another file, that at `q`. -/
def UsedBy (s : Snapshot) (p q : Path) : Prop :=
  ∃ x ∈ s.entries, compare p x.path = .eq ∧
    ∃ y ∈ s.entries, y.path = q ∧ compare q x.path ≠ .eq ∧
      ∃ t ∈ x.symbols.types, ∃ r ∈ y.symbols.references, r.target = t.fqn

theorem UsedBy.congr {p p' q : Path} (h : s.UsedBy p q) (hp : compare p' p = .eq) :
    s.UsedBy p' q := by
  obtain ⟨x, hx, hpx, hrest⟩ := h
  exact ⟨x, hx, TransCmp.eq_trans hp hpx, hrest⟩

theorem UsedBy.mem_paths {p q : Path} (h : s.UsedBy p q) : q ∈ s.entries.map (·.path) := by
  obtain ⟨x, -, -, y, hy, rfl, -⟩ := h
  exact List.mem_map.mpr ⟨y, hy, rfl⟩

/-- Spelled as they are indexed, files that count as the same are the same. -/
theorem Exact.path_eq (h : s.Exact) {p q : Path} (hp : p ∈ s.entries.map (·.path))
    (hq : q ∈ s.entries.map (·.path)) (hc : compare p q = .eq) : p = q := by
  obtain ⟨x, hx, rfl⟩ := List.mem_map.mp hp
  obtain ⟨y, hy, rfl⟩ := List.mem_map.mp hq
  rw [h.keyed.eq_of_compare_eq hx hy hc]

theorem Exact.mem_directDependents_iff (h : s.Exact) (p q : Path) :
    q ∈ s.directDependents p ↔ s.UsedBy p q := by
  rw [directDependents]
  split
  next hnone =>
    simp only [List.not_mem_nil, false_iff]
    rintro ⟨x, hx, hpx, -⟩
    rw [h.file?_eq_some_iff.mpr ⟨hx, hpx⟩] at hnone
    simp at hnone
  next x hfile =>
    obtain ⟨hx, hpx⟩ := h.file?_eq_some_iff.mp hfile
    have husers (q : Path) :
        q ∈ (x.symbols.types.flatMap fun t => MultiMap.lookup s.referencing t.fqn).filter (· != p) ↔
          compare q p ≠ .eq ∧ ∃ t ∈ x.symbols.types, ∃ y ∈ s.entries, y.path = q ∧
            ∃ r ∈ y.symbols.references, r.target = t.fqn := by
      simp [List.mem_filter, List.mem_flatMap, h.mem_referencing_iff, bne, BEq.beq, and_comm]
    have hpaths : ∀ q ∈ (x.symbols.types.flatMap fun t =>
        MultiMap.lookup s.referencing t.fqn).filter (· != p), q ∈ s.entries.map (·.path) := by
      intro q hq
      obtain ⟨-, -, -, y, hy, hyq, -⟩ := (husers q).mp hq
      exact List.mem_map.mpr ⟨y, hy, hyq⟩
    rw [SortedSet.mem_ofList_iff fun a ha b hb => h.path_eq (hpaths a ha) (hpaths b hb), husers]
    constructor
    · rintro ⟨hne, t, ht, y, hy, hyq, r, hr, htarget⟩
      refine ⟨x, hx, hpx, y, hy, hyq, fun hqx => hne ?_, t, ht, r, hr, htarget⟩
      exact TransCmp.eq_trans hqx (OrientedCmp.eq_symm hpx)
    · rintro ⟨x', hx', hpx', y, hy, hyq, hne, t, ht, r, hr, htarget⟩
      obtain rfl := h.keyed.eq_of_compare_eq hx hx'
        (TransCmp.eq_trans (OrientedCmp.eq_symm hpx) hpx')
      exact ⟨fun hqp => hne (TransCmp.eq_trans hqp hpx), t, ht, y, hy, hyq, r, hr, htarget⟩

/-- The walk behind the dependents of `p`: it never comes back to `p`. -/
theorem Exact.confined_dependents (h : s.Exact) (p : Path) :
    Confined (fun q => (s.directDependents q).filter (· != p)) (s.entries.map (·.path)) where
  eq_of_beq q hq r hr hqr := h.path_eq hq hr (by simpa [BEq.beq] using hqr)
  closed q _ r hr :=
    ((h.mem_directDependents_iff q r).mp (List.mem_filter.mp hr).1).mem_paths

theorem Exact.directDependents_subset (h : s.Exact) (p : Path) :
    ∀ q ∈ s.directDependents p, q ∈ s.entries.map (·.path) := fun q hq =>
  ((h.mem_directDependents_iff p q).mp hq).mem_paths

theorem length_paths_lt (s : Snapshot) : (s.entries.map (·.path)).length < s.fileCount + 1 := by
  simp [fileCount, entries, SortedMap.size, SortedMap.values]

theorem Exact.arrives_dependents_iff (h : s.Exact) (p q : Path) :
    (∃ n, Arrives (fun q => (s.directDependents q).filter (· != p)) (s.directDependents p) n q) ↔
      compare q p ≠ .eq ∧ TransGen s.UsedBy p q := by
  constructor
  · rintro ⟨n, hq⟩
    induction n generalizing q with
    | zero =>
      have hused := (h.mem_directDependents_iff p q).mp hq
      have hne : compare q p ≠ .eq := by
        obtain ⟨x, -, hpx, y, -, rfl, hne, -⟩ := hused
        exact fun hqp => hne (TransCmp.eq_trans hqp hpx)
      exact ⟨hne, .single hused⟩
    | succ n ih =>
      obtain ⟨r, hr, hq⟩ := hq
      obtain ⟨hq, hne⟩ := List.mem_filter.mp hq
      exact ⟨by simpa [bne, BEq.beq] using hne,
        (ih r hr).2.tail ((h.mem_directDependents_iff r q).mp hq)⟩
  · rintro ⟨hne, hreach⟩
    induction hreach with
    | single hused => exact ⟨0, (h.mem_directDependents_iff p _).mpr hused⟩
    | @tail r q _ hused ih =>
      by_cases hback : compare r p = .eq
      · -- the path runs through `p` again, so what came before does not matter
        exact ⟨0, (h.mem_directDependents_iff p q).mpr (hused.congr (OrientedCmp.eq_symm hback))⟩
      · obtain ⟨n, hr⟩ := ih hback
        refine ⟨n + 1, r, hr, List.mem_filter.mpr ⟨(h.mem_directDependents_iff r q).mpr hused, ?_⟩⟩
        simpa [bne, BEq.beq] using hne

theorem Exact.mem_dependents_iff (h : s.Exact) (p q : Path) :
    q ∈ s.dependents p ↔ compare q p ≠ .eq ∧ TransGen s.UsedBy p q := by
  have hconf := h.confined_dependents p
  have hstart := h.directDependents_subset p
  have hreach := hconf.mem_reachable_iff hstart s.length_paths_lt
  have hpaths : ∀ q ∈ reachable (fun q => (s.directDependents q).filter (· != p))
      (s.fileCount + 1) (s.directDependents p), q ∈ s.entries.map (·.path) := by
    intro q hq
    obtain ⟨n, hn⟩ := (hreach q).mp hq
    exact hconf.mem_of_arrives hstart hn
  rw [dependents, SortedSet.mem_ofList_iff fun a ha b hb => h.path_eq (hpaths a ha) (hpaths b hb),
    hreach, h.arrives_dependents_iff]

theorem Exact.oneOf_dependents (h : s.Exact) {path : Path} {declaring x : FileEntry}
    (hdeclaring : s.file? path = some declaring) (hx : x ∈ s.entries)
    (hne : compare x.path path ≠ .eq) {target : String}
    (htype : target ∈ declaring.symbols.types.map (·.fqn))
    (htarget : target ∈ x.symbols.references.map (·.target)) :
    ∃ p ∈ s.dependents path, compare x.path p = .eq := by
  obtain ⟨hmem, hpath⟩ := h.file?_eq_some_iff.mp hdeclaring
  obtain ⟨t, ht, rfl⟩ := List.mem_map.mp htype
  obtain ⟨r, hr, htarget⟩ := List.mem_map.mp htarget
  have hother : compare x.path declaring.path ≠ .eq := fun hc =>
    hne (TransCmp.eq_trans hc (OrientedCmp.eq_symm hpath))
  have hused : s.UsedBy path x.path :=
    ⟨declaring, hmem, hpath, x, hx, rfl, hother, t, ht, r, hr, htarget⟩
  exact ⟨x.path, (h.mem_dependents_iff path x.path).mpr ⟨hne, .single hused⟩, ReflCmp.compare_self⟩

theorem Exact.mem_entries_of_mem_dependents (h : s.Exact) {path p : Path}
    (hp : p ∈ s.dependents path) : ∃ x ∈ s.entries, x.path = p := by
  have hused : ∃ q, s.UsedBy q p := by
    cases ((h.mem_dependents_iff path p).mp hp).2 with
    | single hused => exact ⟨path, hused⟩
    | tail _ hused => exact ⟨_, hused⟩
  obtain ⟨q, hused⟩ := hused
  obtain ⟨x, hx, hpath⟩ := List.mem_map.mp hused.mem_paths
  exact ⟨x, hx, hpath⟩

theorem Exact.mem_entries_of_mem_filesWithUnresolved (h : s.Exact) {names : List String} {p : Path}
    (hp : p ∈ s.filesWithUnresolved names) : ∃ x ∈ s.entries, x.path = p := by
  obtain ⟨name, -, hname⟩ := List.mem_flatMap.mp (SortedSet.mem_of_mem_ofList hp)
  obtain ⟨x, hx, hpath, -⟩ := (h.mem_unresolved_iff name p).mp hname
  exact ⟨x, hx, hpath⟩

end Snapshot

end JavaAtlas
