import JavaAtlas.Proofs.Engine.Rebinding

/-!
# Which files are tried again

A publication announces names, and the files that failed on one of them are analyzed again. Main
statement: a package that is new to the index is announced. So is a type that is new, unless the file
declared another type of the same simple name before, as when it moves to another package; then a
file that waits for the type is analyzed again only for another reason.
-/

namespace JavaAtlas

set_option autoImplicit false

open Std (OrientedCmp ReflCmp TransCmp)

namespace Snapshot

variable {s : Snapshot} {path : Path} {symbols : FileSymbols}

/-- The version of a file in the index declares a type of this simple name. -/
def DeclaresIn (s : Snapshot) (path : Path) (name : String) : Prop :=
  ∃ old, s.file? path = some old ∧ name ∈ old.symbols.types.map (·.name)

def Announces (s : Snapshot) (path : Path) (symbols : FileSymbols) (name : String) : Prop :=
  (name ∈ symbols.types.map (·.name) ∧ ¬ s.DeclaresIn path name) ∨
    (symbols.package = some name ∧
      ¬ ∃ x ∈ s.entries, compare x.path path ≠ .eq ∧ x.symbols.package = some name)

/-- A file that depends on `path`, when something was indexed there that others see differently. -/
def Disturbs (s : Snapshot) (path : Path) (symbols : FileSymbols) (after : Snapshot) (p : Path) : Prop :=
  ∃ old, s.file? path = some old ∧ (old.symbols.api != symbols.api) = true ∧
    p.OneOf (s.dependents path ++ after.dependents path)

/-! ## What is announced -/

theorem Exact.mem_entries_removeFile_iff (h : s.Exact) (path : Path) (x : FileEntry) :
    x ∈ (s.removeFile path).entries ↔ x ∈ s.entries ∧ compare x.path path ≠ .eq := by
  rw [entries, files_removeFile, h.keyed.mem_values_erase_iff]
  exact and_congr_right fun _ => not_congr OrientedCmp.eq_comm

theorem mem_addedTypeNames_iff (name : String) :
    name ∈ SortedSet.toList (s.changeReport path symbols).addedTypeNames ↔
      name ∈ symbols.types.map (·.name) ∧ ¬ s.DeclaresIn path name := by
  have hold : name ∈ ((((s.file? path).map (·.symbols.types)).getD []).map (·.name)) ↔
      s.DeclaresIn path name := by
    unfold DeclaresIn
    cases s.file? path <;> simp
  have hreport : name ∈ SortedSet.toList (s.changeReport path symbols).addedTypeNames ↔
      name ∈ (symbols.types.map (·.name)).filter fun name =>
        !((((s.file? path).map (·.symbols.types)).getD []).map (·.name)).contains name :=
    ⟨SortedSet.mem_of_mem_ofList, SortedSet.mem_ofList⟩
  rw [hreport, List.mem_filter, Bool.not_eq_true', List.contains_eq_mem, decide_eq_false_iff_not, hold]

theorem Exact.mem_addedPackages_iff (h : s.Exact) (name : String) :
    name ∈ SortedSet.toList (s.changeReport path symbols).addedPackages ↔
      symbols.package = some name ∧
        ¬ ∃ x ∈ s.entries, compare x.path path ≠ .eq ∧ x.symbols.package = some name := by
  have hothers : (s.removeFile path).hasPackage name = true ↔
      ∃ x ∈ s.entries, compare x.path path ≠ .eq ∧ x.symbols.package = some name := by
    rw [(h.removeFile path).hasPackage_iff]
    simp only [h.mem_entries_removeFile_iff, and_assoc]
  have hreport : name ∈ SortedSet.toList (s.changeReport path symbols).addedPackages ↔
      name ∈ symbols.package.toList.filter fun package => !(s.removeFile path).hasPackage package :=
    ⟨SortedSet.mem_of_mem_ofList, SortedSet.mem_ofList⟩
  rw [hreport, List.mem_filter, Option.mem_toList, Bool.not_eq_true', ← Bool.not_eq_true, hothers]

theorem Exact.mem_added_iff (h : s.Exact) (name : String) :
    name ∈ SortedSet.toList (s.changeReport path symbols).addedTypeNames ++
        SortedSet.toList (s.changeReport path symbols).addedPackages ↔
      s.Announces path symbols name := by
  rw [List.mem_append, mem_addedTypeNames_iff, h.mem_addedPackages_iff]
  rfl

/-! ## Who is asked -/

theorem Exact.oneOf_filesWithUnresolved_iff (h : s.Exact) {x : FileEntry} (hx : x ∈ s.entries)
    (names : List String) :
    x.path.OneOf (s.filesWithUnresolved names) ↔ ∃ name ∈ x.symbols.unresolved, name ∈ names := by
  constructor
  · rintro ⟨p, hp, hc⟩
    obtain ⟨name, hname, hwaits⟩ := List.mem_flatMap.mp (SortedSet.mem_of_mem_ofList hp)
    obtain ⟨y, hy, rfl, hunresolved⟩ := (h.mem_unresolved_iff name p).mp hwaits
    rw [h.keyed.eq_of_compare_eq hx hy hc]
    exact ⟨name, hunresolved, hname⟩
  · rintro ⟨name, hunresolved, hname⟩
    apply SortedSet.exists_mem_ofList
    refine List.mem_flatMap.mpr ⟨name, hname, ?_⟩
    exact (h.mem_unresolved_iff name x.path).mpr ⟨x, hx, rfl, hunresolved⟩

theorem oneOf_erase_ofList_iff (p path : Path) (l : List Path) :
    p.OneOf (SortedSet.toList ((SortedSet.ofList l).erase path)) ↔ compare p path ≠ .eq ∧ p.OneOf l := by
  have hset : p.OneOf (SortedSet.toList ((SortedSet.ofList l).erase path)) ↔
      ((SortedSet.ofList l).erase path).contains p = true :=
    SortedSet.contains_iff_exists_mem.symm
  rw [hset, SortedMap.contains_erase, SortedSet.contains_ofList, Bool.and_eq_true, bne_iff_ne,
    List.any_eq_true]
  simp only [beq_iff_eq]
  rfl

/-- Everything that makes a file stale. -/
theorem Exact.oneOf_staleAfter_iff (h : s.Exact) {after : Snapshot} (hafter : after.Exact)
    {x : FileEntry} (hx : x ∈ after.entries) (hne : compare x.path path ≠ .eq) :
    x.path.OneOf (SortedSet.toList (staleAfter path (s.changeReport path symbols) s after)) ↔
      s.Disturbs path symbols after x.path ∨
        ∃ name ∈ x.symbols.unresolved, s.Announces path symbols name := by
  have hdisturbs : x.path.OneOf (if (s.changeReport path symbols).apiChanged &&
        (s.changeReport path symbols).previous.isSome then
      s.dependents path ++ after.dependents path else []) ↔ s.Disturbs path symbols after x.path := by
    unfold Disturbs changeReport
    cases s.file? path with
    | none => simp [Path.not_oneOf_nil]
    | some old =>
      simp only [Option.map_some, Option.isSome_some, Bool.and_true, Option.some.injEq, exists_eq_left']
      split
      next hchanged => exact (and_iff_right hchanged).symm
      next hsame => exact iff_of_false (Path.not_oneOf_nil _) fun hboth => hsame hboth.1
  rw [staleAfter, if_neg (by simp [changeReport]), oneOf_erase_ofList_iff, Path.oneOf_append_iff,
    hdisturbs, hafter.oneOf_filesWithUnresolved_iff hx]
  simp only [h.mem_added_iff]
  exact and_iff_right hne

/-! ## What is new is announced -/

section Publish

variable {print : Fingerprint}

/-- What a publication adds is in the published file. -/
theorem Exact.exists_new (h : s.Exact) {P : FileEntry → Prop} (hbefore : ∀ x ∈ s.entries, ¬ P x)
    {x : FileEntry} (hx : x ∈ (s.upsert path print symbols).1.entries) (hP : P x) :
    s.holds path print symbols = false ∧ x = ⟨path, print, symbols⟩ := by
  cases hholds : s.holds path print symbols with
  | true =>
    rw [upsert_of_holds hholds] at hx
    exact absurd hP (hbefore x hx)
  | false =>
    refine ⟨rfl, ?_⟩
    rcases (h.mem_entries_upsert_iff hholds x).mp hx with hx | ⟨hx, -⟩
    · exact hx
    · exact absurd hP (hbefore x hx)

theorem Exact.announces_of_new_package (h : s.Exact) {package : String}
    (hbefore : s.hasPackage package = false)
    (hafter : (s.upsert path print symbols).1.hasPackage package = true) :
    s.holds path print symbols = false ∧ s.Announces path symbols package := by
  have hnone : ∀ x ∈ s.entries, x.symbols.package ≠ some package := by
    intro x hx hpackage
    have hhas := (h.hasPackage_iff package).mpr ⟨x, hx, hpackage⟩
    rw [hbefore] at hhas
    exact Bool.false_ne_true hhas
  obtain ⟨x, hx, hpackage⟩ := ((h.upsert path print symbols).hasPackage_iff package).mp hafter
  obtain ⟨hholds, rfl⟩ := h.exists_new hnone hx hpackage
  exact ⟨hholds, Or.inr ⟨hpackage, fun ⟨y, hy, _, hsame⟩ => hnone y hy hsame⟩⟩

/-- After any changes, publishing a file makes stale every other file that waits for a package new to
the index, and every other file that waits for the simple name of a type new to the index, if the
file did not declare another type of that simple name before. If it did, the file that waits is stale
only if it depends on the published file, or waits for a name that is announced. -/
theorem stale_of_new (changes : List IndexChange) (path : Path) (print : Fingerprint)
    (symbols : FileSymbols) :
    let before := applyAll {} changes
    let after := (before.upsert path print symbols).1
    let stale := SortedSet.toList (staleAfter path (before.upsert path print symbols).2 before after)
    (∀ package, before.hasPackage package = false → after.hasPackage package = true →
      ∀ x ∈ after.entries, compare x.path path ≠ .eq → package ∈ x.symbols.unresolved →
        x.path.OneOf stale) ∧
    ∀ y ∈ after.entries, ∀ t ∈ y.symbols.types, ¬ before.Declares t.fqn →
      ∀ x ∈ after.entries, compare x.path path ≠ .eq → t.name ∈ x.symbols.unresolved →
        (¬ before.DeclaresIn path t.name → x.path.OneOf stale) ∧
        (before.DeclaresIn path t.name →
          (x.path.OneOf stale ↔ before.Disturbs path symbols after x.path ∨
            ∃ name ∈ x.symbols.unresolved, before.Announces path symbols name)) := by
  intro before after stale
  have hbefore : before.Exact := (exact_of_empty 0).applyAll changes
  have hafter : after.Exact := hbefore.upsert path print symbols
  have hstale (hholds : before.holds path print symbols = false) (x : FileEntry)
      (hx : x ∈ after.entries) (hne : compare x.path path ≠ .eq) :
      x.path.OneOf stale ↔ before.Disturbs path symbols after x.path ∨
        ∃ name ∈ x.symbols.unresolved, before.Announces path symbols name := by
    have hreport := upsert_of_not_holds hholds
    simp only [stale, hreport]
    exact hbefore.oneOf_staleAfter_iff hafter hx hne
  constructor
  · intro package hold hnew x hx hne hwaits
    obtain ⟨hholds, hannounces⟩ := hbefore.announces_of_new_package hold hnew
    exact (hstale hholds x hx hne).mpr (Or.inr ⟨package, hwaits, hannounces⟩)
  · intro y hy t ht hold x hx hne hwaits
    have hnone : ∀ z ∈ before.entries, ¬ t.fqn ∈ z.symbols.types.map (·.fqn) :=
      fun z hz hdeclared => hold ⟨z, hz, hdeclared⟩
    obtain ⟨hholds, rfl⟩ := hbefore.exists_new hnone hy (List.mem_map_of_mem ht)
    have hiff := hstale hholds x hx hne
    refine ⟨fun hfresh => hiff.mpr (Or.inr ⟨t.name, hwaits, ?_⟩), fun _ => hiff⟩
    exact Or.inl ⟨List.mem_map_of_mem ht, hfresh⟩

/-- A type, and three files that wait for a package, for `Bar` and for `Foo`. -/
def waiting : List IndexChange :=
  let waits (name : String) : FileSymbols := { unresolved := [name] }
  let type : Symbol :=
    ⟨"p.Foo", "Foo", .type, some .classType, ⟨"/A"⟩, default, default, "class Foo", none, 0⟩
  [.upsert ⟨"/A"⟩ ⟨"1"⟩ { package := some "p", symbols := [type] }, .upsert ⟨"/B"⟩ ⟨"2"⟩ (waits "n"),
    .upsert ⟨"/C"⟩ ⟨"3"⟩ (waits "Bar"), .upsert ⟨"/D"⟩ ⟨"4"⟩ (waits "Foo")]

/-- The type `Foo` in another package, and a second type. -/
def moved : FileSymbols :=
  let type (name : String) (ordinal : UInt32) : Symbol :=
    ⟨"n." ++ name, name, .type, some .classType, ⟨"/A"⟩, default, default, "class " ++ name, none,
      ordinal⟩
  { package := some "n", symbols := [type "Foo" 0, type "Bar" 1] }

/-- The file that waits for `Foo` is not tried again, although `n.Foo` is new. -/
theorem stale_of_new_moved :
    let before := applyAll {} waiting
    let after := (before.upsert ⟨"/A"⟩ ⟨"5"⟩ moved).1
    let stale :=
      SortedSet.toList (staleAfter ⟨"/A"⟩ (before.upsert ⟨"/A"⟩ ⟨"5"⟩ moved).2 before after)
    (⟨"/B"⟩ : Path).OneOf stale ∧ (⟨"/C"⟩ : Path).OneOf stale ∧ ¬ (⟨"/D"⟩ : Path).OneOf stale := by
  intro before after stale
  obtain ⟨hpackages, htypes⟩ := stale_of_new waiting ⟨"/A"⟩ ⟨"5"⟩ moved
  have hentry (i : Nat) {x : FileEntry} (hx : after.entries[i]? = some x) : x ∈ after.entries :=
    List.mem_of_getElem? hx
  have hnew {fqn : String} (hfqn : fqn ≠ "p.Foo") : ¬ before.Declares fqn := by
    have hall : before.entries.flatMap (fun x => x.symbols.types.map (·.fqn)) = ["p.Foo"] := rfl
    rintro ⟨x, hx, hdeclared⟩
    have hmem : fqn ∈ before.entries.flatMap fun x => x.symbols.types.map (·.fqn) :=
      List.mem_flatMap.mpr ⟨x, hx, hdeclared⟩
    rw [hall, List.mem_singleton] at hmem
    exact hfqn hmem
  have hnames {name : String} (hname : before.DeclaresIn ⟨"/A"⟩ name) : name = "Foo" := by
    obtain ⟨old, hold, hmem⟩ := hname
    have hfile : (before.file? ⟨"/A"⟩).map (fun x => x.symbols.types.map (·.name)) = some ["Foo"] := rfl
    rw [hold, Option.map_some, Option.some.injEq] at hfile
    rw [hfile, List.mem_singleton] at hmem
    exact hmem
  have hfoo : before.DeclaresIn ⟨"/A"⟩ "Foo" := ⟨_, rfl, List.mem_cons_self⟩
  refine ⟨hpackages "n" rfl rfl _ (hentry 1 rfl) (by decide) List.mem_cons_self, ?_, ?_⟩
  · have hbar := htypes _ (hentry 0 rfl) _ (List.mem_cons_of_mem _ List.mem_cons_self) (hnew (by decide))
      _ (hentry 2 rfl) (by decide) List.mem_cons_self
    exact hbar.1 fun hname => absurd (hnames hname) (by decide)
  · have hwaits := htypes _ (hentry 0 rfl) _ List.mem_cons_self (hnew (by decide))
      _ (hentry 3 rfl) (by decide) List.mem_cons_self
    rw [hwaits.2 hfoo]
    rintro (⟨old, -, -, hdepends⟩ | ⟨name, hname, hannounced⟩)
    · exact Path.not_oneOf_nil _ hdepends
    · obtain rfl : name = "Foo" := List.mem_singleton.mp hname
      rcases hannounced with ⟨-, hfresh⟩ | ⟨hpackage, -⟩
      · exact hfresh hfoo
      · exact absurd hpackage (by decide)

end Publish

end Snapshot

end JavaAtlas
