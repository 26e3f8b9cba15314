import JavaAtlas.Proofs.Engine.LoadOrder
import JavaAtlas.Proofs.Engine.Retries
import JavaAtlas.Proofs.Index.Names
import Mathlib.Data.List.Sublists

/-!
# Names that files offer and wait for

A file offers the simple names of its types and the name of its package. A file that failed on a name
is analyzed again once another file is published that is the first to offer it. So what is bound
while some files of a project are still missing is put right later, if it failed on a name that the
missing files offer.
-/

namespace JavaAtlas

set_option autoImplicit false

open Std (TransCmp OrientedCmp ReflCmp)

/-- A type of this simple name is declared, or the package is called so. -/
def FileSymbols.Offers (f : FileSymbols) (name : String) : Prop :=
  name ∈ f.types.map (·.name) ∨ f.package = some name

instance (f : FileSymbols) : DecidablePred f.Offers := fun name =>
  inferInstanceAs (Decidable (name ∈ f.types.map (·.name) ∨ f.package = some name))

theorem FileSymbols.SameDeclarations.offers_iff {f g : FileSymbols} (h : f.SameDeclarations g)
    (name : String) : f.Offers name ↔ g.Offers name := by
  rw [Offers, Offers, h.types, h.package]

namespace Snapshot

variable {s : Snapshot} {path : Path} {print : Fingerprint} {symbols : FileSymbols} {name : String}

def Offers (s : Snapshot) (name : String) : Prop := ∃ x ∈ s.entries, x.symbols.Offers name

theorem Exact.canResolve_iff (h : s.Exact) (hnumbered : s.Numbered) (name : String) :
    s.canResolve name = true ↔ s.Offers name := by
  have htypes : (!(s.typesBySimpleName name).isEmpty) = true ↔
      ∃ x ∈ s.entries, name ∈ x.symbols.types.map (·.name) := by
    rw [typesBySimpleName, h.resolveAll_lookup hnumbered h.byName, Bool.not_eq_true',
      List.isEmpty_eq_false_iff_exists_mem]
    simp only [List.mem_mergeSort, List.mem_filter, beq_iff_eq, allSymbols, List.mem_flatMap,
      List.mem_map, FileSymbols.types]
    grind
  rw [canResolve, Bool.or_eq_true, htypes, h.hasPackage_iff, ← exists_or]
  exact exists_congr fun x => and_or_left.symm

/-- A name that a publication is the first to offer is announced. -/
theorem Exact.announces_of_offers (h : s.Exact) (hbefore : ¬ s.Offers name)
    (hafter : (s.upsert path print symbols).1.Offers name) :
    s.holds path print symbols = false ∧ s.Announces path symbols name := by
  have hnone : ∀ x ∈ s.entries, ¬ x.symbols.Offers name := fun x hx hoffers => hbefore ⟨x, hx, hoffers⟩
  obtain ⟨x, hx, hoffers⟩ := hafter
  obtain ⟨hholds, rfl⟩ := h.exists_new hnone hx hoffers
  refine ⟨hholds, hoffers.imp (fun htype => ⟨htype, ?_⟩) fun hpackage => ⟨hpackage, ?_⟩⟩
  · rintro ⟨old, hold, hdeclared⟩
    exact hnone old (h.file?_eq_some_iff.mp hold).1 (Or.inl hdeclared)
  · rintro ⟨y, hy, -, hsame⟩
    exact hnone y hy (Or.inr hsame)

/-- Whoever waits for the name is to be analyzed again. -/
theorem Exact.oneOf_staleAfter_of_offers (h : s.Exact) (hbefore : ¬ s.Offers name)
    (hafter : (s.upsert path print symbols).1.Offers name) {x : FileEntry}
    (hx : x ∈ (s.upsert path print symbols).1.entries) (hne : compare x.path path ≠ .eq)
    (hwaits : name ∈ x.symbols.unresolved) :
    x.path.OneOf (SortedSet.toList (staleAfter path (s.upsert path print symbols).2 s
      (s.upsert path print symbols).1)) := by
  obtain ⟨hholds, hannounces⟩ := h.announces_of_offers hbefore hafter
  have hreport : (s.upsert path print symbols).2 = s.changeReport path symbols := by
    rw [upsert_of_not_holds hholds]
  rw [hreport, h.oneOf_staleAfter_iff (h.upsert path print symbols) hx hne]
  exact Or.inr ⟨name, hwaits, hannounces⟩

end Snapshot

namespace Engine

variable {e e' : Engine} {files known : List (Path × String)} {f : Path × String}
  {symbols : FileSymbols} {name : String}

/-! ## Among the files of a project -/

/-- The text of some of the files offers the name. -/
def Offered (e : Engine) (files : List (Path × String)) (name : String) : Prop :=
  ∃ f ∈ files, (e.bareEntry f).symbols.Offers name

/-- The symbols failed on a name that the files offer and the known ones among them do not. -/
def Wants (e : Engine) (files known : List (Path × String)) (symbols : FileSymbols) : Prop :=
  ∃ name ∈ symbols.unresolved, e.Offered files name ∧ ¬ e.Offered known name

/-- Some of the files or the classpath has the type. -/
def DeclaredAmong (e : Engine) (files : List (Path × String)) (t : String) : Prop :=
  (∃ f ∈ files, t ∈ (e.bareEntry f).symbols.types.map (·.fqn)) ∨ e.classpath.hasType t = true

/-- Whichever of the files are known, a file is bound as among all of them or has failed on a name
that another one is still to bring. -/
def Mends (e : Engine) (files : List (Path × String)) : Prop :=
  ∀ known, known.Sublist files → ∀ f ∈ files,
    e.boundAmong known f = e.boundAmong files f ∨ e.Wants files (f :: known) (e.boundAmong known f)

instance (e : Engine) (files : List (Path × String)) : DecidablePred (e.Offered files) := fun name =>
  inferInstanceAs (Decidable (∃ f ∈ files, (e.bareEntry f).symbols.Offers name))

instance (e : Engine) (files known : List (Path × String)) : DecidablePred (e.Wants files known) :=
  fun symbols => inferInstanceAs
    (Decidable (∃ name ∈ symbols.unresolved, e.Offered files name ∧ ¬ e.Offered known name))

theorem offered_cons_iff : e.Offered (f :: known) name ↔
    (e.bareEntry f).symbols.Offers name ∨ e.Offered known name := by
  simp [Offered]

theorem wants_congr (hrules : SameRules e e') (files known : List (Path × String))
    (symbols : FileSymbols) : e'.Wants files known symbols ↔ e.Wants files known symbols := by
  simp only [Wants, Offered, bareEntry_congr hrules]

theorem mends_congr (hrules : SameRules e e') (files : List (Path × String)) :
    e'.Mends files ↔ e.Mends files := by
  simp only [Mends, boundAmong_congr hrules, wants_congr hrules]

/-- Symbols of one file are the same if they compare equal. -/
theorem mends_of_forall_sublists (h : ∀ known ∈ files.sublists, ∀ f ∈ files,
    (e.boundAmong known f == e.boundAmong files f) = true ∨
      e.Wants files (f :: known) (e.boundAmong known f)) : e.Mends files := by
  intro known hknown f hf
  apply (h known (List.mem_sublists.mpr hknown) f hf).imp_left
  exact (e.located_boundAmong known f).eq_of_beq (e.located_boundAmong files f)

/-! ## The files that are indexed -/

def indexedOf (e : Engine) (files : List (Path × String)) : List (Path × String) :=
  files.filter fun f => (e.index.file? f.1).isSome

theorem mem_indexedOf_iff : f ∈ e.indexedOf files ↔ f ∈ files ∧ ∃ x, e.index.file? f.1 = some x := by
  rw [indexedOf, List.mem_filter, Option.isSome_iff_exists]

/-- An engine at work on files with these texts. Those that are indexed show what their texts declare,
and no text declares more than can be numbered. -/
structure Portrays (base : Engine) (files : List (Path × String)) (e : Engine) : Prop
    extends Hosts e files where
  exact : e.index.Exact
  rules : SameRules base e
  few : ∀ f ∈ files, (base.bareEntry f).symbols.symbols.length ≤ 4294967296
  shown : ∀ f ∈ files, ∀ x, e.index.file? f.1 = some x →
    x.symbols.SameDeclarations (base.bareEntry f).symbols

namespace Portrays

variable {base : Engine} (h : Portrays base files e)

include h

theorem exists_shown {x : FileEntry} (hx : x ∈ e.index.entries) :
    ∃ f ∈ e.indexedOf files, x.path = f.1 ∧ x.symbols.SameDeclarations (base.bareEntry f).symbols := by
  have hfile := h.exact.file?_of_mem hx
  obtain ⟨f, hf, hpath, -⟩ := h.exists_of_indexed h.exact hfile
  rw [hpath] at hfile
  exact ⟨f, mem_indexedOf_iff.mpr ⟨hf, x, hfile⟩, hpath, h.shown f hf x hfile⟩

theorem exists_entry (hf : f ∈ e.indexedOf files) :
    ∃ x ∈ e.index.entries, x.symbols.SameDeclarations (base.bareEntry f).symbols := by
  obtain ⟨hmem, x, hx⟩ := mem_indexedOf_iff.mp hf
  exact ⟨x, (h.exact.file?_eq_some_iff.mp hx).1, h.shown f hmem x hx⟩

theorem numbered : e.index.Numbered := by
  intro x hx
  obtain ⟨f, hf, -, hsame⟩ := h.exists_shown hx
  have hbare : (base.bareEntry f).symbols.Numbered :=
    (Extraction.sound_ofSource _).numbered_of_length_le (h.few f (mem_indexedOf_iff.mp hf).1)
  rw [FileSymbols.Numbered, hsame.symbols]
  exact hbare

theorem offers_iff (name : String) : e.index.Offers name ↔ base.Offered (e.indexedOf files) name := by
  constructor
  · rintro ⟨x, hx, hoffers⟩
    obtain ⟨f, hf, -, hsame⟩ := h.exists_shown hx
    exact ⟨f, hf, (hsame.offers_iff name).mp hoffers⟩
  · rintro ⟨f, hf, hoffers⟩
    obtain ⟨x, hx, hsame⟩ := h.exists_entry hf
    exact ⟨x, hx, (hsame.offers_iff name).mpr hoffers⟩

theorem canResolve_iff (name : String) :
    e.index.canResolve name = true ↔ base.Offered (e.indexedOf files) name :=
  (h.exact.canResolve_iff h.numbered name).trans (h.offers_iff name)

theorem declaredAmong_of_typeExists {t : String} (ht : e.index.typeExists t = true) :
    base.DeclaredAmong files t := by
  obtain ⟨x, hx, hfinds⟩ := (h.exact.typeExists_iff t).mp ht
  obtain ⟨f, hf, -, hsame⟩ := h.exists_shown hx
  have hmem := (mem_indexedOf_iff.mp hf).1
  exact Or.inl ⟨f, hmem,
    (Extraction.sound_ofSource _).mem_types_of_finds (h.few f hmem) ((hsame.alike.finds t).mp hfinds)⟩

theorem lookup_eq : e.index.lookup = (base.declaredBy (e.indexedOf files)).lookup := by
  apply lookup_eq_declaredBy h.exact
  · exact h.distinct.sublist List.filter_sublist
  · intro x hx
    obtain ⟨f, hf, -, hsame⟩ := h.exists_shown hx
    exact ⟨f, hf, hsame.alike⟩
  · intro f hf
    obtain ⟨x, hx, hsame⟩ := h.exists_entry hf
    exact ⟨x, hx, hsame.alike⟩

/-- What a file is bound to now is what it is bound to among the files that are indexed. -/
theorem freshSymbols_eq (f : Path × String) :
    e.freshSymbols f.1 f.2 = base.boundAmong (e.indexedOf files) f :=
  (boundAmong_eq h.rules h.lookup_eq f).symm

end Portrays

end Engine

end JavaAtlas
