import JavaAtlas.Proofs.Attribution.Scopes

/-!
# Every name is accounted for

Binding gives one answer per reference and per import. What an answer names exists, and each answer
that is missing shows up in three ways: as a diagnostic, among the names to retry, and in the list of
all problems of the file.
-/

namespace JavaAtlas

set_option autoImplicit false

theorem Span.before_iff (a b : Span) :
    a.before b = true ↔ a.start < b.start ∨ a.start = b.start ∧ a.stop ≤ b.stop := by
  simp [Span.before]

namespace Diagnostic

theorem perm_sortByPosition (ds : List Diagnostic) : (sortByPosition ds).Perm ds :=
  List.mergeSort_perm ds _

theorem pairwise_sortByPosition (ds : List Diagnostic) :
    (sortByPosition ds).Pairwise fun a b => a.span.before b.span = true := by
  refine List.pairwise_mergeSort (fun a b c hab hbc => ?_) (fun a b => ?_) ds
  · rw [Span.before_iff] at *
    omega
  · rw [Bool.or_eq_true, Span.before_iff, Span.before_iff]
    omega

end Diagnostic

/-- What a resolution names exists: a visible type of the unit or a type of the context, or a local
class of the unit. -/
def Resolution.Sound (u : SourceUnit) (ctx : TypeLookup) : Resolution → Prop
  | .named fqn => (∃ t ∈ u.types, t.isLocal = false ∧ t.fqn = fqn) ∨ ctx.hasType fqn = true
  | .localType i => ∃ t, u.types[i]? = some t ∧ t.isLocal = true
  | .typeParameter => True
  | .inferred => True
  | .unresolved => True

namespace AttributedUnit

/-- The imports that were not found. -/
def missingImports (a : AttributedUnit) : List Import :=
  ((a.source.imports.zip a.importsFound).filter fun e => !e.2).map (·.1)

def missingRefs (a : AttributedUnit) : List TypeRef :=
  ((a.source.typeRefs.zip a.resolutions).filter fun e => e.2 = .unresolved).map (·.1)

/-- One problem per import that was not found and per reference that was not bound. -/
def problems (a : AttributedUnit) : List Diagnostic :=
  (a.missingImports.map fun i => .unresolvedSymbol i.span i.path) ++
    a.missingRefs.map fun r => .unresolvedSymbol r.span r.name

/-- Each answer is one to its question, and what is missing is told. -/
structure Accounted (a : AttributedUnit) (u : SourceUnit) (ctx : TypeLookup) : Prop where
  source_eq : a.source = u
  length_resolutions : a.resolutions.length = u.typeRefs.length
  length_importsFound : a.importsFound.length = u.imports.length
  sound : ∀ resolution ∈ a.resolutions, resolution.Sound u ctx
  unresolved_iff : ∀ e ∈ u.typeRefs.zip a.resolutions, e.1.isQualified = false →
    (e.2 = .unresolved ↔
      e.1.name ≠ "var" ∧ ¬ Attribution.InScope u ctx e.1.name e.1.span.start e.1.enclosing)
  perm_diagnostics : a.diagnostics.Perm a.problems
  sorted_diagnostics : a.diagnostics.Pairwise fun d e => d.span.before e.span = true
  mem_unresolvedNames_iff : ∀ name, name ∈ SortedSet.toList a.unresolvedNames ↔
    (∃ i ∈ a.missingImports, Attribution.retryName i = name) ∨
      ∃ r ∈ a.missingRefs, r.simpleName = name
  perm_allDiagnostics : a.allDiagnostics.Perm (u.diagnostics ++ a.diagnostics)
  sorted_allDiagnostics : a.allDiagnostics.Pairwise fun d e => d.span.before e.span = true

end AttributedUnit

namespace Attribution

variable {u : SourceUnit} {ctx : TypeLookup}

theorem sound_resolve (h : u.ParentsFirst) (r : TypeRef) : (resolve u ctx r).Sound u ctx := by
  cases hr : resolve u ctx r with
  | named fqn => exact (known_iff fqn).mp (known_of_resolve hr)
  | localType i =>
    obtain ⟨-, -, t, ht, hlocal, -⟩ := of_resolve_eq_localType h hr
    exact ⟨t, ht, hlocal⟩
  | typeParameter => trivial
  | inferred => trivial
  | unresolved => trivial

section Zip

variable {α β : Type}

/-- Selecting by the answer beside a question is selecting by the answer to it. -/
theorem filter_zip_map (f : α → β) (p : β → Bool) (as : List α) :
    ((as.zip (as.map f)).filter fun e => p e.2).map (·.1) = as.filter fun a => p (f a) := by
  rw [← List.map_prod_left_eq_zip, List.filter_map, List.map_map]
  exact List.map_id _

end Zip

theorem missingImports_bindTypes (u : SourceUnit) (ctx : TypeLookup) :
    (u.bindTypes ctx).missingImports = u.imports.filter fun i => !importExists u ctx i :=
  filter_zip_map (importExists u ctx) (fun b => !b) u.imports

theorem missingRefs_bindTypes (u : SourceUnit) (ctx : TypeLookup) :
    (u.bindTypes ctx).missingRefs = u.typeRefs.filter fun r => resolve u ctx r = .unresolved :=
  filter_zip_map (resolve u ctx) (fun r => r = .unresolved) u.typeRefs

theorem accounted_of_parentsFirst (h : u.ParentsFirst) (ctx : TypeLookup) :
    (u.bindTypes ctx).Accounted u ctx where
  source_eq := rfl
  length_resolutions := List.length_map _
  length_importsFound := List.length_map _
  sound resolution hmem := by
    obtain ⟨r, -, rfl⟩ := List.mem_map.mp hmem
    exact sound_resolve h r
  unresolved_iff e he hsimple := by
    have he : e ∈ u.typeRefs.zip (u.typeRefs.map (resolve u ctx)) := he
    rw [← List.map_prod_left_eq_zip] at he
    obtain ⟨r, -, rfl⟩ := List.mem_map.mp he
    exact resolve_eq_unresolved_iff h hsimple
  perm_diagnostics := by
    rw [AttributedUnit.problems, missingImports_bindTypes, missingRefs_bindTypes]
    exact Diagnostic.perm_sortByPosition _
  sorted_diagnostics := Diagnostic.pairwise_sortByPosition _
  mem_unresolvedNames_iff name := by
    rw [missingImports_bindTypes, missingRefs_bindTypes]
    refine (mem_recorded_iff ctx name).trans ?_
    simp only [List.mem_filter, Bool.not_eq_true', decide_eq_true_eq, and_assoc]
  perm_allDiagnostics := Diagnostic.perm_sortByPosition _
  sorted_allDiagnostics := Diagnostic.pairwise_sortByPosition _

end Attribution

/-- Whatever tree a unit was made from and whatever it is bound against, binding finds what there is
and tells what there is not. -/
theorem SourceUnit.accounted_bindTypes (text : String) (root : Java.Tree) (path : Path)
    (print : Fingerprint) (level : LanguageLevel) (diagnostics : List Diagnostic) (ctx : TypeLookup) :
    let u := ofTree text root path print level diagnostics
    (u.bindTypes ctx).Accounted u ctx := by
  have hnested := nested_ofTree text root.nested_anywhere path print level diagnostics
  exact Attribution.accounted_of_parentsFirst (parentsFirst_of_nested hnested) ctx

end JavaAtlas
