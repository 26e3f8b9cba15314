import JavaAtlas.Engine.Order
import JavaAtlas.Symbols.Extraction
import Mathlib.Data.List.Basic

/-!
# What the symbols of a file are bound to

A name is only ever bound to a type of the file or of the context it was bound against. The symbols
made from a bound unit are numbered by position, declare the subtypes of their edges, and list every
resolved supertype among their references.
-/

namespace JavaAtlas

set_option autoImplicit false

namespace Attribution

variable {u : SourceUnit} {ctx : TypeLookup}

theorem known_of_mem_types {t : TypeDecl} (ht : t ∈ u.types) (hvisible : t.isLocal = false) :
    known u ctx t.fqn = true := by
  rw [known, Bool.or_eq_true]
  left
  rw [SourceUnit.typeByFqn?, List.find?_isSome]
  exact ⟨t, ht, by simp [hvisible]⟩

theorem known_of_hasType {fqn : String} (h : ctx.hasType fqn = true) : known u ctx fqn = true := by
  simp [known, h]

theorem known_of_declared {t : TypeDecl} {index : Nat} {fqn : String} (ht : t ∈ u.types)
    (h : declared index t = .named fqn) : known u ctx fqn = true := by
  rw [declared] at h
  split at h
  · simp at h
  · rename_i hvisible
    rw [← Resolution.named.inj h]
    exact known_of_mem_types ht (Bool.eq_false_iff.mpr hvisible)

theorem mem_types_of_enclosingFrom {fuel : Nat} {current : Option Nat} {e : Nat × TypeDecl}
    (h : e ∈ u.enclosingFrom fuel current) : e.2 ∈ u.types := by
  induction fuel generalizing current with
  | zero => simp [SourceUnit.enclosingFrom] at h
  | succ fuel ih =>
    cases current with
    | none => simp [SourceUnit.enclosingFrom] at h
    | some i =>
      rw [SourceUnit.enclosingFrom] at h
      split at h
      · simp at h
      · rename_i t ht
        rcases List.mem_cons.mp h with rfl | h
        · exact List.mem_of_getElem? ht
        · exact ih h

theorem known_of_fromEnclosing? {name fqn : String} {index : Nat} {t : TypeDecl} (ht : t ∈ u.types)
    (h : fromEnclosing? u ctx name index t = some (.named fqn)) : known u ctx fqn = true := by
  rw [fromEnclosing?] at h
  split at h
  · exact known_of_declared ht (Option.some.inj h)
  · split at h
    · obtain ⟨m, hm, hdeclared⟩ := Option.map_eq_some_iff.mp h
      exact known_of_declared (List.mem_of_getElem? hm) hdeclared
    · split at h
      · rename_i hmember
        rw [Bool.and_eq_true] at hmember
        rw [← Resolution.named.inj (Option.some.inj h)]
        exact known_of_hasType hmember.2
      · simp at h

theorem known_of_resolveSimple {name fqn : String} {offset : Nat} {enclosing : Option Nat}
    (h : resolveSimple u ctx name offset enclosing = some (.named fqn)) :
    known u ctx fqn = true := by
  rw [resolveSimple] at h
  split at h
  · simp at h
  · rcases Option.or_eq_some_iff.mp h with houter | ⟨-, h⟩
    · obtain ⟨e, he, hfound⟩ := List.exists_of_findSome?_eq_some houter
      exact known_of_fromEnclosing? (mem_types_of_enclosingFrom he) hfound
    · obtain ⟨found, hfound, heq⟩ := Option.map_eq_some_iff.mp h
      obtain rfl := Resolution.named.inj heq
      rcases Option.or_eq_some_iff.mp hfound with htop | ⟨-, hfound⟩
      · obtain ⟨t, ht, rfl⟩ := Option.map_eq_some_iff.mp htop
        have hmem := List.mem_filter.mp (List.mem_of_find?_eq_some ht)
        rw [Bool.and_eq_true, Bool.not_eq_true'] at hmem
        exact known_of_mem_types hmem.1 hmem.2.1
      rcases Option.or_eq_some_iff.mp hfound with himport | ⟨-, hfound⟩
      · obtain ⟨i, hi, rfl⟩ := Option.map_eq_some_iff.mp himport
        have hfind := List.find?_some hi
        simp only [Bool.and_eq_true] at hfind
        exact hfind.1.2
      rcases Option.or_eq_some_iff.mp hfound with hpackage | ⟨-, hfound⟩
      · split at hpackage
        · rename_i hknown
          rwa [← Option.some.inj hpackage]
        · simp at hpackage
      rcases Option.or_eq_some_iff.mp hfound with hondemand | ⟨-, hbuiltin⟩
      · exact List.find?_some hondemand
      · split at hbuiltin
        · rename_i hknown
          rw [← Option.some.inj hbuiltin]
          exact known_of_hasType hknown
        · simp at hbuiltin

/-- A reference is bound to a type of the file or of the context. -/
theorem known_of_resolve {r : TypeRef} {fqn : String} (h : resolve u ctx r = .named fqn) :
    known u ctx fqn = true := by
  rw [resolve] at h
  split at h
  · simp at h
  · split at h
    · cases hsimple : resolveSimple u ctx r.name r.span.start r.enclosing with
      | none => simp [hsimple] at h
      | some resolution =>
        rw [hsimple, Option.getD_some] at h
        rw [h] at hsimple
        exact known_of_resolveSimple hsimple
    · split at h
      · rename_i hknown
        rwa [← Resolution.named.inj h]
      · split at h
        · simp at h
        · split at h
          · split at h
            · rename_i hknown
              rwa [← Resolution.named.inj h]
            · simp at h
          · simp at h

end Attribution

/-! ## Symbols -/

/-- What holds of the symbols made from any unit. -/
structure FileSymbols.Sound (f : FileSymbols) : Prop where
  numbered : ∀ i s, f.symbols[i]? = some s → s.ordinal = Extraction.ordinalOf i
  subtypes : ∀ e ∈ f.supertypes, e.subtype ∈ f.types.map (·.fqn)
  resolved : ∀ e ∈ f.supertypes, e.resolved = true → e.supertype ∈ f.references.map (·.target)

/-- The symbols come from some unit, whose names were bound or not. -/
def FileSymbols.Extracted (f : FileSymbols) : Prop :=
  ∃ u, f = Extraction.ofSource u ∨ ∃ ctx, f = Extraction.ofAttributed (u.bindTypes ctx)

namespace Extraction

theorem numbered_declarations (u : SourceUnit) {i : Nat} {s : Symbol}
    (h : (declarations u)[i]? = some s) : s.ordinal = ordinalOf i := by
  rw [declarations, List.getElem?_map, List.getElem?_zipIdx] at h
  obtain ⟨e, he, rfl⟩ := Option.map_eq_some_iff.mp h
  obtain ⟨s, -, rfl⟩ := Option.map_eq_some_iff.mp he
  simp

theorem toNat_ordinalOf {i : Nat} (h : i < 4294967296) : (ordinalOf i).toNat = i := by
  rw [ordinalOf, UInt32.toNat_ofNat']
  omega

theorem mem_declarations_of_visible (u : SourceUnit) {t : TypeDecl} (ht : t ∈ u.visibleTypes) :
    t.fqn ∈ ((declarations u).filter Symbol.isType).map (·.fqn) := by
  have hmem : typeSymbol u t ∈ (u.visibleTypes.flatMap (symbolsOf u)).mergeSort
      fun a b => a.nameSpan.start ≤ b.nameSpan.start := by
    rw [List.mem_mergeSort]
    exact List.mem_flatMap.mpr ⟨t, ht, List.mem_cons_self⟩
  obtain ⟨i, hi⟩ := List.getElem?_of_mem hmem
  refine List.mem_map.mpr ⟨{ typeSymbol u t with ordinal := ordinalOf i }, ?_, rfl⟩
  refine List.mem_filter.mpr ⟨?_, rfl⟩
  rw [declarations]
  refine List.mem_map.mpr ⟨(typeSymbol u t, i), ?_, rfl⟩
  refine List.mem_of_getElem? (i := i) ?_
  rw [List.getElem?_zipIdx, hi]
  simp

theorem mem_types_of_known {u : SourceUnit} {ctx : TypeLookup} {fqn : String}
    (h : Attribution.known u ctx fqn = true) :
    fqn ∈ ((declarations u).filter Symbol.isType).map (·.fqn) ∨ ctx.hasType fqn = true := by
  rw [Attribution.known, Bool.or_eq_true] at h
  refine h.imp_left fun hown => ?_
  rw [SourceUnit.typeByFqn?, List.find?_isSome] at hown
  obtain ⟨t, ht, heq⟩ := hown
  rw [Bool.and_eq_true, beq_iff_eq] at heq
  rw [← heq.2]
  exact mem_declarations_of_visible u (List.mem_filter.mpr ⟨ht, heq.1⟩)

theorem sound_ofSource (u : SourceUnit) : (ofSource u).Sound where
  numbered i s h := numbered_declarations u h
  subtypes e he := by
    obtain ⟨t, ht, he⟩ := List.mem_flatMap.mp he
    obtain ⟨ref, -, rfl⟩ := List.mem_map.mp he
    exact mem_declarations_of_visible u ht
  resolved e he hresolved := by
    obtain ⟨t, ht, he⟩ := List.mem_flatMap.mp he
    obtain ⟨ref, -, rfl⟩ := List.mem_map.mp he
    simp [SourceUnit.writtenSupertype] at hresolved

theorem mem_references_of_resolution {u : SourceUnit} {ctx : TypeLookup} {ref : Nat} {fqn : String}
    (h : ((u.bindTypes ctx).resolution ref).fqn? = some fqn) :
    fqn ∈ (ofAttributed (u.bindTypes ctx)).references.map (·.target) := by
  have hnamed : (u.bindTypes ctx).resolution ref = .named fqn := by
    cases hr : (u.bindTypes ctx).resolution ref with
    | named found =>
      rw [hr] at h
      rw [Option.some.inj h]
    | localType index => simp [hr, Resolution.fqn?] at h
    | typeParameter => simp [hr, Resolution.fqn?] at h
    | inferred => simp [hr, Resolution.fqn?] at h
    | unresolved => simp [hr, Resolution.fqn?] at h
  rw [AttributedUnit.resolution, SourceUnit.bindTypes, List.getElem?_map] at hnamed
  cases hr : u.typeRefs[ref]? with
  | none => simp [hr] at hnamed
  | some r =>
    rw [hr, Option.map_some, Option.getD_some] at hnamed
    have hbound : (r, fqn) ∈ (u.bindTypes ctx).boundRefs := by
      refine List.mem_filterMap.mpr ⟨(r, .named fqn), ?_, rfl⟩
      refine List.mem_of_getElem? (i := ref) ?_
      rw [List.getElem?_zip_eq_some]
      exact ⟨hr, by simp [SourceUnit.bindTypes, hr, hnamed]⟩
    exact List.mem_map.mpr ⟨⟨fqn, r.span⟩, List.mem_map.mpr ⟨(r, fqn), hbound, rfl⟩, rfl⟩

theorem sound_ofAttributed (u : SourceUnit) (ctx : TypeLookup) :
    (ofAttributed (u.bindTypes ctx)).Sound where
  numbered i s h := numbered_declarations u h
  subtypes e he := by
    obtain ⟨t, ht, he⟩ := List.mem_flatMap.mp he
    obtain ⟨ref, -, rfl⟩ := List.mem_map.mp he
    split <;> exact mem_declarations_of_visible u ht
  resolved e he hresolved := by
    obtain ⟨t, ht, he⟩ := List.mem_flatMap.mp he
    obtain ⟨ref, -, rfl⟩ := List.mem_map.mp he
    split at hresolved
    next fqn hfqn => exact mem_references_of_resolution hfqn
    next => simp [SourceUnit.writtenSupertype] at hresolved

/-- A file is bound to types it declares and types of the context. -/
theorem known_of_mem_references {u : SourceUnit} {ctx : TypeLookup} {fqn : String}
    (h : fqn ∈ (ofAttributed (u.bindTypes ctx)).references.map (·.target)) :
    fqn ∈ (ofAttributed (u.bindTypes ctx)).types.map (·.fqn) ∨ ctx.hasType fqn = true := by
  obtain ⟨r, hr, rfl⟩ := List.mem_map.mp h
  obtain ⟨⟨ref, fqn⟩, he, rfl⟩ := List.mem_map.mp hr
  obtain ⟨⟨ref', resolution⟩, hzip, hfqn⟩ := List.mem_filterMap.mp he
  obtain ⟨found, hfound, heq⟩ := Option.map_eq_some_iff.mp hfqn
  obtain ⟨rfl, rfl⟩ := Prod.mk.inj heq
  have hmem := (List.of_mem_zip hzip).2
  obtain ⟨r, -, hresolve⟩ := List.mem_map.mp hmem
  have hnamed : resolution = .named found := by
    cases resolution <;> simp_all [Resolution.fqn?]
  exact mem_types_of_known (Attribution.known_of_resolve (hresolve.trans hnamed))

end Extraction

namespace FileSymbols

theorem Extracted.sound {f : FileSymbols} (h : f.Extracted) : f.Sound := by
  obtain ⟨u, rfl | ⟨ctx, rfl⟩⟩ := h
  · exact Extraction.sound_ofSource u
  · exact Extraction.sound_ofAttributed u ctx

/-- All a file is bound to stands among its references. -/
theorem Sound.mem_boundTargets_iff {f : FileSymbols} (h : f.Sound) (fqn : String) :
    fqn ∈ f.boundTargets ↔ fqn ∈ f.references.map (·.target) := by
  rw [boundTargets, List.mem_append]
  refine or_iff_left_of_imp fun hs => ?_
  obtain ⟨e, he, rfl⟩ := List.mem_map.mp hs
  obtain ⟨he, hresolved⟩ := List.mem_filter.mp he
  exact h.resolved e he hresolved

end FileSymbols

end JavaAtlas
