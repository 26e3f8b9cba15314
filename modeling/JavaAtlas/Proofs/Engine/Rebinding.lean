import JavaAtlas.Proofs.Engine.Records
import JavaAtlas.Proofs.Symbols.Api

/-!
# Which bindings an analysis breaks

An analysis of one file can take away a type that others are bound to; then it asks for each of
them. The file itself, unless it is asked for again, is bound to types that it declares, that the
index or the classpath knows, or that are promised.
-/

namespace JavaAtlas

set_option autoImplicit false

open Std (TransCmp OrientedCmp ReflCmp)

def Snapshot.Declares (s : Snapshot) (t : String) : Prop :=
  ∃ x ∈ s.entries, t ∈ x.symbols.types.map (·.fqn)

namespace Engine.Effect

variable {e : Engine} {path : Path} {trigger : Trigger} {after : Snapshot} {a : Analysis}

theorem kept (h : Effect e path trigger after a) (hindex : e.index.Exact) {x : FileEntry}
    (hx : x ∈ e.index.entries) (hne : compare x.path path ≠ .eq) : x ∈ after.entries := by
  cases h with
  | gone hfile => exact (hindex.mem_entries_remove_iff path x).mpr ⟨hx, hne⟩
  | passed file hfile htrigger => exact hx
  | published file hfile symbols fromCache hsymbols after outcome hupsert =>
    obtain rfl : (e.index.upsert path file.fingerprint symbols).1 = after := by rw [hupsert]
    cases hholds : e.index.holds path file.fingerprint symbols with
    | true =>
      rw [Snapshot.upsert_of_holds hholds]
      exact hx
    | false => exact (hindex.mem_entries_upsert_iff hholds x).mpr (Or.inr ⟨hx, hne⟩)

theorem sound (h : Effect e path trigger after a) (hindex : e.index.Exact)
    (hwritten : e.world.Written) (hsound : ∀ x ∈ e.index.entries, x.symbols.Sound) {x : FileEntry}
    (hx : x ∈ after.entries) : x.symbols.Sound := by
  cases h with
  | gone hfile => exact hsound x (hindex.mem_of_mem_remove hx)
  | passed file hfile htrigger => exact hsound x hx
  | published file hfile symbols fromCache hsymbols after outcome hupsert =>
    obtain rfl : (e.index.upsert path file.fingerprint symbols).1 = after := by rw [hupsert]
    rcases hindex.mem_or_eq_of_mem_upsert hx with hx | rfl
    · exact hsound x hx
    · have hextracted := extracted_symbolsOf (e := e.reading path) hwritten path trigger file
      rw [hsymbols] at hextracted
      exact hextracted.sound

/-! ## Other files -/

/-- A type that goes with the analyzed file goes from nobody's sight: whoever is bound to it is to be
analyzed again. -/
theorem declares_or_stale (h : Effect e path trigger after a) (hindex : e.index.Exact)
    (hsound : ∀ x ∈ e.index.entries, x.symbols.Sound)
    (hafter : ∀ x ∈ after.entries, x.symbols.Sound) {x : FileEntry} (hx : x ∈ e.index.entries)
    (hne : compare x.path path ≠ .eq) {t : String} (ht : t ∈ x.symbols.boundTargets)
    (hdeclared : e.index.Declares t) :
    after.Declares t ∨ x.path.OneOf (SortedSet.toList a.stale) := by
  obtain ⟨y, hy, htype⟩ := hdeclared
  by_cases hyp : compare y.path path = .eq
  · have hfile : e.index.file? path = some y :=
      hindex.file?_eq_some_iff.mpr ⟨hy, OrientedCmp.eq_symm hyp⟩
    have hreference := ((hsound x hx).mem_boundTargets_iff t).mp ht
    obtain ⟨p, hp, hxp⟩ := hindex.oneOf_dependents hfile hx hne htype hreference
    cases h with
    | gone hgone =>
      have hremoved : (e.index.remove path).2 = true := by rw [Snapshot.remove, hfile]; rfl
      refine Or.inr (SortedSet.contains_iff_exists_mem.mp ?_)
      rw [hremoved, if_pos rfl, SortedSet.contains_ofList, List.any_eq_true]
      exact ⟨p, hp, by simp [hxp]⟩
    | passed file hfile htrigger => exact Or.inl ⟨y, hy, htype⟩
    | published file hpublished symbols fromCache hsymbols after outcome hupsert =>
      obtain rfl : (e.index.upsert path file.fingerprint symbols).1 = after := by rw [hupsert]
      obtain rfl : (e.index.upsert path file.fingerprint symbols).2 = outcome := by rw [hupsert]
      cases hholds : e.index.holds path file.fingerprint symbols with
      | true =>
        rw [Snapshot.upsert_of_holds hholds]
        exact Or.inl ⟨y, hy, htype⟩
      | false =>
        have hentry := (hindex.mem_entries_upsert_iff hholds ⟨path, file.fingerprint, symbols⟩).mpr
          (Or.inl rfl)
        by_cases hkept : t ∈ symbols.types.map (·.fqn)
        · exact Or.inl ⟨_, hentry, hkept⟩
        · have hchanged : (y.symbols.api != symbols.api) = true := by
            rw [← Bool.not_eq_false]
            intro hsame
            have hapi := FileSymbols.api_bne_eq_false_iff.mp hsame
            exact hkept ((hafter _ hentry).mem_types_of_api_eq hapi htype)
          refine Or.inr (SortedSet.contains_iff_exists_mem.mp ?_)
          rw [Snapshot.upsert_of_not_holds hholds]
          simp only [staleAfter, Snapshot.changeReport, hfile, hchanged, Option.map_some,
            Option.isSome_some, Bool.and_self, if_true]
          rw [if_neg Bool.false_ne_true, SortedMap.contains_erase, SortedSet.contains_ofList,
            Bool.and_eq_true, bne_iff_ne, List.any_eq_true]
          refine ⟨hne, p, ?_, by simp [hxp]⟩
          exact List.mem_append_left _ (List.mem_append_left _ hp)
  · exact Or.inl ⟨y, h.kept hindex hy hyp, htype⟩

/-! ## The file itself -/

theorem known_of_symbolsOf {file : SourceFile} {symbols : FileSymbols} {fromCache : Bool}
    (hsymbols : ((e.reading path).symbolsOf path trigger file).2 = (symbols, fromCache)) {t : String}
    (ht : t ∈ symbols.boundTargets) :
    t ∈ symbols.types.map (·.fqn) ∨ (e.contextOf e.index).hasType t = true ∨
      e.queue.promised.contains t = true := by
  have hspec := symbolsOf_spec (e.reading path) path trigger file
  rw [hsymbols] at hspec
  rcases hspec with hcomputed | ⟨-, hrecalled⟩
  · exact (hcomputed.known ht).imp_right Or.inl
  · exact ((e.reading path).unboundTarget?_eq_none_iff symbols e.index).mp hrecalled.bound t ht

/-- The analyzed file was passed over, is asked for again, or is bound to types that are known or
promised at the end. -/
theorem bound (h : Effect e path trigger after a) (hindex : e.index.Exact) {x : FileEntry}
    (hx : x ∈ after.entries) (hc : compare x.path path = .eq) :
    (after = e.index ∧ trigger = .content) ∨ a.requeue = true ∨
      ∀ t ∈ x.symbols.boundTargets, t ∈ x.symbols.types.map (·.fqn) ∨
        (e.contextOf after).hasType t = true ∨ e.queue.promised.contains t = true := by
  cases h with
  | gone hfile => exact absurd hc ((hindex.mem_entries_remove_iff path x).mp hx).2
  | passed file hfile htrigger => exact Or.inl ⟨rfl, htrigger⟩
  | published file hfile symbols fromCache hsymbols after outcome hupsert =>
    obtain rfl : (e.index.upsert path file.fingerprint symbols).1 = after := by rw [hupsert]
    obtain rfl : (e.index.upsert path file.fingerprint symbols).2 = outcome := by rw [hupsert]
    have hexact := hindex.upsert path file.fingerprint symbols
    have hxp := hexact.file?_eq_some_iff.mpr ⟨hx, OrientedCmp.eq_symm hc⟩
    cases hholds : e.index.holds path file.fingerprint symbols with
    | true =>
      rw [Snapshot.upsert_of_holds hholds] at hx hxp ⊢
      rw [Snapshot.holds, hxp, Option.any_some, Bool.and_eq_true] at hholds
      obtain ⟨hbound, htypes⟩ := FileSymbols.eq_of_beq hholds.2
      refine Or.inr (Or.inr fun t ht => ?_)
      rw [htypes]
      exact known_of_symbolsOf hsymbols (hbound ▸ ht)
    | false =>
      obtain rfl : x = ⟨path, file.fingerprint, symbols⟩ := by
        rcases (hindex.mem_entries_upsert_iff hholds x).mp hx with rfl | ⟨-, hne⟩
        · rfl
        · exact absurd hc hne
      rw [Snapshot.upsert_of_not_holds hholds]
      simp only [Snapshot.changeReport, Bool.not_false, Bool.true_and, bindingsMoved, hxp]
      cases hunbound : e.unboundTarget? symbols (e.index.upsert path file.fingerprint symbols).1 with
      | some t => simp
      | none =>
        exact Or.inr (Or.inr ((e.unboundTarget?_eq_none_iff symbols _).mp hunbound))

end Engine.Effect

end JavaAtlas
