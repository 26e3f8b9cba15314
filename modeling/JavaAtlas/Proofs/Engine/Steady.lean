import JavaAtlas.Proofs.Engine.Effect
import JavaAtlas.Proofs.Engine.Moments
import JavaAtlas.Proofs.Symbols.Api
import JavaAtlas.Proofs.Unit.Origin

/-!
# Files that binding their names anew would not change

A file is steady if the index holds what an analysis that binds its names anew would publish, and
anchored if the unit at hand is for its content and the index has what that unit declares. Such an
analysis changes the index exactly if the file is not steady. It leaves the file anchored, and if the
file was anchored before, then no name means something else afterwards and the file is steady.
-/

namespace JavaAtlas

set_option autoImplicit false

open Std (TransCmp OrientedCmp ReflCmp)

theorem Snapshot.holds_upsert (s : Snapshot) (path : Path) (print : Fingerprint) (symbols : FileSymbols) :
    (s.upsert path print symbols).1.holds path print symbols = true := by
  cases hholds : s.holds path print symbols with
  | true => rwa [upsert_of_holds hholds]
  | false =>
    rw [holds, file?_upsert hholds, if_pos ReflCmp.compare_self]
    simp only [Option.any_some, BEq.rfl, Bool.and_self]

/-- A file that declares what it declared before leaves the meaning of every name alone. -/
theorem Snapshot.Exact.lookup_upsert {s : Snapshot} (h : s.Exact) {p : Path} {print : Fingerprint}
    {symbols : FileSymbols} {x : FileEntry} (hx : s.file? p = some x)
    (halike : x.symbols.Alike symbols) : (s.upsert p print symbols).1.lookup = s.lookup := by
  cases hholds : s.holds p print symbols with
  | true => rw [upsert_of_holds hholds]
  | false =>
    have hmem := h.mem_entries_upsert_iff hholds
    obtain ⟨hentry, hpath⟩ := h.file?_eq_some_iff.mp hx
    refine lookup_eq_of_alike (h.upsert p print symbols) h (fun y hy => ?_) fun y hy => ?_
    · rcases (hmem y).mp hy with rfl | ⟨hy, -⟩
      · exact ⟨x, hentry, halike.symm⟩
      · exact ⟨y, hy, .refl _⟩
    · by_cases hc : compare y.path p = .eq
      · have hsame := h.keyed.eq_of_compare_eq hy hentry (TransCmp.eq_trans hc hpath)
        exact ⟨_, (hmem _).mpr (Or.inl rfl), hsame ▸ halike⟩
      · exact ⟨y, (hmem y).mpr (Or.inr ⟨hy, hc⟩), .refl _⟩

namespace Engine

/-- The unit at hand is for the content of the file, and the index has what it declares. -/
def anchored (e : Engine) (p : Path) : Bool :=
  match e.registry.content? p with
  | none => (e.index.file? p).isNone
  | some (_, print) => (e.parses.reusable? p print).any fun u =>
      (e.index.file? p).any fun x => x.symbols.declaresAs (Extraction.ofSource u)

/-- The index holds what binding the names of the file anew would give. -/
def steady (e : Engine) (p : Path) : Bool :=
  match e.registry.content? p with
  | none => (e.index.file? p).isNone
  | some (text, print) =>
    e.index.holds p print (e.symbolsFor text (e.parses.parseCached p text print).2)

theorem declaresAs_symbolsFor (e : Engine) (text : String) (u : SourceUnit) (f : FileSymbols) :
    f.declaresAs (e.symbolsFor text u) = f.declaresAs (Extraction.ofSource u) := by
  rw [symbolsFor]
  split <;> rfl

theorem symbolsFor_congr {e e' : Engine} (hkeeps : Keeps e e')
    (hlookup : e'.index.lookup = e.index.lookup) (text : String) (u : SourceUnit) :
    e'.symbolsFor text u = e.symbolsFor text u := by
  simp only [symbolsFor, contextOf, hlookup, hkeeps.config, hkeeps.classpath]

/-! ## The other files -/

/-- Of the files other than `p` an analysis finds what it found before. -/
structure Beside (e e' : Engine) (p : Path) : Prop where
  keeps : Keeps e e'
  unit : ∀ q, compare q p ≠ .eq → ∀ print, e'.parses.reusable? q print = e.parses.reusable? q print
  file : ∀ q, compare q p ≠ .eq → e'.index.file? q = e.index.file? q

variable {e e' : Engine} {p q : Path}

theorem anchored_congr (e : Engine) (h : compare q p = .eq) : e.anchored q = e.anchored p := by
  simp only [anchored, Registry.content?_congr _ h, Snapshot.file?_congr _ h,
    ParseCache.reusable?_congr _ h]

theorem Beside.anchored (h : Beside e e' p) (hne : compare q p ≠ .eq) :
    e'.anchored q = e.anchored q := by
  simp only [Engine.anchored, h.keeps.content, h.file q hne, h.unit q hne]

theorem Beside.steady (h : Beside e e' p) (hlookup : e'.index.lookup = e.index.lookup)
    (hne : compare q p ≠ .eq) : e'.steady q = e.steady q := by
  simp only [Engine.steady, Snapshot.holds, h.keeps.content, h.file q hne, h.unit q hne,
    ParseCache.parseCached_eq, symbolsFor_congr h.keeps hlookup, h.keeps.parse]

/-! ## Binding a file anew -/

/-- What an analysis that binds the names of `p` anew does. -/
structure Rebinds (e : Engine) (p : Path) (e' : Engine) (a : Analysis) : Prop where
  keeps : Keeps e e'
  effect : Effect e p .dependency e'.index a
  parses : e'.parses = match e.registry.content? p with
    | none => (e.parses.evict p).1
    | some (text, print) => (e.parses.parseCached p text print).1

theorem content?_of_missing (h : (e.registry.file p).2 = none) : e.registry.content? p = none := by
  rw [Registry.file, Option.map_eq_none_iff] at h
  rw [Registry.content?, h]
  rfl

theorem content?_of_found {file : SourceFile} (h : (e.registry.file p).2 = some file) :
    e.registry.content? p = some (file.text, file.fingerprint) := by
  obtain ⟨f, hf, rfl⟩ := Option.map_eq_some_iff.mp h
  rw [Registry.content?, hf]
  rfl

theorem parses_compute (e : Engine) (p : Path) (file : SourceFile) :
    (e.compute p file).1.parses = (e.parses.parseCached p file.text file.fingerprint).1 := by
  rw [compute]
  simp only [parses_storeRecord]

/-- Only a text that is bound may have been parsed. -/
theorem parses_symbolsOf (e : Engine) (p : Path) (t : Trigger) (file : SourceFile) :
    (e.symbolsOf p t file).1.parses = e.parses ∨
      (e.symbolsOf p t file).1.parses = (e.parses.parseCached p file.text file.fingerprint).1 := by
  cases t with
  | dependency => exact Or.inr (parses_compute e p file)
  | content =>
    have hcached := parses_cachedSymbols? e p file
    rw [symbolsOf]
    split
    next heq =>
      rw [heq] at hcached
      exact Or.inl hcached
    next e' heq =>
      rw [heq] at hcached
      simp only at hcached
      right
      rw [← hcached]
      exact parses_compute e' p file

theorem parses_analyzeFile (t : Trigger) {file : SourceFile} (h : (e.registry.file p).2 = some file) :
    (e.analyzeFile p t).1.parses = e.parses ∨
      (e.analyzeFile p t).1.parses = (e.parses.parseCached p file.text file.fingerprint).1 := by
  rcases hfile : e.registry.file p with ⟨registry, found⟩
  rw [hfile] at h
  obtain rfl : found = some file := h
  rw [analyzeFile_of_found hfile]
  simp only
  split
  · exact Or.inl rfl
  · exact parses_symbolsOf { e with registry := registry } p t file

theorem rebinds_analyzeFile (e : Engine) (p : Path) :
    Rebinds e p (e.analyzeFile p .dependency).1 (e.analyzeFile p .dependency).2 := by
  obtain ⟨hkeeps, heffect⟩ := analyzeFile_spec e p .dependency
  refine ⟨hkeeps, heffect, ?_⟩
  rcases hfile : e.registry.file p with ⟨registry, _ | file⟩
  · rw [analyzeFile_of_missing hfile, content?_of_missing (by rw [hfile]), forget]
  · rw [analyzeFile_of_found hfile, content?_of_found (by rw [hfile])]
    exact parses_compute { e with registry := registry } p file

variable {a : Analysis}

theorem Effect.file?_of_ne {t : Trigger} {after : Snapshot} (h : Effect e p t after a)
    (hne : compare q p ≠ .eq) : after.file? q = e.index.file? q := by
  cases h with
  | gone hfile => rw [file?_remove, if_neg hne]
  | passed file hfile htrigger => rfl
  | published file hfile symbols fromCache hsymbols after outcome hupsert =>
    obtain rfl : (e.index.upsert p file.fingerprint symbols).1 = after := by rw [hupsert]
    cases hholds : e.index.holds p file.fingerprint symbols with
    | true => rw [Snapshot.upsert_of_holds hholds]
    | false => rw [Snapshot.file?_upsert hholds, if_neg hne]

namespace Rebinds

theorem beside (h : Rebinds e p e' a) : Beside e e' p where
  keeps := h.keeps
  unit q hne print := by
    rw [h.parses]
    split
    · exact ParseCache.reusable?_evict hne print
    · exact e.parses.reusable?_parseCached_of_ne hne _ _ print
  file q hne := h.effect.file?_of_ne hne

theorem published (h : Rebinds e p e' a) {text : String} {print : Fingerprint}
    (hcontent : e.registry.content? p = some (text, print)) {symbols : FileSymbols}
    (hsymbols : e.symbolsFor text (e.parses.parseCached p text print).2 = symbols) :
    e'.index = (e.index.upsert p print symbols).1 ∧
      a.stale = staleAfter p (e.index.upsert p print symbols).2 e.index e'.index ∧
      a.requeue = (!(e.index.upsert p print symbols).2.unchanged &&
        e.bindingsMoved p (e.index.upsert p print symbols).2 e.index e'.index) := by
  obtain ⟨-, heffect, -⟩ := h
  generalize e'.index = after at heffect ⊢
  cases heffect with
  | gone hfile =>
    rw [content?_of_missing hfile] at hcontent
    simp at hcontent
  | passed file hfile htrigger => simp at htrigger
  | published file hfile bound fromCache hbound after outcome hupsert =>
    rw [content?_of_found hfile, Option.some_inj, Prod.mk.injEq] at hcontent
    obtain ⟨rfl, rfl⟩ := hcontent
    obtain rfl : bound = symbols := (Prod.mk.inj hbound).1.symm.trans hsymbols
    rw [hupsert]
    exact ⟨rfl, rfl, rfl⟩

theorem gone (h : Rebinds e p e' a) (hcontent : e.registry.content? p = none) :
    e'.index = (e.index.remove p).1 ∧ a.requeue = false ∧
      a.stale = if (e.index.remove p).2 then SortedSet.ofList (e.index.dependents p) else ∅ := by
  obtain ⟨-, heffect, -⟩ := h
  generalize e'.index = after at heffect ⊢
  cases heffect with
  | gone hfile => exact ⟨rfl, rfl, rfl⟩
  | passed file hfile htrigger => simp at htrigger
  | published file hfile symbols fromCache hsymbols after outcome hupsert =>
    rw [content?_of_found hfile] at hcontent
    simp at hcontent

/-- A steady file is published as it is indexed, so nothing follows from it. -/
theorem of_steady (h : Rebinds e p e' a) (hsteady : e.steady p = true) :
    e'.index = e.index ∧ a.stale = ∅ ∧ a.requeue = false := by
  rw [steady] at hsteady
  cases hcontent : e.registry.content? p with
  | none =>
    obtain ⟨hindex, hrequeue, hstale⟩ := h.gone hcontent
    simp only [hcontent, Option.isNone_iff_eq_none] at hsteady
    have hremove : e.index.remove p = (e.index, false) := by
      rw [Snapshot.remove, hsteady]
      rfl
    rw [hremove] at hindex hstale
    exact ⟨hindex, hstale, hrequeue⟩
  | some content =>
    obtain ⟨text, print⟩ := content
    obtain ⟨hindex, hstale, hrequeue⟩ := h.published hcontent rfl
    simp only [hcontent] at hsteady
    rw [Snapshot.upsert_of_holds hsteady] at hindex hstale hrequeue
    exact ⟨hindex, hstale, hrequeue⟩

theorem generation (h : Rebinds e p e' a) :
    e'.index.generation = e.index.generation + if e.steady p then 0 else 1 := by
  cases hsteady : e.steady p with
  | true => rw [(h.of_steady hsteady).1]; rfl
  | false =>
    rw [steady] at hsteady
    cases hcontent : e.registry.content? p with
    | none =>
      simp only [hcontent, Option.isNone_eq_false_iff] at hsteady
      rw [(h.gone hcontent).1, Snapshot.remove, if_pos hsteady]
      rfl
    | some content =>
      obtain ⟨text, print⟩ := content
      simp only [hcontent] at hsteady
      rw [(h.published hcontent rfl).1, Snapshot.generation_upsert, hsteady]

theorem unit_self (h : Rebinds e p e' a) {text : String} {print : Fingerprint}
    (hcontent : e.registry.content? p = some (text, print)) :
    e'.parses.reusable? p print = some (e.parses.parseCached p text print).2 := by
  rw [h.parses, hcontent]
  exact e.parses.reusable?_parseCached_self p text print

theorem file_self (h : Rebinds e p e' a) {text : String} {print : Fingerprint}
    (hcontent : e.registry.content? p = some (text, print)) :
    e'.index.holds p print (e.symbolsFor text (e.parses.parseCached p text print).2) = true := by
  obtain ⟨hindex, -⟩ := h.published hcontent rfl
  rw [hindex]
  exact e.index.holds_upsert p print _

theorem anchored_self (h : Rebinds e p e' a) : e'.anchored p = true := by
  rw [anchored, h.keeps.content]
  cases hcontent : e.registry.content? p with
  | none =>
    simp only [(h.gone hcontent).1, file?_remove, ReflCmp.compare_self, if_true,
      Option.isNone_none]
  | some content =>
    obtain ⟨text, print⟩ := content
    have hholds := h.file_self hcontent
    simp only [h.unit_self hcontent, Option.any_some]
    rw [Snapshot.holds, Option.any_eq_true] at hholds
    obtain ⟨x, hx, hsame⟩ := hholds
    rw [Bool.and_eq_true] at hsame
    rw [hx, Option.any_some, ← declaresAs_symbolsFor e text]
    exact FileSymbols.declaresAs_of_beq hsame.2

theorem anchored_of (h : Rebinds e p e' a) (hq : e.anchored q = true) : e'.anchored q = true := by
  by_cases hc : compare q p = .eq
  · rw [anchored_congr e' hc]
    exact h.anchored_self
  · rw [h.beside.anchored hc]
    exact hq

/-- If the file was anchored, every name means what it meant. -/
theorem lookup_eq (h : Rebinds e p e' a) (hindex : e.index.Exact)
    (hanchored : e.anchored p = true) : e'.index.lookup = e.index.lookup := by
  rw [anchored] at hanchored
  cases hcontent : e.registry.content? p with
  | none =>
    simp only [hcontent, Option.isNone_iff_eq_none] at hanchored
    rw [(h.gone hcontent).1, Snapshot.remove, hanchored]
    rfl
  | some content =>
    obtain ⟨text, print⟩ := content
    simp only [hcontent, Option.any_eq_true] at hanchored
    obtain ⟨u, hu, x, hx, hdeclares⟩ := hanchored
    rw [← declaresAs_symbolsFor e text] at hdeclares
    rw [(h.published hcontent rfl).1, ParseCache.parseCached_of_reusable? hu]
    exact hindex.lookup_upsert hx (FileSymbols.alike_of_declaresAs hdeclares)

/-- Where names mean what they meant, the file is steady from now on, however its path is spelled. -/
theorem steady_of_eq (h : Rebinds e p e' a) (hlookup : e'.index.lookup = e.index.lookup)
    (hc : compare q p = .eq) : e'.steady q = true := by
  rw [steady, h.keeps.content, Registry.content?_congr _ hc]
  cases hcontent : e.registry.content? p with
  | none =>
    simp only [Snapshot.file?_congr _ hc, (h.gone hcontent).1, file?_remove,
      ReflCmp.compare_self, if_true, Option.isNone_none]
  | some content =>
    obtain ⟨text, print⟩ := content
    have hunit := h.unit_self hcontent
    rw [← ParseCache.reusable?_congr _ hc] at hunit
    simp only [ParseCache.parseCached_of_reusable? hunit, symbolsFor_congr h.keeps hlookup,
      Snapshot.holds, Snapshot.file?_congr _ hc]
    exact h.file_self hcontent

theorem steady_of (h : Rebinds e p e' a) (hlookup : e'.index.lookup = e.index.lookup)
    (hq : e.steady q = true) : e'.steady q = true := by
  by_cases hc : compare q p = .eq
  · exact h.steady_of_eq hlookup hc
  · rw [h.beside.steady hlookup hc]
    exact hq

end Rebinds

end Engine

end JavaAtlas
