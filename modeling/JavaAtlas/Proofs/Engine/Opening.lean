import JavaAtlas.Proofs.Engine.Drain
import Mathlib.Data.List.Pairwise

/-!
# Opening files one by one

Without a store, and with each file opened once, the unit at hand for a file is that of its text, and
the index shows a file as some analysis of that text has bound it. A new file is bound against the
index without it. From then on names keep their meaning until the next file is opened, so a file that
is not steady at rest has not been looked at since.
-/

namespace JavaAtlas

set_option autoImplicit false

open Std (TransCmp OrientedCmp ReflCmp)

namespace Registry

theorem text?_openFile (r : Registry) (p : Path) (text : String) (x : Path) :
    (r.openFile p text).1.text? x = if compare x p.normalize = .eq then some text else r.text? x := by
  have hset : (r.openFile p text).1.files.get? x =
      (r.setText p.normalize text).1.files.get? x := rfl
  rw [Registry.text?, hset, setText]
  cases r.files.get? p.normalize with
  | none =>
    simp only [SortedMap.get?_insert]
    split <;> rfl
  | some file =>
    simp only [SortedMap.get?_insert]
    split <;> rfl

end Registry

namespace ParseCache

theorem reusable?_of_parseCached {c : ParseCache} {p q : Path} {text : String} {print print' : Fingerprint}
    {u : SourceUnit} (h : (c.parseCached p text print).1.reusable? q print' = some u) :
    c.reusable? q print' = some u ∨
      (compare q p = .eq ∧ u = c.parse p text print) := by
  rw [parseCached] at h
  split at h
  · exact Or.inl h
  · rw [reusable?, cached?, SortedMap.get?_insert] at h
    split at h
    next hc => exact Or.inr ⟨hc, (Option.some.inj (Option.filter_eq_some_iff.mp h).1).symm⟩
    next => exact Or.inl h

end ParseCache

namespace Engine

theorem located_freshSymbols (e : Engine) (p : Path) (text : String) :
    (e.freshSymbols p text).Located p := by
  have hunit := FileSymbols.located_declarations (e.parses.parse p text (.ofText text))
  rw [ParseCache.parse, SourceUnit.path_parse] at hunit
  rw [freshSymbols]
  split <;> exact hunit

/-- The file is indexed with these symbols. -/
def Shows (e : Engine) (p : Path) (symbols : FileSymbols) : Prop :=
  ∃ x, e.index.file? p = some x ∧ x.path = p ∧ x.symbols = symbols

/-- Each file has had one text, and no other file is known. -/
structure Hosts (e : Engine) (files : List (Path × String)) : Prop where
  distinct : files.Pairwise fun a b => compare a.1 b.1 ≠ .eq
  within : e.Within (· ∈ files.map (·.1))
  text : ∀ f ∈ files, e.registry.content? f.1 = some (f.2, .ofText f.2)
  unit : ∀ q print u, e.parses.reusable? q print = some u →
    ∃ f ∈ files, compare q f.1 = .eq ∧ u = e.parses.parse f.1 f.2 (.ofText f.2)
  located : ∀ x ∈ e.index.entries, x.symbols.Located x.path

namespace Hosts

variable {e e' : Engine} {files : List (Path × String)} {f g : Path × String} {a : Analysis}

theorem eq_of_compare (h : e.Hosts files) (hf : f ∈ files) (hg : g ∈ files)
    (hc : compare f.1 g.1 = .eq) : f = g := by
  have hsymm : Std.Symm fun a b : Path × String => compare a.1 b.1 ≠ .eq :=
    ⟨fun _ _ hne hc => hne (OrientedCmp.eq_symm hc)⟩
  by_contra hne
  exact h.distinct.forall hf hg hne hc

theorem parseCached_eq (h : e.Hosts files) (hf : f ∈ files) :
    (e.parses.parseCached f.1 f.2 (.ofText f.2)).2 = e.parses.parse f.1 f.2 (.ofText f.2) := by
  rw [ParseCache.parseCached_eq]
  cases hunit : e.parses.reusable? f.1 (.ofText f.2) with
  | none => rfl
  | some u =>
    obtain ⟨g, hg, hc, rfl⟩ := h.unit _ _ u hunit
    rw [h.eq_of_compare hf hg hc]
    rfl

theorem symbolsFor_eq (h : e.Hosts files) (hf : f ∈ files) :
    e.symbolsFor f.2 (e.parses.parseCached f.1 f.2 (.ofText f.2)).2 = e.freshSymbols f.1 f.2 := by
  rw [h.parseCached_eq hf]
  rfl

theorem index_rebinds (h : e.Hosts files) (hf : f ∈ files) (hrebinds : Rebinds e f.1 e' a) :
    e'.index = (e.index.upsert f.1 (.ofText f.2) (e.freshSymbols f.1 f.2)).1 :=
  (hrebinds.published (h.text f hf) (h.symbolsFor_eq hf)).1

theorem of_effect {t : Trigger} (h : e.Hosts files) (hindex : e.index.Exact) (hf : f ∈ files)
    (hkeeps : Keeps e e') (heffect : Effect e f.1 t e'.index a)
    (hparses : e'.parses = e.parses ∨ e'.parses = (e.parses.parseCached f.1 f.2 (.ofText f.2)).1)
    (hlocated : ∀ x ∈ e'.index.entries, x.symbols.Located x.path) : e'.Hosts files where
  distinct := h.distinct
  within := by
    refine ⟨?_, ?_, fun x hx => ?_⟩
    · rw [hkeeps.queue]
      exact h.within.queue
    · rw [hkeeps.inFlight]
      exact h.within.inFlight
    · rcases heffect.mem_entries hindex hx with hx | hx
      · exact h.within.indexed x hx
      · rw [hx]
        exact List.mem_map_of_mem hf
  text g hg := (hkeeps.content g.1).trans (h.text g hg)
  unit q print u hu := by
    rw [hkeeps.parse]
    rcases hparses with hparses | hparses
    · exact h.unit q print u (hparses ▸ hu)
    · rw [hparses] at hu
      rcases ParseCache.reusable?_of_parseCached hu with hu | ⟨hc, rfl⟩
      · exact h.unit q print u hu
      · exact ⟨f, hf, hc, rfl⟩
  located := hlocated

theorem rebinds (h : e.Hosts files) (hindex : e.index.Exact) (hf : f ∈ files)
    (hrebinds : Rebinds e f.1 e' a) : e'.Hosts files := by
  have hparses := hrebinds.parses
  simp only [h.text f hf] at hparses
  apply h.of_effect hindex hf hrebinds.keeps hrebinds.effect (Or.inr hparses)
  intro x hx
  rw [h.index_rebinds hf hrebinds] at hx
  rcases hindex.mem_or_eq_of_mem_upsert hx with hx | rfl
  · exact h.located x hx
  · exact e.located_freshSymbols f.1 f.2

theorem withJobs {p : Path} {t : Trigger} {rest : List (Path × Trigger)} (h : e.Hosts files)
    (hin : e.inFlight = (p, t) :: rest) : (e.withJobs rest).Hosts files :=
  { h with
    within := ⟨h.within.queue, fun job hjob => h.within.inFlight job
      (hin ▸ List.mem_cons_of_mem _ hjob), h.within.indexed⟩ }

theorem conclude {p : Path} (h : e.Hosts files) (hwithin : (e.conclude p a).Within (· ∈ files.map (·.1))) :
    (e.conclude p a).Hosts files :=
  { h with within := hwithin }

theorem exists_file {p : Path} {t : Trigger} {rest : List (Path × Trigger)} (h : e.Hosts files)
    (hin : e.inFlight = (p, t) :: rest) : ∃ f ∈ files, f.1 = p :=
  List.mem_map.mp (h.within.inFlight (p, t) (hin ▸ List.mem_cons_self))

theorem exists_of_indexed (h : e.Hosts files) (hindex : e.index.Exact) {q : Path} {x : FileEntry}
    (hx : e.index.file? q = some x) : ∃ f ∈ files, x.path = f.1 ∧ compare q f.1 = .eq := by
  obtain ⟨hmem, hc⟩ := hindex.file?_eq_some_iff.mp hx
  obtain ⟨f, hf, hpath⟩ := List.mem_map.mp (h.within.indexed x hmem)
  exact ⟨f, hf, hpath.symm, hpath ▸ hc⟩

theorem not_indexed (h : e.Hosts files) (hindex : e.index.Exact) {p : Path}
    (hnew : ∀ f ∈ files, compare f.1 p ≠ .eq) : e.index.file? p = none := by
  rw [Option.eq_none_iff_forall_ne_some]
  intro x hx
  obtain ⟨f, hf, -, hc⟩ := h.exists_of_indexed hindex hx
  exact hnew f hf (OrientedCmp.eq_symm hc)

theorem path_eq (h : e.Hosts files) (hindex : e.index.Exact) (hf : f ∈ files) {x : FileEntry}
    (hx : e.index.file? f.1 = some x) : x.path = f.1 := by
  obtain ⟨g, hg, hpath, hc⟩ := h.exists_of_indexed hindex hx
  rw [hpath, h.eq_of_compare hf hg hc]

theorem shows_of_steady (h : e.Hosts files) (hindex : e.index.Exact) (hf : f ∈ files)
    (hsteady : e.steady f.1 = true) : e.Shows f.1 (e.freshSymbols f.1 f.2) := by
  rw [steady, h.text f hf] at hsteady
  simp only [h.symbolsFor_eq hf] at hsteady
  rw [Snapshot.holds, Option.any_eq_true] at hsteady
  obtain ⟨x, hx, hsame⟩ := hsteady
  have hpath := h.path_eq hindex hf hx
  rw [Bool.and_eq_true] at hsame
  have hlocated := h.located x (hindex.file?_eq_some_iff.mp hx).1
  rw [hpath] at hlocated
  exact ⟨x, hx, hpath, hlocated.eq_of_beq (e.located_freshSymbols f.1 f.2) hsame.2⟩

theorem alike_of_anchored (h : e.Hosts files) (hindex : e.index.Exact) (hf : f ∈ files)
    (hanchored : e.anchored f.1 = true) :
    ∃ x, e.index.file? f.1 = some x ∧ x.path = f.1 ∧ x.symbols.Alike (e.freshSymbols f.1 f.2) := by
  rw [anchored, h.text f hf] at hanchored
  simp only [Option.any_eq_true] at hanchored
  obtain ⟨u, hu, x, hx, hdeclares⟩ := hanchored
  have hunit : u = (e.parses.parseCached f.1 f.2 (.ofText f.2)).2 := by
    rw [ParseCache.parseCached_of_reusable? hu]
  rw [← declaresAs_symbolsFor e f.2, hunit, h.symbolsFor_eq hf] at hdeclares
  exact ⟨x, hx, h.path_eq hindex hf hx, FileSymbols.alike_of_declaresAs hdeclares⟩

end Hosts

/-- Nothing is stored either. -/
structure Plain (e : Engine) (files : List (Path × String)) : Prop extends Hosts e files where
  store : e.store = none

namespace Plain

variable {e e' : Engine} {files : List (Path × String)} {f : Path × String} {a : Analysis}

theorem step_of_rebinds {t : Trigger} {rest : List (Path × Trigger)} (h : e.Plain files)
    (hindex : e.index.Exact) (hf : f ∈ files) (hin : e.inFlight = (f.1, t) :: rest)
    (hrebinds : Rebinds (e.withJobs rest) f.1 e' a) (hstep : e.step = e'.conclude f.1 a) :
    e.step.Plain files := by
  have hwithin := h.within.step hindex
  rw [hstep] at hwithin ⊢
  refine ⟨((h.withJobs hin).rebinds hindex hf hrebinds).conclude hwithin, ?_⟩
  exact hrebinds.keeps.store.trans h.store

theorem step (h : e.Plain files) (hrebinding : e.Rebinding) : e.step.Plain files := by
  cases hin : e.inFlight with
  | nil => rwa [step_of_nil hin]
  | cons job rest =>
    obtain ⟨p, t⟩ := job
    obtain ⟨f, hf, rfl⟩ := h.exists_file hin
    obtain ⟨-, e', a, hrebinds, hstep⟩ := hrebinding.next hin
    exact h.step_of_rebinds hrebinding.exact hf hin hrebinds hstep

theorem run (h : e.Plain files) (hrebinding : e.Rebinding) (n : Nat) : (e.run n).Plain files := by
  have hrun : (e.run n).Plain files ∧ (e.run n).Rebinding := by
    refine run_of_step (P := fun after => after.Plain files ∧ after.Rebinding) ?_ n ⟨h, hrebinding⟩
    rintro after ⟨hplain, hrebinding⟩
    exact ⟨hplain.step hrebinding, hrebinding.step⟩
  exact hrun.1

end Plain

/-! ## Opening a file -/

/-- What opening a file at rest leaves to be done. -/
structure Opens (e e' : Engine) (p : Path) (text : String) : Prop where
  sane : System.Sane ⟨e', [], .free⟩
  inFlight : e'.inFlight = [(p, .content)]
  work : e'.queue.contentWork = 0
  waiting : e'.queue.Within (· = p)
  config : e'.config = e.config
  classpath : e'.classpath = e.classpath
  store : e'.store = e.store
  index : e'.index = e.index
  parses : e'.parses = e.parses
  content : ∀ q, e'.registry.content? q =
    if compare q p = .eq then some (text, .ofText text) else e.registry.content? q

theorem schedule_single {e : Engine} (hstore : e.store = none) (p : Path) (t : Trigger) :
    e.schedule [p] t = e.enqueueBatch [p] [] t := by
  have horder : e.orderBatch [p] = (e, [p], []) := by
    rw [orderBatch, show SortedSet.toList (SortedSet.ofList [p]) = [p] from rfl]
    simp only [hstore]
    rfl
  rw [schedule_eq, horder]

/-- At rest the registry reports just the file that was opened. -/
theorem AtRest.drainChanges_openFile {e : Engine} (h : e.AtRest) (p : Path) (text : String) :
    ∃ registry : Registry, { e with registry := (e.registry.openFile p text).1 }.drainChanges.1 =
        { e with registry := registry }.schedule [p.normalize] .content ∧
      registry.files = (e.registry.openFile p text).1.files := by
  obtain ⟨paths, htold, hnone⟩ := h.sane.invariant.told
  rw [hnone (by simp)] at htold
  have hreported := (e.registry.reports_openFile p text).told [] htold
  obtain ⟨hevents, -, hfiles, -⟩ := System.collect_of_told hreported
  generalize (e.registry.openFile p text).1 = opened at *
  rcases hcollect : opened.collect 0 with ⟨registry, events⟩
  rw [hcollect] at hevents hfiles
  simp only at hevents hfiles
  have hsome : events.isEmpty = false := by
    cases events with
    | nil => simp at hevents
    | cons event events => rfl
  refine ⟨registry, ?_, hfiles⟩
  simp only [drainChanges, hcollect, hsome, Bool.false_eq_true, if_false, hevents, List.nil_append]

theorem AtRest.openFile {e e' : Engine} (h : e.AtRest) (hstore : e.store = none) {p : Path}
    {text : String} {version : Nat} (hopen : e.openFile p text = (e', .ok version)) :
    Opens e e' p.normalize text := by
  have hsane := h.sane.run (System.run_call (Call.run_openFile hopen) [])
  obtain ⟨registry, hdrained, hfiles⟩ := h.drainChanges_openFile p text
  have htext (q : Path) : registry.text? q =
      if compare q p.normalize = .eq then some text else e.registry.text? q := by
    rw [Registry.text?, hfiles, ← Registry.text?, Registry.text?_openFile]
  obtain ⟨hqueue, hin⟩ := h.empty
  obtain ⟨l, hreached, -⟩ := h.sane.traced.history
  have hworkers : 0 < e.workers := Nat.le_max_right _ _
  obtain ⟨hjob, hleft⟩ := Queue.schedule_single (Queue.runs_of_reached hreached).kept h.idle hworkers
    p.normalize [] .content
  have hwork : (e.queue.schedule e.workers [p.normalize] [] .content).1.contentWork = 0 := by
    rw [Queue.contentWork, hleft]
    rfl
  have hwaiting : e.queue.Within (· = p.normalize) := by
    rw [Queue.Within, hqueue]
    simp
  rw [Engine.openFile] at hopen
  split at hopen
  · have heq : e' = { e with registry := registry }.enqueueBatch [p.normalize] [] .content := by
      rw [← schedule_single (e := { e with registry := registry }) hstore, ← hdrained]
      exact (Prod.mk.inj hopen).1.symm
    subst heq
    refine ⟨hsane, ?_, hwork, ?_, rfl, rfl, rfl, rfl, rfl, ?_⟩
    · simp only [enqueueBatch, hin, List.nil_append]
      exact hjob
    · exact (hwaiting.schedule (by simp) e.workers [] .content).1
    · intro q
      have hsound : registry.Sound := hsane.invariant.sound
      show registry.content? q = _
      rw [hsound.content?_eq, htext, h.sane.invariant.sound.content?_eq]
      split <;> rfl
  · simp at hopen

/-- Without a store a file that is not indexed is bound as if its names were to be bound anew. -/
theorem analyzeFile_content {e : Engine} (hstore : e.store = none) {p : Path}
    (hnew : e.index.file? p = none) :
    e.analyzeFile p .content = e.analyzeFile p .dependency := by
  rcases hfile : e.registry.file p with ⟨registry, _ | file⟩
  · rw [analyzeFile_of_missing hfile, analyzeFile_of_missing hfile]
  · have hskip (t : Trigger) : { e with registry := registry }.skips e.index p t file = false := by
      simp [skips, isUpToDate, Snapshot.fingerprint?, hnew]
    have hmiss : { e with registry := registry }.cachedSymbols? p file =
        ({ e with registry := registry }, none) := by
      rw [cachedSymbols?, loadMatching]
      simp only [hstore]
    rw [analyzeFile_of_found hfile, analyzeFile_of_found hfile]
    simp only [hskip, symbolsOf, hmiss]

namespace Opens

variable {e e' : Engine} {files : List (Path × String)} {p : Path} {text : String}

theorem plain (h : Opens e e' p text) (hplain : e.Plain files)
    (hnew : ∀ f ∈ files, compare f.1 p ≠ .eq) : e'.Plain (files ++ [(p, text)]) where
  distinct := by
    rw [List.pairwise_append]
    refine ⟨hplain.distinct, List.pairwise_singleton _ _, fun f hf g hg => ?_⟩
    rw [List.mem_singleton.mp hg]
    exact hnew f hf
  store := h.store.trans hplain.store
  within := by
    have hlast : p ∈ (files ++ [(p, text)]).map (·.1) :=
      List.mem_map_of_mem (List.mem_append_right _ List.mem_cons_self)
    refine ⟨fun q hq => h.waiting q hq ▸ hlast, fun job hjob => ?_, fun x hx => ?_⟩
    · rw [h.inFlight] at hjob
      rw [List.mem_singleton.mp hjob]
      exact hlast
    · rw [h.index] at hx
      rw [List.map_append]
      exact List.mem_append_left _ (hplain.within.indexed x hx)
  text f hf := by
    rw [h.content]
    rcases List.mem_append.mp hf with hf | hf
    · rw [if_neg (hnew f hf), hplain.text f hf]
    · rw [List.mem_singleton.mp hf, if_pos ReflCmp.compare_self]
  unit q print u hu := by
    rw [h.parses] at hu ⊢
    obtain ⟨f, hf, hunit⟩ := hplain.unit q print u hu
    exact ⟨f, List.mem_append_left _ hf, hunit⟩
  located x hx := hplain.located x (h.index ▸ hx)

/-- The new file is bound against the index without it. -/
theorem rebinds (h : Opens e e' p text) (hstore : e.store = none) (hnew : e.index.file? p = none) :
    ∃ after a, Rebinds (e'.withJobs []) p after a ∧ e'.step = after.conclude p a := by
  obtain ⟨after, a, hanalyze, -, -, hstep⟩ := step_of_cons h.inFlight
  have hsame := analyzeFile_content (e := e'.withJobs []) (h.store.trans hstore)
    ((congrArg (·.file? p) h.index).trans hnew)
  have hrebinds := rebinds_analyzeFile (e'.withJobs []) p
  rw [← hsame, hanalyze] at hrebinds
  exact ⟨after, a, hrebinds, hstep⟩

theorem freshSymbols_eq (h : Opens e e' p text) (q : Path) (t : String) :
    e'.freshSymbols q t = e.freshSymbols q t := by
  simp only [freshSymbols, contextOf, h.index, h.config, h.classpath, h.parses]

theorem step_spec (h : Opens e e' p text) (hplain : e.Plain files) (hindex : e.index.Exact)
    (hnew : ∀ f ∈ files, compare f.1 p ≠ .eq) : e'.step.Plain (files ++ [(p, text)]) ∧
      e'.step.index = (e.index.upsert p (.ofText text) (e.freshSymbols p text)).1 ∧
      ∃ after a, Rebinds (e'.withJobs []) p after a ∧ e'.step = after.conclude p a ∧
        a.stale = staleAfter p (e.index.changeReport p (e.freshSymbols p text)) e.index
          e'.step.index := by
  have hnone := hplain.not_indexed hindex hnew
  obtain ⟨after, a, hrebinds, hstep⟩ := h.rebinds hplain.store hnone
  have hboth := h.plain hplain hnew
  have hf : (p, text) ∈ files ++ [(p, text)] := List.mem_append_right _ List.mem_cons_self
  have hjobs := hboth.withJobs h.inFlight
  have hcontent : (e'.withJobs []).registry.content? p = some (text, .ofText text) :=
    hjobs.text (p, text) hf
  have hsymbols : (e'.withJobs []).symbolsFor text
      ((e'.withJobs []).parses.parseCached p text (.ofText text)).2 = e.freshSymbols p text :=
    (hjobs.symbolsFor_eq hf).trans (h.freshSymbols_eq p text)
  have hpublished := hrebinds.published hcontent hsymbols
  have hbefore : (e'.withJobs []).index = e.index := h.index
  have hholds := Snapshot.not_holds_of_none hnone (.ofText text) (e.freshSymbols p text)
  simp only [hbefore, Snapshot.upsert_of_not_holds hholds] at hpublished
  have hafter : e'.step.index = after.index := by rw [hstep, index_conclude]
  have hexact : e'.index.Exact := by
    rw [h.index]
    exact hindex
  refine ⟨hboth.step_of_rebinds hexact hf h.inFlight hrebinds hstep,
    hafter.trans hpublished.1, after, a, hrebinds, hstep, ?_⟩
  rw [hafter]
  exact hpublished.2.1

end Opens

/-- The names that publishing a new file makes others be bound anew for. -/
def brings (index : Snapshot) (symbols : FileSymbols) : List String :=
  symbols.types.map (·.name) ++ symbols.package.toList.filter fun package => !index.hasPackage package

theorem mem_added_of_brings {s : Snapshot} {p : Path} {symbols : FileSymbols} (hnew : s.file? p = none)
    {name : String} (h : name ∈ brings s symbols) :
    name ∈ SortedSet.toList (s.changeReport p symbols).addedTypeNames ++
      SortedSet.toList (s.changeReport p symbols).addedPackages := by
  have hothers : s.removeFile p = s := by
    rw [Snapshot.file?] at hnew
    rw [Snapshot.removeFile, hnew]
  simp only [Snapshot.changeReport, hnew, hothers, List.mem_append]
  rcases List.mem_append.mp h with h | h
  · exact Or.inl (SortedSet.mem_ofList (List.mem_filter.mpr ⟨h, by simp⟩))
  · exact Or.inr (SortedSet.mem_ofList h)

theorem oneOf_staleAfter {s after : Snapshot} {p : Path} {symbols : FileSymbols}
    (hnew : s.file? p = none) (hafter : after.Exact) {x : FileEntry} (hx : x ∈ after.entries)
    (hne : compare x.path p ≠ .eq) {name : String} (hname : name ∈ x.symbols.unresolved)
    (hbrings : name ∈ brings s symbols) :
    x.path.OneOf (SortedSet.toList (staleAfter p (s.changeReport p symbols) s after)) := by
  have hunresolved : x.path ∈ MultiMap.lookup after.unresolved name :=
    (hafter.mem_unresolved_iff name x.path).mpr ⟨x, hx, rfl, hname⟩
  have hwaits : x.path.OneOf (after.filesWithUnresolved
      (SortedSet.toList (s.changeReport p symbols).addedTypeNames ++
        SortedSet.toList (s.changeReport p symbols).addedPackages)) :=
    SortedSet.exists_mem_ofList
      (List.mem_flatMap.mpr ⟨name, mem_added_of_brings hnew hbrings, hunresolved⟩)
  obtain ⟨y, hy, hc⟩ := hwaits
  refine SortedSet.contains_iff_exists_mem.mp ?_
  rw [staleAfter, if_neg (by simp [Snapshot.changeReport]), SortedMap.contains_erase,
    SortedSet.contains_ofList, Bool.and_eq_true, bne_iff_ne, List.any_eq_true]
  exact ⟨hne, y, List.mem_append_right _ hy, by simp [hc]⟩

theorem Firm.file?_or_steady {e : Engine} (h : e.Firm) (n : Nat) (q : Path) :
    (e.run n).steady q = true ∨ (e.run n).index.file? q = e.index.file? q := by
  have hrun : (e.run n).Firm ∧
      ((e.run n).steady q = true ∨ (e.run n).index.file? q = e.index.file? q) := by
    refine run_of_step (P := fun after => after.Firm ∧
      (after.steady q = true ∨ after.index.file? q = e.index.file? q)) ?_ n ⟨h, Or.inr rfl⟩
    rintro after ⟨hfirm, hq⟩
    refine ⟨hfirm.step, ?_⟩
    rcases hq with hq | hq
    · exact Or.inl (hfirm.steady_step hq)
    · cases hin : after.inFlight with
      | nil =>
        rw [step_of_nil hin]
        exact Or.inr hq
      | cons job rest =>
        by_cases hc : compare q job.1 = .eq
        · exact Or.inl (hfirm.steady_first hin hc)
        · obtain ⟨-, e', a, hrebinds, hstep⟩ := hfirm.next hin
          rw [hstep, index_conclude, hrebinds.beside.file q hc]
          exact Or.inr hq
  exact hrun.2

/-- These files have been opened, nothing is left to do, and each file shows what its text declares. -/
structure Loaded (e : Engine) (files : List (Path × String)) : Prop extends AtRest e, Plain e files where
  anchored : ∀ q, e.anchored q = true

namespace Loaded

variable {e e' : Engine} {files : List (Path × String)} {p : Path} {text : String} {f : Path × String}

theorem exact (h : e.Loaded files) : e.index.Exact := h.sane.traced.exact

/-- Once the new file is bound, names keep their meaning. -/
theorem firm (h : e.Loaded files) (hopen : Opens e e' p text)
    (hnew : ∀ f ∈ files, compare f.1 p ≠ .eq) : e'.step.Firm := by
  obtain ⟨after, a, hrebinds, hstep⟩ := hopen.rebinds h.store (h.not_indexed h.exact hnew)
  refine ⟨⟨⟨.free, hopen.sane.run (System.run_step e' [] .free)⟩, ?_⟩, fun q => ?_⟩
  · obtain ⟨l, hreached, hl⟩ := hopen.sane.traced.history
    have hjob : p ∈ l.jobs := by
      rw [hl.mem_iff]
      simp [System.jobs, hopen.inFlight]
    have hle := contentWork_step hopen.inFlight (Queue.runs_of_reached hreached).kept hjob
    have hbefore : e'.contentWork = 1 := by
      rw [contentWork, hopen.inFlight, hopen.work]
      rfl
    rw [hbefore, if_pos rfl] at hle
    exact Nat.le_zero.mp (Nat.le_of_succ_le_succ hle)
  · rw [hstep, anchored_conclude]
    by_cases hc : compare q p = .eq
    · rw [anchored_congr after hc]
      exact hrebinds.anchored_self
    · -- of the other files nothing is known that was not known before
      rw [hrebinds.beside.anchored hc]
      have hbefore := h.anchored q
      simp only [Engine.anchored] at hbefore ⊢
      simpa only [withJobs, hopen.content, if_neg hc, hopen.index, hopen.parses] using hbefore

theorem pends_of_brings (h : e.Loaded files) (hopen : Opens e e' p text)
    (hnew : ∀ f ∈ files, compare f.1 p ≠ .eq) {x : FileEntry} (hx : x ∈ e.index.entries)
    (hne : compare x.path p ≠ .eq) {name : String} (hname : name ∈ x.symbols.unresolved)
    (hbrings : name ∈ brings e.index (e.freshSymbols p text)) : e'.step.Pends x.path := by
  obtain ⟨-, hindex, after, a, hrebinds, hstep, hstale⟩ := hopen.step_spec h.toPlain h.exact hnew
  have hnone := h.not_indexed h.exact hnew
  have hexact : e'.step.index.Exact := (h.firm hopen hnew).exact
  have hmem : x ∈ e'.step.index.entries := by
    rw [hindex, h.exact.mem_entries_upsert_iff (Snapshot.not_holds_of_none hnone _ _)]
    exact Or.inr ⟨hx, hne⟩
  have hasked := oneOf_staleAfter hnone hexact hmem hne hname hbrings
  rw [← hstale] at hasked
  have hwell := hopen.sane.invariant.queue
  simp only [System.jobs, hopen.inFlight, List.map_nil, List.append_nil, List.map_cons] at hwell
  rw [hstep]
  refine pends_conclude ?_ a (Or.inr (oneOf_asked_of_verdict (Or.inl hasked) hne))
  rw [hrebinds.keeps.queue, hrebinds.keeps.inFlight]
  exact hwell

theorem exists_run (hopen : Opens e e' p text) {n : Nat} (hidle : (e'.run n).isIdle = true) :
    ∃ m, e'.run n = e'.step.run m := by
  cases n with
  | zero =>
    have hrest : e'.AtRest := ⟨hopen.sane, hidle⟩
    have hempty := hrest.empty.2
    simp [hopen.inFlight] at hempty
  | succ n =>
    refine ⟨n, ?_⟩
    rw [run, if_neg (by simp [hopen.inFlight])]

theorem opened (h : e.Loaded files) (hopen : Opens e e' p text)
    (hnew : ∀ f ∈ files, compare f.1 p ≠ .eq) {n : Nat} (hidle : (e'.run n).isIdle = true) :
    (e'.run n).Loaded (files ++ [(p, text)]) := by
  have hfirm := h.firm hopen hnew
  obtain ⟨hplain, -⟩ := hopen.step_spec h.toPlain h.exact hnew
  obtain ⟨m, hrun⟩ := exists_run hopen hidle
  refine ⟨⟨hopen.sane.run (System.run_analyses e' [] .free n), hidle⟩, ?_, fun q => ?_⟩
  · rw [hrun]
    exact hplain.run hfirm.toRebinding m
  · rw [hrun] at hidle ⊢
    exact (hfirm.toRebinding.anchored_run hidle (Or.inl (hfirm.anchored q))).2

/-- A file is indexed as it was once the new file was published, or it has been bound anew since. -/
theorem file?_or_steady (h : e.Loaded files) (hopen : Opens e e' p text)
    (hnew : ∀ f ∈ files, compare f.1 p ≠ .eq) {n : Nat} (hidle : (e'.run n).isIdle = true) (q : Path) :
    (e'.run n).steady q = true ∨ (e'.run n).index.file? q =
      if compare q p = .eq then some ⟨p, .ofText text, e.freshSymbols p text⟩ else e.index.file? q := by
  have hfirm := h.firm hopen hnew
  obtain ⟨-, hindex, -⟩ := hopen.step_spec h.toPlain h.exact hnew
  obtain ⟨m, hrun⟩ := exists_run hopen hidle
  have hholds := Snapshot.not_holds_of_none (h.not_indexed h.exact hnew) (.ofText text)
    (e.freshSymbols p text)
  rw [hrun, ← Snapshot.file?_upsert hholds, ← hindex]
  exact hfirm.file?_or_steady m q

end Loaded

def ShowsFresh (e : Engine) (f : Path × String) : Prop := e.Shows f.1 (e.freshSymbols f.1 f.2)

namespace Loaded

variable {e e' : Engine} {files : List (Path × String)} {p : Path} {text : String} {f : Path × String}

theorem showsFresh_of_steady (h : e.Loaded files) (hf : f ∈ files) (hsteady : e.steady f.1 = true) :
    e.ShowsFresh f := h.shows_of_steady h.exact hf hsteady

theorem showsFresh_new (h : e.Loaded files) (hopen : Opens e e' p text)
    (hnew : ∀ f ∈ files, compare f.1 p ≠ .eq) {n : Nat} (hidle : (e'.run n).isIdle = true)
    (hsame : (e'.run n).freshSymbols p text = e.freshSymbols p text) : (e'.run n).ShowsFresh (p, text) := by
  rcases h.file?_or_steady hopen hnew hidle p with hsteady | hfile
  · have hmem : (p, text) ∈ files ++ [(p, text)] := List.mem_append_right _ List.mem_cons_self
    exact (h.opened hopen hnew hidle).showsFresh_of_steady hmem hsteady
  · rw [if_pos ReflCmp.compare_self] at hfile
    exact ⟨_, hfile, rfl, hsame.symm⟩

/-- Another file stays up to date if the new one changes nothing for it or brings a name it had failed
on. -/
theorem showsFresh_old (h : e.Loaded files) (hopen : Opens e e' p text)
    (hnew : ∀ f ∈ files, compare f.1 p ≠ .eq) {n : Nat} (hidle : (e'.run n).isIdle = true)
    (hf : f ∈ files) (hfresh : e.ShowsFresh f)
    (hsame : (e'.run n).freshSymbols f.1 f.2 = e.freshSymbols f.1 f.2 ∨
      ∃ name ∈ (e.freshSymbols f.1 f.2).unresolved, name ∈ brings e.index (e.freshSymbols p text)) :
    (e'.run n).ShowsFresh f := by
  have hafter := h.opened hopen hnew hidle
  have hmem : f ∈ files ++ [(p, text)] := List.mem_append_left _ hf
  obtain ⟨x, hx, hpath, hsymbols⟩ := hfresh
  rcases hsame with hsame | ⟨name, hname, hbrings⟩
  · rcases h.file?_or_steady hopen hnew hidle f.1 with hsteady | hfile
    · exact hafter.showsFresh_of_steady hmem hsteady
    · rw [if_neg (hnew f hf), hx] at hfile
      exact ⟨x, hfile, hpath, hsymbols.trans hsame.symm⟩
  · -- the file pends once the new one is published, so it is steady in the end
    apply hafter.showsFresh_of_steady hmem
    have hpends : e'.step.Pends x.path := by
      apply h.pends_of_brings hopen hnew (h.exact.file?_eq_some_iff.mp hx).1 _ _ hbrings
      · rw [hpath]
        exact hnew f hf
      · rw [hsymbols]
        exact hname
    rw [hpath] at hpends
    obtain ⟨m, hrun⟩ := exists_run hopen hidle
    rw [hrun] at hidle ⊢
    exact ((h.firm hopen hnew).steady_run hidle (Or.inr hpends)).2

theorem text?_eq_some_iff (h : e.Loaded files) (q : Path) (t : String) :
    e.registry.text? q = some t ↔ ∃ f ∈ files, compare q f.1 = .eq ∧ f.2 = t := by
  have hfound {f : Path × String} (hf : f ∈ files) (hc : compare q f.1 = .eq) :
      e.registry.text? q = some f.2 := by
    rw [Registry.text?_eq_content?, Registry.content?_congr _ hc, h.text f hf]
    rfl
  constructor
  · intro htext
    have hindexed := isSome_file?_of_isIdle h.sane.invariant h.idle q
    rw [htext, Option.isSome_some, Option.isSome_iff_exists] at hindexed
    obtain ⟨x, hx⟩ := hindexed
    obtain ⟨f, hf, -, hc⟩ := h.exists_of_indexed h.exact hx
    exact ⟨f, hf, hc, Option.some.inj ((hfound hf hc).symm.trans htext)⟩
  · rintro ⟨f, hf, hc, rfl⟩
    exact hfound hf hc

end Loaded

end Engine

end JavaAtlas
