import JavaAtlas.Proofs.Engine.Effect
import JavaAtlas.Proofs.Engine.NoLostChange
import JavaAtlas.Proofs.Engine.Stores
import JavaAtlas.Proofs.Symbols.Api

/-!
# Loading a project with and without stored records

What a load ends with can depend on the records it finds, since a record is taken for a file without
binding its names anew. Main statement: if every file of the load without records is indexed as an
analysis against the final index would have it, then the load with records ends with the same
symbols exactly if the same is true of it, whatever the records hold.
-/

namespace JavaAtlas

set_option autoImplicit false

open Std (TransCmp OrientedCmp ReflCmp)

/-- Reads texts such as `class A {}` and `class A extends B {}`, which it tells apart by their length. -/
def Java.terse : Java.Parser := fun text =>
  let stop := text.utf8ByteSize
  let node (p : Java.Phrase) (field : Option Java.Field) (start stop : Nat) (children : List Java.Tree) :
      Java.Tree := .node ⟨.phrase p, field, .clamp start stop, false⟩ children
  let token (s : String) (start : Nat) : Java.Tree :=
    .node ⟨.token s, none, .clamp start (start + s.utf8ByteSize), false⟩ []
  let declared (header : List Java.Tree) (body : Nat) : Java.Tree :=
    node .program none 0 stop [node .classDeclaration none 0 stop <|
      [token "class" 0, node .identifier (some .name) 6 7 []] ++ header ++
        [node .classBody (some .body) body stop [token "\x7b" body, token "\x7d" (stop - 1)]]]
  if stop < 20 then .ok (declared [] 8)
  else .ok (declared [node .superclass (some .superclass) 8 17
    [token "extends" 8, node .typeIdentifier none 16 17 []]] 18)

def EngineConfig.cold (config : EngineConfig) : EngineConfig :=
  { config with cache := { config.cache with enabled := false } }

namespace Engine

/-! ## Engines at work on one project -/

/-- Texts are parsed and their names are bound by the same rules. -/
structure SameRules (e e' : Engine) : Prop where
  indexing : e'.config.indexing = e.config.indexing
  classpath : e'.classpath = e.classpath
  parse : e'.parses.parse = e.parses.parse

theorem SameRules.symm {e e' : Engine} (h : SameRules e e') : SameRules e' e :=
  ⟨h.indexing.symm, h.classpath.symm, h.parse.symm⟩

theorem SameRules.trans {a b c : Engine} (h : SameRules a b) (h' : SameRules b c) : SameRules a c :=
  ⟨h'.indexing.trans h.indexing, h'.classpath.trans h.classpath, h'.parse.trans h.parse⟩

/-- Analyses of a file find the same text, settings and classpath, and parse it alike. -/
structure Alike (e e' : Engine) : Prop where
  indexing : e'.config.indexing = e.config.indexing
  classpath : e'.classpath = e.classpath
  parse : e'.parses.parse = e.parses.parse
  text : ∀ p, e'.registry.text? p = e.registry.text? p

namespace Alike

variable {a b c : Engine}

theorem refl (a : Engine) : Alike a a := ⟨rfl, rfl, rfl, fun _ => rfl⟩

theorem symm (h : Alike a b) : Alike b a :=
  ⟨h.indexing.symm, h.classpath.symm, h.parse.symm, fun p => (h.text p).symm⟩

theorem trans (h : Alike a b) (h' : Alike b c) : Alike a c :=
  ⟨h'.indexing.trans h.indexing, h'.classpath.trans h.classpath, h'.parse.trans h.parse,
    fun p => (h'.text p).trans (h.text p)⟩

theorem rules (h : Alike a b) : SameRules a b := ⟨h.indexing, h.classpath, h.parse⟩

end Alike

/-- All files in the index, in the queue and with workers are of a kind. -/
structure Within (e : Engine) (kind : Path → Prop) : Prop where
  queue : e.queue.Within kind
  inFlight : ∀ job ∈ e.inFlight, kind job.1
  indexed : ∀ x ∈ e.index.entries, kind x.path

theorem alike_conclude (e : Engine) (path : Path) (a : Analysis) : Alike e (e.conclude path a) := by
  rw [conclude]
  exact ⟨rfl, rfl, rfl, fun _ => rfl⟩

theorem alike_step (e : Engine) : Alike e e.step := by
  cases h : e.inFlight with
  | nil =>
    rw [step_of_nil h]
    exact .refl e
  | cons job rest =>
    obtain ⟨path, trigger⟩ := job
    obtain ⟨e', a, -, hkeeps, -, hstep⟩ := step_of_cons h
    have hanalysis : Alike e e' :=
      ⟨congrArg (·.indexing) hkeeps.config, hkeeps.classpath, hkeeps.parse, hkeeps.text⟩
    rw [hstep]
    exact hanalysis.trans (alike_conclude e' path a)

theorem exact_step {e : Engine} (hindex : e.index.Exact) : e.step.index.Exact := by
  cases h : e.inFlight with
  | nil =>
    rw [step_of_nil h]
    exact hindex
  | cons job rest =>
    obtain ⟨path, trigger⟩ := job
    obtain ⟨e', a, -, -, heffect, hstep⟩ := step_of_cons h
    rw [hstep, index_conclude]
    exact heffect.exact hindex

theorem Within.step {e : Engine} {kind : Path → Prop} (h : e.Within kind)
    (hindex : e.index.Exact) : e.step.Within kind := by
  cases hin : e.inFlight with
  | nil =>
    rw [step_of_nil hin]
    exact h
  | cons job rest =>
    obtain ⟨path, trigger⟩ := job
    have hpath : kind path := h.inFlight _ (by rw [hin]; exact List.mem_cons_self)
    obtain ⟨e', a, -, hkeeps, heffect, hstep⟩ := step_of_cons hin
    have hafter : e'.index.Exact := heffect.exact hindex
    have hindexed : ∀ x ∈ e'.index.entries, kind x.path := by
      intro x hx
      rcases heffect.mem_entries hindex hx with hx | hx
      · exact h.indexed x hx
      · rwa [hx]
    have hstale : ∀ p ∈ SortedSet.toList (e'.verdict path a).stale, kind p := by
      intro p hp
      rcases SortedSet.mem_addAll ((SortedSet.mem_toList_erase_iff _ path p).mp hp).1 with hp | hp
      · obtain ⟨x, hx | hx, rfl⟩ := heffect.mem_stale hindex hp
        · exact h.indexed x hx
        · exact hindexed x hx
      · obtain ⟨x, hx, rfl⟩ := mem_disappointed hafter hp
        exact hindexed x hx
    have hqueue : (e'.queue.release path).1.Within kind := by
      have hsame : e'.queue.queue = e.queue.queue := congrArg (·.queue) hkeeps.queue
      intro p hp
      exact h.queue p (hsame ▸ hp)
    obtain ⟨hleft, hready⟩ := hqueue.finish hpath hstale e'.workers
    have hrest : e'.inFlight = rest := hkeeps.inFlight
    rw [hstep]
    refine ⟨?_, fun job hjob => ?_, ?_⟩
    · rw [queue_conclude]
      exact hleft
    · rw [inFlight_conclude, hrest] at hjob
      rcases List.mem_append.mp hjob with hjob | hjob
      · exact h.inFlight job (by rw [hin]; exact List.mem_cons_of_mem _ hjob)
      · exact hready job hjob
    · rw [index_conclude]
      exact hindexed

theorem run_spec {e : Engine} {kind : Path → Prop} (h : e.Within kind) (hindex : e.index.Exact)
    (n : Nat) :
    Alike e (e.run n) ∧ (e.run n).Within kind ∧ (e.run n).index.Exact ∧
      System.Run ⟨e, [], .free⟩ ⟨e.run n, [], .free⟩ := by
  refine run_of_step (P := fun after => Alike e after ∧ after.Within kind ∧ after.index.Exact ∧
    System.Run ⟨e, [], .free⟩ ⟨after, [], .free⟩) ?_ n ⟨.refl e, h, hindex, .refl⟩
  rintro after ⟨halike, hwithin, hexact, hrun⟩
  exact ⟨halike.trans (alike_step after), hwithin.step hexact, exact_step hexact,
    hrun.trans (System.run_step after [] .free)⟩

/-! ## Loading -/

/-- A project changes settings and stores, and nothing an analysis has written elsewhere. -/
theorem adopt_spec (e : Engine) (project : Project) :
    Agrees { e with
        classpath := .buildLenient e.world.disk project.classpath
        store := (e.adopt project).store } (e.adopt project) ∧
      (e.adopt project).parses = e.parses.setLanguageLevel project.languageLevel ∧
      (e.adopt project).world.disk = e.world.disk := by
  simp only [adopt]
  generalize hopen : ({ e with
    parses := e.parses.setLanguageLevel project.languageLevel
    classpath := .buildLenient e.world.disk project.classpath } : Engine) = e'
  have hagrees := agrees_openStore e' project
  have hdisk : e'.world.disk = e.world.disk := by rw [← hopen]
  have hparses : e'.parses = e.parses.setLanguageLevel project.languageLevel := by rw [← hopen]
  refine ⟨⟨?_, ?_, ?_, ?_, rfl, ?_, ?_, ?_, ?_⟩, ?_⟩
  · rw [hagrees.config, ← hopen]
  · rw [hagrees.registry, ← hopen]
  · rw [hagrees.index, ← hopen]
  · rw [hagrees.classpath, ← hopen]
  · rw [hagrees.queue, ← hopen]
  · rw [hagrees.inFlight, ← hopen]
  · rw [hagrees.project, ← hopen]
  · rw [hagrees.search, ← hopen]
  · rcases e'.openStore_cases project with h | ⟨directory, opened, -, h⟩
    · rw [h]
      exact ⟨hparses, hdisk⟩
    · rw [h]
      exact ⟨hparses, hdisk⟩

/-- Before anything is analyzed, the registry holds what the roots hold. -/
theorem load_spec {config : EngineConfig} {world : World} {project : Project} {e : Engine}
    (h : load config world project = (e, none)) :
    ∃ registry,
      e = { { (ofConfig config world).adopt project with registry := registry }.drainChanges.1 with
        project := project } ∧
      ∀ f : Engine, f.registry = (ofConfig config world).registry → f.world.disk = world.disk →
        f.registerRoots project.sourceRoots = ({ f with registry := registry }, none) := by
  obtain ⟨hagrees, -, hdisk⟩ := (ofConfig config world).adopt_spec project
  have hregistry := hagrees.registry
  have hknown : ((ofConfig config world).adopt project).registry.paths.isEmpty = true := by
    rw [hregistry]
    rfl
  rw [load, reload_eq, if_pos hknown] at h
  split at h
  · simp at h
  · rename_i e' hroots
    obtain ⟨registry, rfl, hall⟩ := registerRoots_spec hroots
    obtain ⟨rfl, -⟩ := Prod.mk.inj h
    exact ⟨registry, rfl, fun f hf hworld => hall f (hf.trans hregistry.symm) (hworld.trans hdisk.symm)⟩

theorem parses_orderBatch (e : Engine) (paths : List Path) :
    (e.orderBatch paths).1.parses = e.parses := by
  refine orderBatch_keeps (·.parses) (fun e path => ?_) (fun _ _ => rfl) e paths
  rw [loadRecord]
  split <;> rfl

theorem files_collect (r : Registry) (n : Nat) : (r.collect n).1.files = r.files := by
  rw [Registry.collect]
  split <;> rfl

theorem alike_schedule (e : Engine) (paths : List Path) (trigger : Trigger) :
    Alike e (e.schedule paths trigger) := by
  have hreads := reads_orderBatch e paths
  rw [schedule_eq]
  refine ⟨congrArg (·.indexing) hreads.config, hreads.classpath, ?_, hreads.registry.text?⟩
  exact congrArg ParseCache.parse (parses_orderBatch e paths)

theorem Within.schedule {e : Engine} {kind : Path → Prop} (h : e.Within kind) {paths : List Path}
    (hpaths : ∀ p ∈ SortedSet.toList (SortedSet.ofList paths), kind p) (trigger : Trigger) :
    (e.schedule paths trigger).Within kind := by
  have hreads := reads_orderBatch e paths
  have horder : ∀ p ∈ (e.orderBatch paths).2.1, kind p :=
    fun p hp => hpaths p (BatchOrder.mem_of_mem_ordered hp)
  have hqueue : (e.orderBatch paths).1.queue.Within kind := by
    rw [hreads.queue]
    exact h.queue
  rw [schedule_eq]
  obtain ⟨hleft, hready⟩ := hqueue.schedule horder (e.orderBatch paths).1.workers
    (e.orderBatch paths).2.2 trigger
  refine ⟨hleft, fun job hjob => ?_, fun x hx => h.indexed x ?_⟩
  · rcases List.mem_append.mp hjob with hjob | hjob
    · exact h.inFlight job (hreads.inFlight ▸ hjob)
    · exact hready job hjob
  · exact hreads.index ▸ hx

theorem index_schedule (e : Engine) (paths : List Path) (trigger : Trigger) :
    (e.schedule paths trigger).index = e.index := by
  rw [schedule_eq]
  exact (reads_orderBatch e paths).index

def reported (r : Registry) : SortedSet Path := SortedSet.ofList ((r.collect 0).2.map (·.path))

/-- From a new engine on only reported files are analyzed. -/
theorem drainChanges_spec {e : Engine} (hqueue : e.queue.queue = []) (hin : e.inFlight = [])
    (hindex : e.index.entries = []) :
    Alike e e.drainChanges.1 ∧ e.drainChanges.1.Within (· ∈ (reported e.registry).toList) ∧
      e.drainChanges.1.index = e.index := by
  have hcollect : Alike e { e with registry := (e.registry.collect 0).1 } :=
    ⟨rfl, rfl, rfl, fun p => by rw [Registry.text?, files_collect, Registry.text?]⟩
  have hwithin : { e with registry := (e.registry.collect 0).1 }.Within (· ∈ (reported e.registry).toList) :=
    ⟨by simp [Queue.Within, hqueue], by simp [hin], by simp [hindex]⟩
  rcases hevents : e.registry.collect 0 with ⟨registry, events⟩
  have hreported : reported e.registry = SortedSet.ofList (events.map (·.path)) := by
    rw [reported, hevents]
  rw [hevents] at hcollect hwithin
  rw [drainChanges, hevents]
  simp only
  split
  · exact ⟨hcollect, hwithin, rfl⟩
  · refine ⟨hcollect.trans (alike_schedule _ _ _), hwithin.schedule (fun p hp => ?_) _,
      index_schedule _ _ _⟩
    rwa [hreported]

/-! ## Symbols that are current -/

def freshSymbols (e : Engine) (path : Path) (text : String) : FileSymbols :=
  let unit := e.parses.parse path text (.ofText text)
  if text.utf8ByteSize > e.config.indexing.maxFileBytes then Extraction.ofSource unit
  else Extraction.ofAttributed (unit.bindTypes (e.contextOf e.index))

/-- The file is indexed as an analysis against this very index would have it. -/
def Current (e : Engine) (p : Path) : Prop :=
  ∃ text x, e.registry.text? p = some text ∧ e.index.file? p = some x ∧
    x.symbols = e.freshSymbols x.path text

theorem freshSymbols_congr {e e' : Engine} (hrules : SameRules e e')
    (hlookup : e'.index.lookup = e.index.lookup) (path : Path) (text : String) :
    e'.freshSymbols path text = e.freshSymbols path text := by
  simp only [freshSymbols, contextOf, hlookup, hrules.classpath, hrules.parse, hrules.indexing]

/-- What a file declares depends on its text alone. -/
theorem alike_freshSymbols {e e' : Engine} (hrules : SameRules e e') (path : Path) (text : String) :
    (e.freshSymbols path text).Alike (e'.freshSymbols path text) := by
  simp only [freshSymbols, hrules.parse, hrules.indexing]
  generalize e.parses.parse path text (.ofText text) = unit
  split <;> exact ⟨fun _ => Iff.rfl, rfl⟩

/-- The engines have indexed the same files. -/
structure Paired (e e' : Engine) : Prop where
  exact : e.index.Exact
  forth : ∀ p x, e.index.file? p = some x → ∃ y, e'.index.file? p = some y ∧ y.path = x.path

theorem Paired.exists_entry {e e' : Engine} (h : Paired e e') (hexact : e'.index.Exact)
    {x : FileEntry} (hx : x ∈ e.index.entries) :
    ∃ y ∈ e'.index.entries, y.path = x.path ∧ e'.index.file? x.path = some y := by
  obtain ⟨y, hy, hpath⟩ := h.forth x.path x (h.exact.file?_of_mem hx)
  exact ⟨y, (hexact.file?_eq_some_iff.mp hy).1, hpath, hy⟩

/-- Between engines that know the same types and packages, a file that is current in one is indexed
alike in both exactly if it is current in the other. -/
theorem symbols_eq_iff_current {e e' : Engine} (halike : Alike e e')
    (hlookup : e'.index.lookup = e.index.lookup) {p : Path} {x y : FileEntry}
    (hx : e.index.file? p = some x) (hy : e'.index.file? p = some y) (hpath : y.path = x.path)
    (hcurrent : e'.Current p) : x.symbols = y.symbols ↔ e.Current p := by
  obtain ⟨text, y', htext, hy', hsymbols⟩ := hcurrent
  obtain rfl : y = y' := Option.some.inj (hy.symm.trans hy')
  rw [freshSymbols_congr halike.rules hlookup, hpath] at hsymbols
  constructor
  · intro heq
    exact ⟨text, x, (halike.text p).symm.trans htext, hx, heq.trans hsymbols⟩
  · rintro ⟨text', x', htext', hx', hsymbols'⟩
    obtain rfl : x = x' := Option.some.inj (hx.symm.trans hx')
    obtain rfl : text' = text :=
      Option.some.inj (htext'.symm.trans ((halike.text p).symm.trans htext))
    exact hsymbols'.trans hsymbols.symm

/-! ## Idle after a load -/

structure Rested (e : Engine) (batch : SortedSet Path) : Prop where
  exact : e.index.Exact
  within : e.Within (· ∈ batch.toList)
  files : ∀ p, (e.index.file? p).isSome = (e.registry.text? p).isSome

/-- At rest exactly the registered files are indexed. -/
theorem isSome_file?_of_isIdle {e : Engine} (h : System.Invariant ⟨e, [], .free⟩)
    (hidle : e.isIdle = true) (p : Path) :
    (e.index.file? p).isSome = (e.registry.text? p).isSome := by
  obtain ⟨removed, hlanded, -⟩ := h.settled hidle p
  rw [Registry.text?_eq_known?]
  cases hknown : e.registry.known? p with
  | none =>
    rw [((landed_of_unknown hknown removed).mp hlanded).2]
    rfl
  | some f =>
    obtain ⟨x, hx, -⟩ := Option.map_eq_some_iff.mp ((landed_of_known? hknown removed).mp hlanded).2.1
    rw [hx]
    rfl

theorem rested_of_run {e : Engine} {batch : SortedSet Path} (hindex : e.index.Exact)
    (hwithin : e.Within (· ∈ batch.toList)) {s : System} (hstart : s.Invariant)
    (hrun : System.Run s ⟨e, [], .free⟩) {n : Nat} (hidle : (e.run n).isIdle = true) :
    Alike e (e.run n) ∧ (e.run n).Rested batch := by
  obtain ⟨halike, hwithin', hexact, hrun'⟩ := run_spec hwithin hindex n
  exact ⟨halike, hexact, hwithin',
    isSome_file?_of_isIdle (hstart.run (hrun.trans hrun')) hidle⟩

theorem Rested.paired {e e' : Engine} {batch : SortedSet Path} (h : e.Rested batch)
    (h' : e'.Rested batch) (halike : Alike e e') : Paired e e' := by
  refine ⟨h.exact, fun p x hx => ?_⟩
  have hsome : (e'.index.file? p).isSome = true := by
    rw [h'.files, halike.text, ← h.files, hx]
    rfl
  obtain ⟨y, hy⟩ := Option.isSome_iff_exists.mp hsome
  obtain ⟨hmem, hxp⟩ := h.exact.file?_eq_some_iff.mp hx
  obtain ⟨hmem', hyp⟩ := h'.exact.file?_eq_some_iff.mp hy
  have hbatch := (SortedSet.mem_toList_iff batch x.path).mp (h.within.indexed x hmem)
  have hbatch' := (SortedSet.mem_toList_iff batch y.path).mp (h'.within.indexed y hmem')
  have heq := SortedMap.eq_of_mem_of_compare_eq hbatch' hbatch
    (TransCmp.eq_trans (OrientedCmp.eq_symm hyp) hxp)
  exact ⟨y, hy, (Prod.mk.inj heq).1⟩

theorem lookup_eq_of_paired {e e' : Engine} (h : Paired e e') (h' : Paired e' e)
    (hsame : ∀ x ∈ e.index.entries, ∀ y ∈ e'.index.entries, y.path = x.path →
      x.symbols.Alike y.symbols) : e.index.lookup = e'.index.lookup := by
  refine Snapshot.lookup_eq_of_alike h.exact h'.exact (fun x hx => ?_) fun y hy => ?_
  · obtain ⟨y, hy, hpath, -⟩ := h.exists_entry h'.exact hx
    exact ⟨y, hy, hsame x hx y hy hpath⟩
  · obtain ⟨x, hx, hpath, -⟩ := h'.exists_entry h.exact hy
    exact ⟨x, hx, (hsame x hx y hy hpath.symm).symm⟩

theorem Rested.contains_eq {e : Engine} {batch : SortedSet Path} (h : e.Rested batch) (p : Path) :
    e.registry.contains p = (e.index.file? p).isSome := by
  rw [Registry.contains_eq_isSome_text?, h.files]

/-- Between engines at rest that know the same types and packages, file by file. -/
theorem symbols_eq_iff_of_lookup_eq {e e' : Engine} {batch : SortedSet Path} (h : e.Rested batch)
    (h' : e'.Rested batch) (halike : Alike e e') (hlookup : e'.index.lookup = e.index.lookup)
    {p : Path} (hcurrent : e'.Current p) :
    (e.index.file? p).map (·.symbols) = (e'.index.file? p).map (·.symbols) ↔ e.Current p := by
  obtain ⟨text, y, htext, hy, hsymbols⟩ := hcurrent
  obtain ⟨x, hx, hpath⟩ := (h'.paired h halike.symm).forth p y hy
  rw [hx, hy, Option.map_some, Option.map_some, Option.some_inj]
  exact symbols_eq_iff_current halike hlookup hx hy hpath.symm ⟨text, y, htext, hy, hsymbols⟩

/-- Where one engine is current everywhere, another at rest with the same project has the same
symbols exactly if it is current everywhere too. -/
theorem symbols_eq_iff_of_current {e e' : Engine} {batch : SortedSet Path} (h : e.Rested batch)
    (h' : e'.Rested batch) (halike : Alike e e')
    (hcurrent : ∀ p, e'.registry.contains p = true → e'.Current p) :
    (∀ p, (e.index.file? p).map (·.symbols) = (e'.index.file? p).map (·.symbols)) ↔
      ∀ p, e.registry.contains p = true → e.Current p := by
  have hpaired := h.paired h' halike
  have hpaired' := h'.paired h halike.symm
  have hregistered (p : Path) : e'.registry.contains p = e.registry.contains p := by
    rw [Registry.contains_eq_isSome_text?, halike.text, Registry.contains_eq_isSome_text?]
  constructor
  · intro hsame p hp
    have hlookup : e.index.lookup = e'.index.lookup := by
      refine lookup_eq_of_paired hpaired hpaired' fun x hx y hy hpath => ?_
      have heq := hsame x.path
      rw [h.exact.file?_of_mem hx, ← hpath, h'.exact.file?_of_mem hy] at heq
      have hsymbols : x.symbols = y.symbols := Option.some.inj heq
      rw [hsymbols]
      exact .refl _
    have hcurrent' := hcurrent p ((hregistered p).trans hp)
    exact (symbols_eq_iff_of_lookup_eq h h' halike hlookup.symm hcurrent').mp (hsame p)
  · intro hall p
    have hlookup : e.index.lookup = e'.index.lookup := by
      refine lookup_eq_of_paired hpaired hpaired' fun x hx y hy hpath => ?_
      have hfile := h.exact.file?_of_mem hx
      have hfile' := h'.exact.file?_of_mem hy
      obtain ⟨text, x', htext, hx', hsymbols⟩ := hall x.path (by rw [h.contains_eq, hfile]; rfl)
      obtain rfl : x = x' := Option.some.inj (hfile.symm.trans hx')
      obtain ⟨text', y', htext', hy', hsymbols'⟩ :=
        hcurrent y.path (by rw [h'.contains_eq, hfile']; rfl)
      obtain rfl : y = y' := Option.some.inj (hfile'.symm.trans hy')
      rw [hpath, halike.text, htext] at htext'
      obtain rfl := Option.some.inj htext'
      rw [hsymbols, hsymbols', hpath]
      exact alike_freshSymbols halike.rules x.path text
    cases hp : e.registry.contains p with
    | true =>
      have hcurrent' := hcurrent p ((hregistered p).trans hp)
      exact (symbols_eq_iff_of_lookup_eq h h' halike hlookup.symm hcurrent').mpr (hall p hp)
    | false =>
      have hp' := (hregistered p).trans hp
      rw [h.contains_eq, Option.isSome_eq_false_iff, Option.isNone_iff_eq_none] at hp
      rw [h'.contains_eq, Option.isSome_eq_false_iff, Option.isNone_iff_eq_none] at hp'
      rw [hp, hp']

theorem registry_unique {config config' : EngineConfig} {world world' : World} {project : Project}
    {registry registry' : Registry} (hdisk : world'.disk = world.disk)
    (h : ∀ f : Engine, f.registry = (ofConfig config world).registry → f.world.disk = world.disk →
      f.registerRoots project.sourceRoots = ({ f with registry := registry }, none))
    (h' : ∀ f : Engine, f.registry = (ofConfig config' world').registry → f.world.disk = world'.disk →
      f.registerRoots project.sourceRoots = ({ f with registry := registry' }, none)) :
    registry' = registry := by
  have heq := (h' (ofConfig config' world') rfl rfl).symm.trans (h (ofConfig config' world') rfl hdisk)
  exact congrArg (·.1.registry) heq

/-- Analyses follow the settings, the classpath and the language level of the load. -/
theorem rules_of_load {config : EngineConfig} {world : World} {project : Project} {e : Engine}
    (h : load config world project = (e, none)) :
    SameRules { ofConfig config world with
      parses := (ofConfig config world).parses.setLanguageLevel project.languageLevel
      classpath := .buildLenient world.disk project.classpath } e := by
  obtain ⟨registry, rfl, -⟩ := load_spec h
  obtain ⟨hagrees, hparses, -⟩ := (ofConfig config world).adopt_spec project
  generalize (ofConfig config world).adopt project = a at *
  obtain ⟨halike, -, -⟩ := drainChanges_spec (e := { a with registry := registry })
    (congrArg (·.queue) hagrees.queue) hagrees.inFlight (congrArg (·.entries) hagrees.index)
  exact ⟨halike.indexing.trans (congrArg (·.indexing) hagrees.config),
    halike.classpath.trans hagrees.classpath, halike.parse.trans (congrArg ParseCache.parse hparses)⟩

/-- Loads that differ in the cache alone begin with the same files. -/
theorem loads_spec {config config' : EngineConfig} {world world' : World} {project : Project}
    {e e' : Engine} (h : load config world project = (e, none))
    (h' : load config' world' project = (e', none)) (hindexing : config'.indexing = config.indexing)
    (hparser : world'.parser = world.parser) (hdisk : world'.disk = world.disk) :
    Alike e e' ∧ ∃ batch : SortedSet Path,
      (e.index.Exact ∧ e.Within (· ∈ batch.toList)) ∧ (e'.index.Exact ∧ e'.Within (· ∈ batch.toList)) := by
  have hrules : SameRules e e' := by
    refine ((rules_of_load h).symm.trans ⟨hindexing, ?_, ?_⟩).trans (rules_of_load h')
    · exact congrArg (ClasspathIndex.buildLenient · project.classpath) hdisk
    · have hsame : (ofConfig config' world').parses = (ofConfig config world).parses := by
        rw [ofConfig, ofConfig, hparser]
      exact congrArg (fun c => (c.setLanguageLevel project.languageLevel).parse) hsame
  obtain ⟨registry, rfl, hall⟩ := load_spec h
  obtain ⟨registry', rfl, hall'⟩ := load_spec h'
  obtain rfl : registry' = registry := registry_unique hdisk hall hall'
  have hdrain (c : EngineConfig) (w : World) :
      Alike { (ofConfig c w).adopt project with registry := registry' }
        { (ofConfig c w).adopt project with registry := registry' }.drainChanges.1 ∧
      { (ofConfig c w).adopt project with registry := registry' }.drainChanges.1.index.Exact ∧
      { (ofConfig c w).adopt project with registry := registry' }.drainChanges.1.Within
        (· ∈ (reported registry').toList) := by
    obtain ⟨hagrees, -, -⟩ := (ofConfig c w).adopt_spec project
    generalize (ofConfig c w).adopt project = a at *
    obtain ⟨halike, hwithin, hindex⟩ := drainChanges_spec (e := { a with registry := registry' })
      (congrArg (·.queue) hagrees.queue) hagrees.inFlight (congrArg (·.entries) hagrees.index)
    refine ⟨halike, ?_, hwithin⟩
    rw [hindex, hagrees.index]
    exact Snapshot.exact_of_empty 0
  obtain ⟨hleft, hexact, hwithin⟩ := hdrain config world
  obtain ⟨hright, hexact', hwithin'⟩ := hdrain config' world'
  have htext (p : Path) := (hright.text p).trans (hleft.text p).symm
  exact ⟨⟨hrules.indexing, hrules.classpath, hrules.parse, htext⟩, reported registry',
    ⟨hexact, hwithin.queue, hwithin.inFlight, hwithin.indexed⟩,
    hexact', hwithin'.queue, hwithin'.inFlight, hwithin'.indexed⟩

/-- A load that may use stored records, whatever they hold, and one that may not, both come to rest.
If every file of the second is current, they have the same symbols exactly if every file of the first
is current; and if both know the same types and packages, that holds of each file by itself. -/
theorem warm_eq_cold_iff_current {config : EngineConfig} {world : World} {project : Project}
    {warm cold : Engine} {m n : Nat} (hwarm : load config world project = (warm, none))
    (hcold : load config.cold world project = (cold, none))
    (hwarmIdle : (warm.run m).isIdle = true) (hcoldIdle : (cold.run n).isIdle = true) :
    ((∀ p, (cold.run n).registry.contains p = true → (cold.run n).Current p) →
      ((∀ p, ((warm.run m).index.file? p).map (·.symbols) =
          ((cold.run n).index.file? p).map (·.symbols)) ↔
        ∀ p, (warm.run m).registry.contains p = true → (warm.run m).Current p)) ∧
    ((cold.run n).index.lookup = (warm.run m).index.lookup → ∀ p, (cold.run n).Current p →
      (((warm.run m).index.file? p).map (·.symbols) =
          ((cold.run n).index.file? p).map (·.symbols) ↔ (warm.run m).Current p)) := by
  obtain ⟨halike, batch, ⟨hexact, hwithin⟩, hexact', hwithin'⟩ := loads_spec hwarm hcold rfl rfl rfl
  obtain ⟨hran, hrested⟩ := rested_of_run hexact hwithin
    (System.invariant_start config world) (System.run_reload hwarm []) hwarmIdle
  obtain ⟨hran', hrested'⟩ := rested_of_run hexact' hwithin'
    (System.invariant_start config.cold world) (System.run_reload hcold []) hcoldIdle
  have hboth := (hran.symm.trans halike).trans hran'
  exact ⟨fun hcurrent => symbols_eq_iff_of_current hrested hrested' hboth hcurrent,
    fun hlookup p hcurrent => symbols_eq_iff_of_lookup_eq hrested hrested' hboth hlookup hcurrent⟩

theorem load_eq_of_isNone {config : EngineConfig} {world : World} {project : Project}
    (h : (load config world project).2.isNone = true) :
    load config world project = ((load config world project).1, none) :=
  Prod.ext rfl (Option.isNone_iff_eq_none.mp h)

def oneFile : World := { disk := ({} : Disk).write ⟨"/src/A.java"⟩ (Text.encode "class A {}") }

def oneRoot : Project := { sourceRoots := [⟨"/src"⟩] }

def cached : EngineConfig := { cache := { dir := some "/cache" } }

def waiting : Path × String := (⟨"/src/A.java"⟩, "class A extends B {}")

def awaited : Path × String := (⟨"/src/B.java"⟩, "class B {}")

def pair : List (Path × String) := [waiting, awaited]

/-- A file where no type is known. -/
def alone (f : Path × String) : FileSymbols := Extraction.ofAttributed
  ((SourceUnit.ofText Java.terse f.1 f.2 {}).bindTypes ⟨fun _ => false, fun _ => false⟩)

/-- The store that `cached` names for `oneRoot`, with the file alone on record. -/
def storeOf (f : Path × String) : SortedMap Path StoreDirectory :=
  (∅ : SortedMap Path StoreDirectory).insert
    ⟨"/cache/56c9e1c4b5360a5b089004396ed37fe3a20f7c4f5954072098039789ba3ab68a/symbols"⟩
    ((StoreDirectory.store { marker := some (Text.encode "3"), records := some ∅ } symbolSchema
      Codec.fileSymbols 0 f.1 (.ofText f.2) (alone f)).getD {})

/-- Some files of which the first is on record alone. -/
def onDisk (files : List (Path × String)) : World where
  parser := Java.terse
  disk := files.foldl (fun disk f => disk.write f.1 (Text.encode f.2)) {}
  stores := (files.head?.map storeOf).getD ∅

theorem every_onDisk {P : StoreDirectory → Prop} {f : Path × String} {rest : List (Path × String)}
    (hempty : ∀ d : StoreDirectory, (∀ name, d.node? name = none) → P d)
    (hstore : ∀ d d' : StoreDirectory, P d → d.store symbolSchema Codec.fileSymbols 0 f.1
      (.ofText f.2) (alone f) = some d' → P d') : (onDisk (f :: rest)).Every P := by
  intro root d hd
  simp only [onDisk, List.head?_cons, Option.map_some, Option.getD_some, storeOf,
    SortedMap.get?_insert] at hd
  split at hd
  · obtain rfl := Option.some.inj hd
    generalize hstored : StoreDirectory.store _ _ _ _ _ _ _ = stored
    cases stored with
    | none => exact hempty _ fun _ => rfl
    | some d => exact hstore _ d (hempty _ fun _ => rfl) hstored
  · simp [EmptyCollection.emptyCollection] at hd

end Engine

end JavaAtlas
