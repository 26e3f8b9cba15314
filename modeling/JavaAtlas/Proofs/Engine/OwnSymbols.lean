import JavaAtlas.Proofs.Engine.Edits
import JavaAtlas.Proofs.Engine.StoreAtRest
import JavaAtlas.Proofs.Engine.Stores
import JavaAtlas.Proofs.Index.Names
import JavaAtlas.Proofs.Store.Filed

/-!
# Whose symbols a file is served

Symbols name the file they were computed for. A record is found by the key of a path, and the key of
`/p\A.java` is that of `/p/A.java`, so with equal texts the one file is served what was computed for
the other. Whatever the workers and the client do in whatever order, symbols never go further than
that: a file with a key of its own is served and indexed with its own symbols only.
-/

namespace JavaAtlas

set_option autoImplicit false

/-- No other file of the kind has the key of `p`. -/
def Path.OwnKey (kind : Path → Prop) (p : Path) : Prop := ∀ q, kind q → pathKey q = pathKey p → q = p

/-! ## Computed symbols -/

namespace FileSymbols

/-- The symbols of the file for a text of this fingerprint, their names bound or not. -/
def ComputedFor (f : FileSymbols) (parser : Java.Parser) (p : Path) (print : Fingerprint) : Prop :=
  ∃ text level, print = .ofText text ∧
    (f = Extraction.ofSource (.ofText parser p text level) ∨
      ∃ ctx, f = Extraction.ofAttributed ((SourceUnit.ofText parser p text level).bindTypes ctx))

theorem ComputedFor.located {f : FileSymbols} {parser : Java.Parser} {p : Path} {print : Fingerprint}
    (h : f.ComputedFor parser p print) : f.Located p := by
  obtain ⟨text, level, -, hf⟩ := h
  have hunit := located_declarations (SourceUnit.ofText parser p text level)
  rw [SourceUnit.ofText, SourceUnit.path_parse] at hunit
  rcases hf with rfl | ⟨ctx, rfl⟩ <;> exact hunit

/-- The symbols were computed for a file of the kind that has the key of `p`. -/
def FiledFor (f : FileSymbols) (parser : Java.Parser) (kind : Path → Prop) (p : Path)
    (print : Fingerprint) : Prop :=
  ∃ q, kind q ∧ pathKey q = pathKey p ∧ f.ComputedFor parser q print

theorem FiledFor.computedFor {f : FileSymbols} {parser : Java.Parser} {kind : Path → Prop} {p : Path}
    {print : Fingerprint} (h : f.FiledFor parser kind p print) (hown : p.OwnKey kind) :
    f.ComputedFor parser p print := by
  obtain ⟨q, hq, hkey, hf⟩ := h
  rwa [← hown q hq hkey]

end FileSymbols

/-! ## Records -/

/-- Whatever is on record for a path was computed for a file of the kind with the same key. -/
def StoreDirectory.Filed (parser : Java.Parser) (kind : Path → Prop) (d : StoreDirectory) : Prop :=
  ∀ p r, d.Holds symbolSchema Codec.fileSymbols p r → r.payload.FiledFor parser kind p r.fingerprint

namespace StoreDirectory

variable {parser : Java.Parser} {kind : Path → Prop} {d d' : StoreDirectory}

theorem lasts_filed (parser : Java.Parser) (kind : Path → Prop) : Lasts (Filed parser kind) :=
  lasts_recorded _

theorem Filed.store (h : d.Filed parser kind) {path : Path} {print : Fingerprint} {symbols : FileSymbols}
    (hpath : kind path) (hsymbols : symbols.ComputedFor parser path print)
    (hstore : d.store symbolSchema Codec.fileSymbols 0 path print symbols = some d') :
    d'.Filed parser kind := by
  apply Recorded.store h _ hstore
  rintro p r hkey rfl rfl
  exact ⟨path, hpath, hkey.symm, hsymbols⟩

end StoreDirectory

/-- In every store whatever is on record was computed for a file of the kind with the same key. -/
def World.Filed (parser : Java.Parser) (kind : Path → Prop) (w : World) : Prop :=
  w.Every (StoreDirectory.Filed parser kind)

/-! ## Units -/

/-- The units at hand were parsed for files of the kind. -/
structure ParseCache.Of (parser : Java.Parser) (kind : Path → Prop) (c : ParseCache) : Prop where
  same : c.parser = parser
  units : ∀ q print u, c.reusable? q print = some u →
    ∃ p text level, kind p ∧ compare q p = .eq ∧ u = .ofText parser p text level

namespace ParseCache

variable {parser : Java.Parser} {kind : Path → Prop} {c : ParseCache}

namespace Of

theorem setLanguageLevel (h : c.Of parser kind) (level : LanguageLevel) :
    (c.setLanguageLevel level).Of parser kind := by
  rw [ParseCache.setLanguageLevel]
  split
  · exact h
  · refine ⟨h.same, fun q print u hu => ?_⟩
    simp [reusable?, cached?, EmptyCollection.emptyCollection] at hu

theorem evict (h : c.Of parser kind) (path : Path) : (c.evict path).1.Of parser kind := by
  refine ⟨h.same, fun q print u hu => ?_⟩
  by_cases hc : compare q path = .eq
  · rw [reusable?, cached?, ParseCache.evict, SortedMap.get?_erase, if_pos hc] at hu
    simp at hu
  · rw [reusable?_evict hc] at hu
    exact h.units q print u hu

theorem parseCached (h : c.Of parser kind) {path : Path} (hpath : kind path) (text : String) :
    (c.parseCached path text (.ofText text)).1.Of parser kind := by
  refine ⟨(rules_parseCached c path text _).1.trans h.same, fun q print u hu => ?_⟩
  rcases reusable?_of_parseCached hu with hu | ⟨hc, rfl⟩
  · exact h.units q print u hu
  · exact ⟨path, text, c.languageLevel, hpath, hc, by rw [parse, h.same, SourceUnit.ofText]⟩

/-- The unit of a text is for the file and for a text of its fingerprint, parsed anew or not. -/
theorem exists_ofText (h : c.Of parser kind) (hnormal : ∀ p, kind p → p.normalize = p) {path : Path}
    (hpath : kind path) (text : String) :
    ∃ text' level, Fingerprint.ofText text = .ofText text' ∧
      (c.parseCached path text (.ofText text)).2 = .ofText parser path text' level := by
  rw [parseCached_eq]
  cases hunit : c.reusable? path (.ofText text) with
  | none =>
    exact ⟨text, c.languageLevel, rfl, by rw [Option.getD_none, parse, h.same, SourceUnit.ofText]⟩
  | some u =>
    obtain ⟨p, text', level, hp, hc, rfl⟩ := h.units path _ u hunit
    have hprint := fingerprint_of_reusable? hunit
    rw [SourceUnit.ofText, SourceUnit.fingerprint_parse] at hprint
    rw [Path.eq_of_normal (hnormal path hpath) (hnormal p hp) hc]
    exact ⟨text', level, hprint.symm, rfl⟩

end Of

end ParseCache

/-! ## Analyses -/

namespace Engine

variable {e : Engine} {parser : Java.Parser} {kind : Path → Prop} {path : Path} {file : SourceFile}
  {symbols : FileSymbols}

theorem computedFor_compute (hnormal : ∀ p, kind p → p.normalize = p) (hpath : kind path)
    (hparsed : e.parses.Of parser kind) (hprint : file.fingerprint = .ofText file.text) :
    (e.compute path file).2.ComputedFor parser path file.fingerprint := by
  obtain ⟨text, level, hsame, hunit⟩ := hparsed.exists_ofText hnormal hpath file.text
  rw [compute]
  simp only [hprint, hunit]
  refine ⟨text, level, hsame, ?_⟩
  split
  · exact Or.inl rfl
  · exact Or.inr ⟨_, rfl⟩

theorem loadMatching_congr (e : Engine) {p q : Path} (h : pathKey p = pathKey q)
    (print : Fingerprint) : e.loadMatching p print = e.loadMatching q print := by
  simp only [loadMatching, StoreDirectory.loadMatching_congr h]

/-- A lookup makes no difference between files with one key. -/
theorem cachedSymbols?_congr (e : Engine) {p q : Path} (h : pathKey p = pathKey q)
    (file : SourceFile) : e.cachedSymbols? p file = e.cachedSymbols? q file := by
  rw [cachedSymbols?, loadMatching_congr e h, cachedSymbols?]

theorem filedFor_of_loadMatching (hstored : e.world.Filed parser kind) {print found : Fingerprint}
    (hhit : (e.loadMatching path print).2 = .hit found symbols) :
    symbols.FiledFor parser kind path print := by
  have hrecorded : e.world.Every (StoreDirectory.Recorded fun p r =>
      r.payload.FiledFor parser kind p r.fingerprint) := hstored
  obtain ⟨r, hr, rfl, rfl⟩ := recorded_of_loadMatching hrecorded hhit
  exact hr

theorem filedFor_of_cachedSymbols? (hstored : e.world.Filed parser kind) {e' : Engine}
    (h : e.cachedSymbols? path file = (e', some symbols)) :
    symbols.FiledFor parser kind path file.fingerprint := by
  obtain ⟨found, hhit⟩ := (recalled_of_cachedSymbols? h).stored
  exact filedFor_of_loadMatching hstored hhit

/-- What the stores hold and which units are at hand. -/
structure Sourced (parser : Java.Parser) (kind : Path → Prop) (e : Engine) : Prop where
  stored : e.world.Filed parser kind
  parsed : e.parses.Of parser kind

theorem Sourced.compute (h : e.Sourced parser kind) (hnormal : ∀ p, kind p → p.normalize = p)
    (hpath : kind path) (hprint : file.fingerprint = .ofText file.text) :
    (e.compute path file).1.Sourced parser kind where
  stored := every_compute (StoreDirectory.lasts_filed parser kind) h.stored path file fun _ _ hd hstore =>
    hd.store hpath (computedFor_compute hnormal hpath h.parsed hprint) hstore
  parsed := by
    rw [parses_compute, hprint]
    exact h.parsed.parseCached hpath file.text

/-- The symbols of a file, looked up or computed, and what is left behind. -/
theorem Sourced.symbolsOf (h : e.Sourced parser kind) (hnormal : ∀ p, kind p → p.normalize = p)
    (hpath : kind path) (trigger : Trigger) (hprint : file.fingerprint = .ofText file.text) :
    (e.symbolsOf path trigger file).1.Sourced parser kind ∧
      (e.symbolsOf path trigger file).2.1.FiledFor parser kind path file.fingerprint := by
  have hcompute {e : Engine} (h : e.Sourced parser kind) : (e.compute path file).1.Sourced parser kind ∧
      (e.compute path file).2.FiledFor parser kind path file.fingerprint :=
    ⟨h.compute hnormal hpath hprint,
      path, hpath, rfl, computedFor_compute hnormal hpath h.parsed hprint⟩
  cases trigger with
  | dependency => exact hcompute h
  | content =>
    have hcached : (e.cachedSymbols? path file).1.Sourced parser kind := by
      refine ⟨every_cachedSymbols? (StoreDirectory.lasts_filed parser kind) h.stored path file, ?_⟩
      rw [parses_cachedSymbols?]
      exact h.parsed
    rw [Engine.symbolsOf]
    split
    next heq =>
      rw [heq] at hcached
      exact ⟨hcached, filedFor_of_cachedSymbols? h.stored heq⟩
    next heq =>
      rw [heq] at hcached
      exact hcompute hcached

end Engine

/-! ## Every run -/

/-- What an analysis is about to publish was computed for a file with the key of its path. -/
def Stage.FiledFor (parser : Java.Parser) (kind : Path → Prop) (path : Path) : Stage → Prop
  | .bound _ file symbols _ => symbols.FiledFor parser kind path file.fingerprint
  | _ => True

def Snapshot.Filed (parser : Java.Parser) (kind : Path → Prop) (s : Snapshot) : Prop :=
  ∀ x ∈ s.entries, x.symbols.FiledFor parser kind x.path x.fingerprint

theorem Snapshot.Filed.upsert {parser : Java.Parser} {kind : Path → Prop} {s : Snapshot}
    (h : s.Filed parser kind) (hexact : s.Exact) {path : Path} {print : Fingerprint}
    {symbols : FileSymbols} (hsymbols : symbols.FiledFor parser kind path print) :
    (s.upsert path print symbols).1.Filed parser kind := by
  intro x hx
  rcases hexact.mem_or_eq_of_mem_upsert hx with hx | rfl
  · exact h x hx
  · exact hsymbols

theorem Snapshot.Filed.remove {parser : Java.Parser} {kind : Path → Prop} {s : Snapshot}
    (h : s.Filed parser kind) (hexact : s.Exact) (path : Path) :
    (s.remove path).1.Filed parser kind :=
  fun x hx => h x (hexact.mem_of_mem_remove hx)

namespace System

/-- Whatever is stored, at hand, indexed and about to be published goes no further than its key. -/
structure Sourced (parser : Java.Parser) (kind : Path → Prop) (s : System) : Prop where
  engine : s.engine.Sourced parser kind
  indexed : s.engine.index.Filed parser kind
  staged : ∀ job ∈ s.active, job.stage.FiledFor parser kind job.path

variable {parser : Java.Parser} {kind used : Path → Prop} {e e' : Engine} {active active' : List Job}
  {client client' : Client}

namespace Sourced

theorem of_eq (h : Sourced parser kind ⟨e, active, client⟩) (hengine : e'.Sourced parser kind)
    (hindex : e'.index = e.index) : Sourced parser kind ⟨e', active, client'⟩ :=
  ⟨hengine, fun x hx => h.indexed x (hindex ▸ hx), h.staged⟩

theorem advance (h : e.Sourced parser kind) (hindexed : e.index.Filed parser kind) (hexact : e.index.Exact)
    (hnormal : ∀ p, kind p → p.normalize = p) {path : Path} (hpath : kind path) (trigger : Trigger)
    {stage : Stage} (hsound : stage.Sound e path) (hstage : stage.FiledFor parser kind path) :
    (e.advance path trigger stage).1.Sourced parser kind ∧
      (e.advance path trigger stage).1.index.Filed parser kind ∧
      (e.advance path trigger stage).2.FiledFor parser kind path := by
  cases stage with
  | viewed before =>
    rw [Engine.advance]
    split <;> exact ⟨⟨h.stored, h.parsed⟩, hindexed, trivial⟩
  | found before file =>
    rw [Engine.advance]
    split
    · exact ⟨h, hindexed, trivial⟩
    · have hbefore : ({ e with index := before } : Engine).Sourced parser kind := ⟨h.stored, h.parsed⟩
      obtain ⟨hafter, hsymbols⟩ := hbefore.symbolsOf hnormal hpath trigger hsound.2.1
      exact ⟨⟨hafter.stored, hafter.parsed⟩, hindexed, hsymbols⟩
  | bound before file symbols fromCache =>
    exact ⟨⟨h.stored, h.parsed⟩, hindexed.upsert hexact hstage, trivial⟩
  | missing before => exact ⟨⟨h.stored, h.parsed⟩, hindexed.remove hexact path, trivial⟩
  | dropped before removed =>
    have hindex : (e.removeRecord path).index = e.index := (Engine.agrees_removeRecord e path).index
    refine ⟨⟨Engine.every_removeRecord (StoreDirectory.lasts_filed parser kind) h.stored path,
      h.parsed.evict path⟩, fun x hx => ?_, trivial⟩
    replace hx : x ∈ (e.removeRecord path).index.entries := hx
    exact hindexed x (hindex ▸ hx)
  | published before file outcome fromCache => exact ⟨⟨h.stored, h.parsed⟩, hindexed, trivial⟩
  | recorded before file outcome fromCache => exact ⟨h, hindexed, trivial⟩
  | evicted before removed => exact ⟨⟨h.stored, h.parsed⟩, hindexed, trivial⟩
  | judged a => exact ⟨⟨h.stored, h.parsed⟩, hindexed, trivial⟩
  | released a promised => exact ⟨h, hindexed, trivial⟩
  | done a => exact ⟨h, hindexed, trivial⟩

theorem step {s s' : System} (h : s.Sourced parser kind) (hwithin : s.Within kind) (hsane : s.Sane)
    (hnormal : ∀ p, kind p → p.normalize = p) (hstep : Step s s') : s'.Sourced parser kind := by
  cases hstep with
  | disk e active client disk => exact h.of_eq ⟨h.engine.stored, h.engine.parsed⟩ rfl
  | change e active client call registry hclient hcall =>
    exact h.of_eq ⟨h.engine.stored, h.engine.parsed⟩ rfl
  | adopt e active project =>
    obtain ⟨hagrees, hparses, -⟩ := e.adopt_spec project
    refine h.of_eq ⟨?_, ?_⟩ hagrees.index
    · exact Engine.every_adopt (StoreDirectory.lasts_filed parser kind) h.engine.stored project
    · rw [hparses]
      exact h.engine.parsed.setLanguageLevel project.languageLevel
  | keep e active project => exact h.of_eq ⟨h.engine.stored, h.engine.parsed⟩ rfl
  | collect e active => exact h.of_eq ⟨h.engine.stored, h.engine.parsed⟩ rfl
  | order e active paths trigger =>
    refine h.of_eq ⟨?_, ?_⟩ (e.reads_orderBatch paths).index
    · exact Engine.every_orderBatch (StoreDirectory.lasts_filed parser kind) h.engine.stored paths
    · rw [Engine.parses_orderBatch]
      exact h.engine.parsed
  | enqueue e active order promises trigger =>
    exact h.of_eq ⟨h.engine.stored, h.engine.parsed⟩ rfl
  | start e active client left right path trigger hin =>
    refine ⟨⟨h.engine.stored, h.engine.parsed⟩, h.indexed, fun job hjob => ?_⟩
    rcases List.mem_cons.mp hjob with rfl | hjob
    · exact trivial
    · exact h.staged job hjob
  | advance e left right client job hstage =>
    have hjob : job ∈ left ++ job :: right := mem_middle_iff.mpr (Or.inl rfl)
    obtain ⟨hengine, hindexed, hnext⟩ := advance h.engine h.indexed hsane.traced.exact hnormal
      (hwithin.jobs job hjob).1 job.trigger (hsane.invariant.stages job hjob) (h.staged job hjob)
    refine ⟨hengine, hindexed, fun other hother => ?_⟩
    rcases mem_middle_iff.mp hother with rfl | hother
    · exact hnext
    · exact h.staged other (mem_middle_iff.mpr (Or.inr hother))
  | finish e left right client path trigger a =>
    exact ⟨⟨h.engine.stored, h.engine.parsed⟩, h.indexed,
      fun job hjob => h.staged job (mem_middle_iff.mpr (Or.inr hjob))⟩

end Sourced

def RunOver (used : Path → Prop) : System → System → Prop :=
  Relation.ReflTransGen fun s s' => Step s s' ∧ ∀ p ∈ s'.engine.registry.paths, used p

variable {config : EngineConfig} {world : World} {s : System}

theorem RunOver.run {s s' : System} (h : RunOver used s s') : Run s s' :=
  Relation.ReflTransGen.mono (fun _ _ hstep => hstep.1) _ _ h

/-- Whatever the stores held of the files in use at the start, it stays in place. -/
theorem sourced_of_run (hstores : world.Filed world.parser (InUse used))
    (hrun : RunOver used (start config world) s) :
    s.Within (InUse used) ∧ s.Sourced world.parser (InUse used) := by
  have hnormal : ∀ p, InUse used p → p.normalize = p := fun p hp => hp.1
  induction hrun with
  | refl =>
    refine ⟨within_start config world _, ⟨hstores, rfl, fun q print u hu => ?_⟩, fun x hx => ?_,
      fun job hjob => ?_⟩
    · simp [start, Engine.ofConfig, ParseCache.reusable?, ParseCache.cached?,
        EmptyCollection.emptyCollection] at hu
    · simp [start, Engine.ofConfig, Snapshot.entries, SortedMap.values,
        EmptyCollection.emptyCollection] at hx
    · simp [start] at hjob
  | tail hbefore hstep ih =>
    have hsane := sane_of_run (RunOver.run hbefore)
    have hkeys := (normal_of_run ((RunOver.run hbefore).tail hstep.1)).registry.held
    refine ⟨ih.1.step hsane.traced.exact hnormal hstep.1 fun p => ?_,
      ih.2.step ih.1 hsane hnormal hstep.1⟩
    exact Registry.kind_of_contains (fun p hp => ⟨hkeys p hp, hstep.2 p hp⟩) hnormal

/-- Stores that hold what was computed for files in use are left so. What is served for a file is
served for all files with its key, and was computed for one of them in use; so was what is indexed.
For a file with a key of its own these are its own symbols, each with its path, and if all files in
use have such keys, every symbol of the index names the file it is indexed for. -/
theorem own_symbols_of_own_key (hstores : world.Filed world.parser (InUse used))
    (hrun : RunOver used (start config world) s) :
    s.engine.world.Filed world.parser (InUse used) ∧
    (∀ before p file e' symbols,
      ({ s.engine with index := before } : Engine).cachedSymbols? p file = (e', some symbols) →
        (∀ q, pathKey q = pathKey p →
          ({ s.engine with index := before } : Engine).cachedSymbols? q file = (e', some symbols)) ∧
        symbols.FiledFor world.parser (InUse used) p file.fingerprint ∧
        (p.OwnKey (InUse used) →
          symbols.ComputedFor world.parser p file.fingerprint ∧ symbols.Located p)) ∧
    (∀ x ∈ s.engine.index.entries,
      x.symbols.FiledFor world.parser (InUse used) x.path x.fingerprint ∧
        (x.path.OwnKey (InUse used) →
          x.symbols.ComputedFor world.parser x.path x.fingerprint ∧ x.symbols.Located x.path)) ∧
    ((∀ p, InUse used p → p.OwnKey (InUse used)) → s.engine.index.Located) := by
  obtain ⟨hwithin, hsourced⟩ := sourced_of_run hstores hrun
  have hown {f : FileSymbols} {p : Path} {print : Fingerprint}
      (h : f.FiledFor world.parser (InUse used) p print) (hp : p.OwnKey (InUse used)) :
      f.ComputedFor world.parser p print ∧ f.Located p :=
    ⟨h.computedFor hp, (h.computedFor hp).located⟩
  refine ⟨hsourced.engine.stored, fun before p file e' symbols hserved => ?_, fun x hx => ?_,
    fun hkeys x hx y hy => ?_⟩
  · have hfiled : symbols.FiledFor world.parser (InUse used) p file.fingerprint :=
      Engine.filedFor_of_cachedSymbols? (e := { s.engine with index := before })
        hsourced.engine.stored hserved
    exact ⟨fun q hkey => (Engine.cachedSymbols?_congr _ hkey file).trans hserved, hfiled, hown hfiled⟩
  · exact ⟨hsourced.indexed x hx, hown (hsourced.indexed x hx)⟩
  · have hlocated := (hown (hsourced.indexed x hx) (hkeys _ (hwithin.engine.indexed x hx))).2
    rw [hlocated y hy]
    exact Std.ReflCmp.compare_self

theorem StoringRun.over {removed : List Path} (h : StoringRun config world used s removed) :
    RunOver used (System.start config world) s ∧ ∀ p ∈ s.engine.registry.paths, used p := by
  induction h with
  | start => exact ⟨.refl, by simp [System.start, Engine.ofConfig, Registry.paths, SortedMap.keys,
      EmptyCollection.emptyCollection]⟩
  | change _ hclient hcall hused ih =>
    exact ⟨ih.1.tail ⟨.change _ _ _ _ _ hclient hcall, hused⟩, hused⟩
  | @adopt e _ _ _ project ih =>
    have hregistry : (e.adopt project).registry = e.registry := (e.adopt_spec project).1.registry
    have hused : ∀ p ∈ (e.adopt project).registry.paths, used p := hregistry ▸ ih.2
    exact ⟨ih.1.tail ⟨.adopt _ _ project, hused⟩, hused⟩
  | proceed _ hstep _ hpaths _ ih => exact ⟨ih.1.tail ⟨hstep, hpaths ▸ ih.2⟩, hpaths ▸ ih.2⟩

theorem RunOver.step (h : RunOver used s ⟨e, active, client⟩)
    (hpaths : ∀ p ∈ e.registry.paths, used p) :
    RunOver used s ⟨e.step, active, client⟩ ∧ ∀ p ∈ e.step.registry.paths, used p := by
  cases hin : e.inFlight with
  | nil =>
    rw [Engine.step_of_nil hin]
    exact ⟨h, hpaths⟩
  | cons job rest =>
    obtain ⟨path, trigger⟩ := job
    have hadvances {s' : Engine × Stage}
        (hchain : Relation.ReflTransGen (Engine.Advances path trigger)
          ({ e with inFlight := rest }, .viewed e.index) s') :
        RunOver used s ⟨s'.1, ⟨path, trigger, s'.2⟩ :: active, client⟩ ∧
          ∀ p ∈ s'.1.registry.paths, used p := by
      induction hchain with
      | refl => exact ⟨h.tail ⟨.start e active client [] rest path trigger hin, hpaths⟩, hpaths⟩
      | @tail t _ _ hnext ih =>
        obtain ⟨hstage, rfl⟩ := hnext
        have hused : ∀ p ∈ (t.1.advance path trigger t.2).1.registry.paths, used p :=
          t.1.paths_advance path trigger t.2 ▸ ih.2
        exact ⟨ih.1.tail ⟨.advance _ [] active client ⟨path, trigger, t.2⟩ hstage, hused⟩, hused⟩
    have hdone := hadvances (Engine.advances_analyze { e with inFlight := rest } path trigger)
    rw [Engine.step, hin]
    simp only
    generalize { e with inFlight := rest }.analyze path trigger = r at hdone ⊢
    obtain ⟨e', a⟩ := r
    exact ⟨hdone.1.tail ⟨.finish e' [] active client path trigger a, hdone.2⟩, hdone.2⟩

open Engine

/-- Files with one text, and with keys of their own. -/
def twins : List (Path × String) :=
  [(⟨"/src/A.java"⟩, "class A {}"), (⟨"/src/B.java"⟩, "class A {}")]

def IsTwin (p : Path) : Prop := p ∈ twins.map (·.1)

theorem inUse_of_isTwin {p : Path} (h : IsTwin p) : InUse IsTwin p := by
  have hnormal : ∀ f ∈ twins, f.1.normalize = f.1 := by decide +kernel
  obtain ⟨f, hf, rfl⟩ := List.mem_map.mp h
  exact ⟨hnormal f hf, h⟩

theorem isTwin_first : IsTwin ⟨"/src/A.java"⟩ := by simp [IsTwin, twins]

theorem filed_twins : (onDisk twins).Filed Java.terse (InUse IsTwin) := by
  apply every_onDisk
  · intro d hnone p r hr
    obtain ⟨bytes, hnode, -⟩ := hr.isRead
    simp [hnone] at hnode
  · intro d d' h hstore
    exact h.store (inUse_of_isTwin isTwin_first) ⟨_, {}, rfl, Or.inr ⟨_, rfl⟩⟩ hstore

/-- The first file is taken from its record and the second analyzed. From then on the store serves
the first. -/
theorem twins_rest :
    let r := load cached (onDisk twins) oneRoot
    let e := r.1.step.step
    r.2.isNone = true ∧ r.1.registry.paths = twins.map (·.1) ∧ e.queue.cacheHits = 1 ∧
      (e.index.entries.map fun x => (x.path, x.symbols.symbols.map (·.path))) =
        twins.map (fun f => (f.1, [f.1])) ∧
      ((e.registry.files.get? ⟨"/src/A.java"⟩).any fun f =>
        (({ e with index := {} } : Engine).cachedSymbols? ⟨"/src/A.java"⟩ f).2.isSome) = true := by
  decide +kernel

theorem own_symbols_twins :
    let e := (load cached (onDisk twins) oneRoot).1.step.step
    e.queue.cacheHits = 1 ∧ e.index.Located ∧ e.index.entries.map (·.path) = twins.map (·.1) ∧
    (∀ x ∈ e.index.entries,
      x.symbols.ComputedFor Java.terse x.path x.fingerprint ∧ x.symbols.Located x.path) ∧
    ∃ file e' symbols, e.registry.files.get? ⟨"/src/A.java"⟩ = some file ∧
      ({ e with index := {} } : Engine).cachedSymbols? ⟨"/src/A.java"⟩ file = (e', some symbols) ∧
      symbols.ComputedFor Java.terse ⟨"/src/A.java"⟩ file.fingerprint ∧
      symbols.Located ⟨"/src/A.java"⟩ := by
  obtain ⟨hnone, hpaths, hhit, hentries, hserved⟩ := twins_rest
  have hreload : (ofConfig cached (onDisk twins)).reload oneRoot =
      ((load cached (onDisk twins) oneRoot).1, none) := load_eq_of_isNone hnone
  generalize (load cached (onDisk twins) oneRoot).1 = e at *
  have hused : ∀ p ∈ e.registry.paths, IsTwin p := fun p hp => by rwa [IsTwin, ← hpaths]
  obtain ⟨hfirst, hused'⟩ := (StoringRun.start.reload rfl hreload hused).over.1.step hused
  have hrun := (hfirst.step hused').1
  have hkeys : ∀ f ∈ twins, ∀ g ∈ twins, pathKey g.1 = pathKey f.1 → g.1 = f.1 := by decide +kernel
  have hown (p : Path) (hp : InUse IsTwin p) : p.OwnKey (InUse IsTwin) := by
    rintro q ⟨-, hq⟩ hkey
    obtain ⟨f, hf, rfl⟩ := List.mem_map.mp hp.2
    obtain ⟨g, hg, rfl⟩ := List.mem_map.mp hq
    exact hkeys f hf g hg hkey
  obtain ⟨-, hlookup, hindexed, hlocated⟩ := own_symbols_of_own_key filed_twins hrun
  have hlisted : e.step.step.index.entries.map (·.path) = twins.map (·.1) := by
    have hfirsts := congrArg (List.map Prod.fst) hentries
    rwa [List.map_map, List.map_map] at hfirsts
  refine ⟨hhit, hlocated hown, hlisted, fun x hx => ?_, ?_⟩
  · have htwin : IsTwin x.path := by
      rw [IsTwin, ← hlisted]
      exact List.mem_map_of_mem hx
    exact (hindexed x hx).2 (hown _ (inUse_of_isTwin htwin))
  · rw [Option.any_eq_true] at hserved
    obtain ⟨file, hfile, hsome⟩ := hserved
    rcases hcached : ({ e.step.step with index := {} } : Engine).cachedSymbols? ⟨"/src/A.java"⟩ file with
      ⟨e', _ | symbols⟩
    · simp [hcached] at hsome
    · exact ⟨file, e', symbols, hfile, hcached, (hlookup {} _ file e' symbols hcached).2.2
        (hown _ (inUse_of_isTwin isTwin_first))⟩

end System

end JavaAtlas
