import JavaAtlas.Proofs.Engine.StoreAgrees

/-!
# What is on record when a run comes to rest

In a storing run whatever an analysis computes can be stored, and a project is loaded only at rest.
Apart from that the moments of the workers and of the client follow each other in any way. The run
keeps a list of the files that were removed since the last project was loaded.
-/

namespace JavaAtlas

set_option autoImplicit false

open Std (TransCmp OrientedCmp ReflCmp)

/-- The analysis has its symbols, or does without. -/
def Stage.Late : Stage → Prop
  | .viewed _ | .found _ _ => False
  | _ => True

theorem Engine.late_advance {e : Engine} {path : Path} {trigger : Trigger} {stage : Stage}
    (h : (∃ before file, stage = .found before file) ∨ stage.Late) :
    (e.advance path trigger stage).2.Late := by
  cases stage with
  | viewed before => simp [Stage.Late] at h
  | found before file =>
    rw [Engine.advance]
    split <;> exact trivial
  | _ => exact trivial

/-- Whatever the next analysis computes can be stored. -/
def Engine.StoresNext (e : Engine) : Prop :=
  ∀ path trigger rest file, e.inFlight = (path, trigger) :: rest →
    (e.registry.file path).2 = some file →
    let r := ({ e with registry := (e.registry.file path).1, inFlight := rest } : Engine).symbolsOf
      path trigger file
    r.2.2 = false → e.Stores path file.fingerprint r.2.1

namespace System

/-- Whatever an analysis computes in this step can be stored. -/
def Stores (s s' : System) : Prop :=
  ∀ job ∈ s.active, ∀ before file symbols, job.stage = .found before file →
    { job with stage := .bound before file symbols false } ∈ s'.active →
      s.engine.Stores job.path file.fingerprint symbols

/-- A run in which everything that is computed can be stored, on files in use; with it, the files
removed since a project was last loaded. -/
inductive StoringRun (config : EngineConfig) (world : World) (used : Path → Prop) :
    System → List Path → Prop
  | start : StoringRun config world used (start config world) []
  | change {e : Engine} {active : List Job} {client : Client} {removed : List Path}
    (h : StoringRun config world used ⟨e, active, client⟩ removed) {call : Call}
    {registry : Registry} (hclient : client = .free ∨ client = .changed)
    (hcall : call.change e = some registry)
    (hused : ∀ p ∈ registry.paths, used p) :
    StoringRun config world used ⟨{ e with registry := registry }, active, .changed⟩
      (removed ++ e.registry.paths.filter fun p => !registry.contains p)
  | adopt {e : Engine} {removed : List Path}
    (h : StoringRun config world used ⟨e, [], .free⟩ removed) (hidle : e.isIdle = true)
    (project : Project) :
    StoringRun config world used
      ⟨e.adopt project, [],
        if (e.adopt project).registry.paths.isEmpty then .changed
        else .holding (e.adopt project).registry.paths .dependency⟩ []
  /-- Any other step: the client begins no call, and no file comes or goes. -/
  | proceed {s s' : System} {removed : List Path} (h : StoringRun config world used s removed)
    (hstep : Step s s') (hclient : s.client = .free → s'.client = .free)
    (hpaths : s'.engine.registry.paths = s.engine.registry.paths) (hstores : s.Stores s') :
    StoringRun config world used s' removed

variable {config : EngineConfig} {world : World} {used kind : Path → Prop} {s s' : System}
  {removed : List Path}

theorem StoringRun.run (h : StoringRun config world used s removed) : Run (System.start config world) s := by
  induction h with
  | start => exact .refl
  | change _ hclient hcall _ ih => exact .tail ih (.change _ _ _ _ _ hclient hcall)
  | adopt _ _ project ih => exact .tail ih (.adopt _ _ project)
  | proceed _ hstep _ _ _ ih => exact .tail ih hstep

theorem Kept.proceed (h : s.Kept kind removed) (hinvariant : s.Invariant)
    (hexact : s.engine.index.Exact) (hnormal : ∀ p, kind p → p.normalize = p)
    (hnames : ∀ p q, kind p → kind q → recordName p = recordName q → p = q)
    (hstep : Step s s') (hclient : s.client = .free → s'.client = .free)
    (hpaths : s'.engine.registry.paths = s.engine.registry.paths) (hstores : s.Stores s') :
    s'.Kept kind removed := by
  have hwithin : s'.Within kind := h.within.step hexact hnormal hstep fun p =>
    Registry.kind_of_contains (hpaths ▸ h.within.registry.held) hnormal
  have hremoved : ∀ p ∈ removed, kind p ∧ (s'.engine.registry.contains p = false →
      (p ∈ removed ∧ s.engine.registry.contains p = false) ∨ s'.Drops p) := fun p hp =>
    ⟨(h.removed p hp).1, fun hgone =>
      Or.inl ⟨hp, (Registry.contains_congr hpaths p).symm.trans hgone⟩⟩
  have hquiet (hindex : s'.engine.index = s.engine.index)
      (hrecords : s.engine.KeepsRecords s'.engine kind) (hactive : s'.active = s.active) :
      s'.Kept kind removed :=
    h.quiet hinvariant hstep hwithin hindex hrecords (fun _ hjob => Or.inl (hactive ▸ hjob))
      (fun _ hjob => Or.inl (hactive ▸ hjob)) hremoved
  cases hstep with
  | disk e active client disk => exact hquiet rfl (.of_stores_eq rfl rfl) rfl
  | change e active client call registry _ hcall => exact hquiet rfl (.of_stores_eq rfl rfl) rfl
  | adopt e active project =>
    have hfree := hclient rfl
    split at hfree <;> simp at hfree
  | keep e active project => exact hquiet rfl (.of_stores_eq rfl rfl) rfl
  | collect e active => exact hquiet rfl (.of_stores_eq rfl rfl) rfl
  | order e active paths trigger =>
    have hpaths : ∀ q ∈ paths, kind q := h.within.client
    refine hquiet (e.reads_orderBatch paths).index (.orderBatch (fun q hq p hp => ?_) e) rfl
    exact hnames p q hp (hpaths q hq)
  | enqueue e active order promises trigger => exact hquiet rfl (.of_stores_eq rfl rfl) rfl
  | start e active client left right path trigger hin =>
    refine h.quiet hinvariant (.start e active client left right path trigger hin) hwithin rfl
      (.of_stores_eq rfl rfl) (fun job hjob => Or.inl (List.mem_cons_of_mem _ hjob))
      (fun job hjob => ?_) hremoved
    rcases List.mem_cons.mp hjob with rfl | hjob
    · exact Or.inr ⟨_, rfl⟩
    · exact Or.inl hjob
  | advance e left right client job hstage =>
    refine h.next hnormal hnames hinvariant hstage hwithin ?_
    intro before file symbols hfound hbound
    refine hstores job (mem_middle_iff.mpr (Or.inl rfl)) before file symbols hfound ?_
    exact mem_middle_iff.mpr (Or.inl (by rw [hbound]))
  | finish e left right client path trigger a =>
    refine h.quiet hinvariant (.finish e left right client path trigger a) hwithin rfl
      (.of_stores_eq rfl rfl) (fun job hjob => ?_)
      (fun job hjob => Or.inl (mem_middle_iff.mpr (Or.inr hjob))) hremoved
    rcases mem_middle_iff.mp hjob with rfl | hjob
    · exact Or.inr ⟨a, rfl⟩
    · exact Or.inl hjob

theorem owes_of_removed {e : Engine} {active : List Job} {client : Client}
    (h : Invariant ⟨e, active, client⟩) {call : Call} {registry : Registry}
    (hcall : call.change e = some registry) {p : Path} (hold : e.registry.contains p = true)
    (hgone : registry.contains p = false) :
    Owes ⟨{ e with registry := registry }, active, .changed⟩ p := by
  obtain ⟨changed, hreports⟩ := reports_change hcall
  obtain ⟨paths, htold, -⟩ := h.told
  by_cases hp : p.OneOf changed
  · exact .of_told (hreports.told paths htold) ((Path.oneOf_append_iff _ _ _).mpr (Or.inr hp))
  · rw [Registry.contains, SortedMap.contains_eq_isSome_get?] at hold hgone
    rw [hreports.files p hp, hold] at hgone
    simp at hgone

theorem Kept.change {e : Engine} {active : List Job} {client : Client}
    (h : Kept kind ⟨e, active, client⟩ removed) (hinvariant : Invariant ⟨e, active, client⟩)
    (hexact : e.index.Exact) (hnormal : ∀ p, kind p → p.normalize = p) {call : Call}
    {registry : Registry} (hclient : client = .free ∨ client = .changed)
    (hcall : call.change e = some registry)
    (hkind : ∀ p, p.normalize = p → registry.contains p = true → kind p) :
    Kept kind ⟨{ e with registry := registry }, active, .changed⟩
      (removed ++ e.registry.paths.filter fun p => !registry.contains p) := by
  have hstep := Step.change e active client call registry hclient hcall
  refine h.quiet hinvariant hstep (h.within.step hexact hnormal hstep hkind) rfl
    (.of_stores_eq rfl rfl) (fun _ => Or.inl) (fun _ => Or.inl) fun p hp => ?_
  have hmem : p ∈ removed ∨ p ∈ e.registry.paths :=
    (List.mem_append.mp hp).imp_right fun hp => (List.mem_filter.mp hp).1
  refine ⟨hmem.elim (fun hp => (h.removed p hp).1) (h.within.registry.held p), fun hgone => ?_⟩
  by_cases hold : e.registry.contains p = true
  · exact Or.inr (Or.inl (owes_of_removed hinvariant hcall hold hgone))
  · exact Or.inl ⟨hmem.resolve_right fun hp => hold (Registry.contains_of_mem_paths hp),
      Bool.eq_false_iff.mpr hold⟩

/-- At rest every file is asked for anew when a project is loaded, whatever its store holds. -/
theorem Kept.adopt {e : Engine} (h : Kept kind ⟨e, [], .free⟩ removed)
    (hinvariant : Invariant ⟨e, [], .free⟩) (hexact : e.index.Exact)
    (hnormal : ∀ p, kind p → p.normalize = p) (hidle : e.isIdle = true) (project : Project) :
    Kept kind ⟨e.adopt project, [],
      if (e.adopt project).registry.paths.isEmpty then .changed
      else .holding (e.adopt project).registry.paths .dependency⟩ [] := by
  obtain ⟨hagrees, -⟩ := e.adopt_spec project
  have hregistry : (e.adopt project).registry = e.registry := hagrees.registry
  have hstep := Step.adopt e [] project
  refine ⟨h.within.step hexact hnormal hstep fun p hp hc => ?_, e.storeFree_adopt project,
    by simp, fun p hp => ?_, by simp⟩
  · exact Registry.kind_of_contains h.within.registry.held hnormal hp (hregistry ▸ hc)
  · obtain ⟨removed, hlanded, -⟩ := hinvariant.settled hidle p
    cases hknown : e.registry.known? p with
    | none =>
      refine Or.inl (Engine.agreed_of_none ?_)
      rw [hagrees.index]
      exact ((Engine.landed_of_unknown hknown removed).mp hlanded).2
    | some f =>
      have hmem : p.OneOf (e.adopt project).registry.paths := by
        rw [hregistry]
        exact Registry.oneOf_paths_of_known? hknown
      refine Or.inr (Or.inl (Or.inl ?_))
      split
      next hempty => simp [List.isEmpty_iff.mp hempty, Path.not_oneOf_nil] at hmem
      next => exact ⟨rfl, hmem⟩

theorem kept_start (config : EngineConfig) (world : World) (kind : Path → Prop) :
    (System.start config world).Kept kind [] where
  within := within_start config world kind
  free root hroot := by simp [System.start, Engine.ofConfig] at hroot
  stages job hjob := by simp [System.start] at hjob
  entries p _ := Or.inl (Engine.agreed_of_none rfl)
  removed p hp := by simp at hp

/-- A path in normal form that is in use. -/
def InUse (used : Path → Prop) (p : Path) : Prop := p.normalize = p ∧ used p

theorem StoringRun.kept (h : StoringRun config world used s removed)
    (hnames : ∀ p q, InUse used p → InUse used q → recordName p = recordName q → p = q) :
    s.Kept (InUse used) removed := by
  have hnormal : ∀ p, InUse used p → p.normalize = p := fun p hp => hp.1
  induction h with
  | start => exact kept_start config world _
  | change h hclient hcall hused ih =>
    have hsane := sane_of_run h.run
    have hkeys := (normal_of_run (h.change hclient hcall hused).run).registry.held
    exact ih.change hsane.invariant hsane.traced.exact hnormal hclient hcall fun p =>
      Registry.kind_of_contains (fun p hp => ⟨hkeys p hp, hused p hp⟩) hnormal
  | adopt h hidle project ih =>
    have hsane := sane_of_run h.run
    exact ih.adopt hsane.invariant hsane.traced.exact hnormal hidle project
  | proceed h hstep hclient hpaths hstores ih =>
    have hsane := sane_of_run h.run
    exact ih.proceed hsane.invariant hsane.traced.exact hnormal hnames hstep hclient hpaths hstores

/-! ## Parties that are not interrupted -/

theorem paths_drainChanges (e : Engine) : e.drainChanges.1.registry.paths = e.registry.paths := by
  have hcollect := e.registry.paths_collect 0
  rw [Engine.drainChanges]
  generalize e.registry.collect 0 = collected at hcollect ⊢
  obtain ⟨registry, events⟩ := collected
  simp only
  split
  · exact hcollect
  · rw [Engine.schedule_eq]
    exact (Engine.paths_orderBatch _ _).trans hcollect

theorem contains_registerRoots {e e' : Engine} {roots : List Path}
    (h : e.registerRoots roots = (e', none)) {p : Path} (hp : e.registry.contains p = true) :
    e'.registry.contains p = true := by
  induction roots generalizing e with
  | nil =>
    obtain ⟨rfl, -⟩ := Prod.mk.inj h
    exact hp
  | cons root roots ih =>
    rw [Engine.registerRoots] at h
    split at h
    · rename_i registry paths hroot
      exact ih h (Registry.contains_registerRoot hroot hp)
    · simp at h

namespace StoringRun

variable {e e' : Engine} {client client' : Client}

theorem alone (h : StoringRun config world used ⟨e, [], client⟩ removed)
    (hstep : Step ⟨e, [], client⟩ ⟨e', [], client'⟩) (hclient : client = .free → client' = .free)
    (hpaths : e'.registry.paths = e.registry.paths) :
    StoringRun config world used ⟨e', [], client'⟩ removed :=
  .proceed h hstep hclient hpaths fun job hjob => by simp at hjob

theorem schedule {paths : List Path} {trigger : Trigger}
    (h : StoringRun config world used ⟨e, [], .holding paths trigger⟩ removed) :
    StoringRun config world used ⟨e.schedule paths trigger, [], .afterBatch trigger⟩ removed := by
  rw [Engine.schedule_eq]
  exact (h.alone (.order e [] paths trigger) (by simp) (e.paths_orderBatch paths)).alone
    (.enqueue _ _ _ _ trigger) (by simp) rfl

theorem drainChanges (h : StoringRun config world used ⟨e, [], .changed⟩ removed) :
    StoringRun config world used ⟨e.drainChanges.1, [], .free⟩ removed := by
  have hcollected := h.alone (.collect e []) (by simp) (e.registry.paths_collect 0)
  rw [Engine.drainChanges]
  by_cases hempty : (e.registry.collect 0).2.isEmpty = true
  · simp only [hempty, if_true] at hcollected ⊢
    exact hcollected
  · simp only [hempty] at hcollected ⊢
    exact hcollected.schedule

theorem call (h : StoringRun config world used ⟨e, [], .free⟩ removed) {call : Call}
    (hrun : call.run e = some e') (hused : ∀ p ∈ e'.registry.paths, used p) :
    StoringRun config world used ⟨e', [], .free⟩
      (removed ++ e.registry.paths.filter fun p => !e'.registry.contains p) := by
  rw [Call.run_eq] at hrun
  obtain ⟨registry, hcall, rfl⟩ := Option.map_eq_some_iff.mp hrun
  simp only [paths_drainChanges, Registry.contains_congr (paths_drainChanges _)] at hused ⊢
  exact (h.change (Or.inl rfl) hcall hused).drainChanges

theorem registerRoots {roots : List Path}
    (h : StoringRun config world used ⟨e, [], .changed⟩ [])
    (hroots : e.registerRoots roots = (e', none)) (hused : ∀ p ∈ e'.registry.paths, InUse used p) :
    StoringRun config world used ⟨e', [], .changed⟩ [] := by
  induction roots generalizing e with
  | nil =>
    obtain ⟨rfl, -⟩ := Prod.mk.inj hroots
    exact h
  | cons root roots ih =>
    rw [Engine.registerRoots] at hroots
    split at hroots
    · rename_i registry paths hroot
      have hcall := Call.change_registerRoot_eq_some_iff.mpr ⟨paths, hroot⟩
      have hkeys := (normal_of_run
        (h.run.tail (.change e [] .changed _ registry (Or.inr rfl) hcall))).registry.held
      have hinuse : ∀ p ∈ registry.paths, InUse used p := fun p hp =>
        Registry.kind_of_contains hused (fun q hq => hq.1) (hkeys p hp)
          (contains_registerRoots hroots (Registry.contains_of_mem_paths hp))
      have hchanged := h.change (Or.inr rfl) hcall fun p hp => (hinuse p hp).2
      have hnone : (e.registry.paths.filter fun p => !registry.contains p) = [] := by
        apply List.filter_eq_nil_iff.mpr
        intro p hp
        simp [Registry.contains_registerRoot hroot (Registry.contains_of_mem_paths hp)]
      rw [hnone, List.nil_append] at hchanged
      exact ih hchanged hroots
    · simp at hroots

theorem reload (h : StoringRun config world used ⟨e, [], .free⟩ removed) (hidle : e.isIdle = true)
    {project : Project} (hreload : e.reload project = (e', none))
    (hused : ∀ p ∈ e'.registry.paths, used p) :
    StoringRun config world used ⟨e', [], .free⟩ [] := by
  have hnormal := (normal_of_run (h.run.trans (run_reload hreload []))).registry.held
  rw [Engine.reload_eq] at hreload
  split at hreload
  · simp at hreload
  · rename_i loaded hroots
    obtain ⟨rfl, -⟩ := Prod.mk.inj hreload
    have hadopted := h.adopt hidle project
    have hscheduled : StoringRun config world used
        ⟨if (e.adopt project).registry.paths.isEmpty then e.adopt project
          else (e.adopt project).schedule (e.adopt project).registry.paths .dependency,
          [], .changed⟩ [] := by
      split at hadopted
      · rw [if_pos ‹_›]
        exact hadopted
      · rw [if_neg ‹_›]
        exact hadopted.schedule
    have hread := hscheduled.registerRoots hroots fun p hp => by
      rw [← paths_drainChanges loaded] at hp
      exact ⟨hnormal p hp, hused p hp⟩
    exact hread.drainChanges.alone (.keep _ [] project) id rfl

end StoringRun

/-! ## A worker that is not interrupted -/

open Relation (ReflTransGen)

namespace StoringRun

variable {e e' : Engine} {client : Client} {path : Path} {trigger : Trigger} {stage : Stage}

theorem advance (h : StoringRun config world used ⟨e, [⟨path, trigger, stage⟩], client⟩ removed)
    (hstage : ∀ a, stage ≠ .done a)
    (hstores : ∀ before file symbols, stage = .found before file →
      (e.advance path trigger stage).2 = .bound before file symbols false →
        e.Stores path file.fingerprint symbols) :
    StoringRun config world used ⟨(e.advance path trigger stage).1,
      [⟨path, trigger, (e.advance path trigger stage).2⟩], client⟩ removed := by
  refine .proceed h (.advance e [] [] client ⟨path, trigger, stage⟩ hstage) id
    (e.paths_advance path trigger stage) ?_
  intro job hjob before file symbols hfound hmem
  obtain rfl : job = ⟨path, trigger, stage⟩ := List.mem_singleton.mp hjob
  exact hstores before file symbols hfound (congrArg Job.stage (List.mem_singleton.mp hmem)).symm

theorem advances {s s' : Engine × Stage}
    (h : StoringRun config world used ⟨s.1, [⟨path, trigger, s.2⟩], client⟩ removed)
    (hlate : s.2.Late) (hchain : ReflTransGen (Engine.Advances path trigger) s s') :
    StoringRun config world used ⟨s'.1, [⟨path, trigger, s'.2⟩], client⟩ removed := by
  have hboth : StoringRun config world used ⟨s'.1, [⟨path, trigger, s'.2⟩], client⟩ removed ∧
      s'.2.Late := by
    induction hchain with
    | refl => exact ⟨h, hlate⟩
    | tail _ hnext ih =>
      obtain ⟨hstage, rfl⟩ := hnext
      refine ⟨ih.1.advance hstage fun before file symbols hfound => ?_,
        Engine.late_advance (Or.inr ih.2)⟩
      rw [hfound] at ih
      exact absurd ih.2 id
  exact hboth.1

/-- The moments of one analysis, of which only the second can write new symbols. -/
theorem analysis {a : Analysis}
    (h : StoringRun config world used ⟨e, [⟨path, trigger, .viewed e.index⟩], client⟩ removed)
    (hchain : ReflTransGen (Engine.Advances path trigger) (e, .viewed e.index) (e', .done a))
    (hstores : ∀ file, (e.registry.file path).2 = some file →
      let r := { e with registry := (e.registry.file path).1 }.symbolsOf path trigger file
      r.2.2 = false → e.Stores path file.fingerprint r.2.1) :
    StoringRun config world used ⟨e', [⟨path, trigger, .done a⟩], client⟩ removed := by
  have hviewed := h.advance (by simp) (by simp)
  rcases hchain.cases_head with heq | ⟨next, ⟨-, rfl⟩, hrest⟩
  · simp at heq
  · rcases hfile : e.registry.file path with ⟨registry, _ | file⟩
    · simp only [Engine.advance, hfile] at hviewed hrest
      exact advances (s := (e, .missing e.index)) hviewed trivial hrest
    · simp only [Engine.advance, hfile] at hviewed hrest
      rcases hrest.cases_head with heq | ⟨next, ⟨-, rfl⟩, hrest⟩
      · simp at heq
      · refine (hviewed.advance (by simp) ?_).advances
          (Engine.late_advance (Or.inl ⟨_, _, rfl⟩)) hrest
        intro before file' symbols hfound hbound
        obtain ⟨rfl, rfl⟩ := Stage.found.inj hfound
        have hseen : e.KeepsRecords { e with registry := registry } (· = path) :=
          .of_stores_eq rfl rfl
        refine hseen.stores rfl ?_
        rw [Engine.advance] at hbound
        split at hbound
        · simp at hbound
        · obtain ⟨-, -, hsymbols, hcomputed⟩ := Stage.bound.inj hbound
          have hagainst := Engine.symbolsAgainst_index { e with registry := registry } path trigger file
          rw [hagainst] at hsymbols hcomputed
          have hfound : (e.registry.file path).2 = some file := by rw [hfile]
          have hnext := hstores file hfound
          simp only [hfile] at hnext
          rw [← hsymbols]
          exact hnext hcomputed

theorem step (h : StoringRun config world used ⟨e, [], .free⟩ removed) (hstores : e.StoresNext) :
    StoringRun config world used ⟨e.step, [], .free⟩ removed := by
  cases hin : e.inFlight with
  | nil => rwa [Engine.step_of_nil hin]
  | cons job rest =>
    obtain ⟨path, trigger⟩ := job
    have hstart : StoringRun config world used
        ⟨{ e with inFlight := rest }, [⟨path, trigger, .viewed e.index⟩], .free⟩ removed :=
      .proceed h (.start e [] .free [] rest path trigger hin) id rfl
        fun job hjob => by simp at hjob
    have hchain := Engine.advances_analyze { e with inFlight := rest } path trigger
    have hdone := hstart.analysis hchain fun file hfile => hstores path trigger rest file hin hfile
    rw [Engine.step, hin]
    simp only
    generalize { e with inFlight := rest }.analyze path trigger = r at hdone ⊢
    obtain ⟨e', a⟩ := r
    refine .proceed hdone (.finish e' [] [] .free path trigger a) id rfl ?_
    intro job hjob before file symbols hfound
    rw [List.mem_singleton.mp hjob] at hfound
    simp at hfound

end StoringRun

/-! ## At rest -/

theorem Invariant.at_rest {e : Engine} {active : List Job} (h : Invariant ⟨e, active, .free⟩)
    (hidle : e.isIdle = true) (p : Path) :
    ¬ Renews ⟨e, active, .free⟩ p ∧ ¬ Drops ⟨e, active, .free⟩ p := by
  obtain ⟨hjobs, hawaits⟩ := h.queue.of_isIdle hidle
  obtain ⟨hin, hactive⟩ : e.inFlight = [] ∧ active = [] := by
    simpa only [jobs, List.append_eq_nil_iff, List.map_eq_nil_iff] using hjobs
  subst hactive
  constructor
  · rintro ((hp | hp | ⟨job, hjob, -⟩) | ⟨job, hjob, -⟩)
    · exact hp
    · exact hawaits p hp.1
    · simp [hin] at hjob
    · simp at hjob
  · rintro ((⟨paths, htold, hp⟩ | hp | hp | hp) | ⟨job, hjob, -⟩)
    · obtain ⟨paths', htold', hempty⟩ := h.told
      rw [← (collect_of_told htold).1, (collect_of_told htold').1, hempty (by simp)] at hp
      exact Path.not_oneOf_nil p hp
    · exact hp
    · exact hawaits p hp
    · simp only [hin] at hp
      exact Path.not_oneOf_nil p hp
    · simp at hjob

theorem eq_of_recordName_eq
    (hkeys : ∀ p q, used p → used q → pathKey p = pathKey q → compare p q = .eq)
    (hdigests : DistinctRecords used) {p q : Path} (hp : InUse used p) (hq : InUse used q)
    (h : recordName p = recordName q) : p = q := by
  have hkey := hdigests p q hp.2 hq.2 ((recordName_eq_iff p q).mp h)
  exact Path.eq_of_normal hp.1 hq.1 (hkeys p q hp.2 hq.2 hkey)

/-- Whenever a storing run is at rest with a store, a lookup for each registered file and its current
text finds the symbols that are indexed for it, and a lookup for a file that was removed since the
store was opened, and not registered again, finds nothing. -/
theorem store_agrees_when_idle {root : Path}
    (hkeys : ∀ p q, used p → used q → pathKey p = pathKey q → compare p q = .eq)
    (hdigests : DistinctRecords used) (hrun : StoringRun config world used s removed)
    (hidle : s.engine.isIdle = true) (hclient : s.client = .free)
    (hstore : s.engine.store = some root) :
    (∀ p ∈ s.engine.registry.paths, ∃ f x symbols,
      s.engine.registry.files.get? p = some f ∧ s.engine.index.file? p = some x ∧
      ((s.engine.directoryAt root).loadMatching symbolSchema Codec.fileSymbols p (.ofText f.text)).2 =
        .hit (.ofText f.text) symbols ∧
      (x.symbols == symbols) = true) ∧
    ∀ p ∈ removed, s.engine.registry.contains p = false → ∀ print,
      ((s.engine.directoryAt root).loadMatching symbolSchema Codec.fileSymbols p print).2 =
        .miss .absent := by
  obtain ⟨e, active, client⟩ := s
  obtain rfl : client = .free := hclient
  have hinvariant := (sane_of_run hrun.run).invariant
  have hkept := hrun.kept fun p q => eq_of_recordName_eq hkeys hdigests
  constructor
  · intro p hp
    obtain ⟨f, hfile⟩ := SortedMap.contains_iff_exists_get?.mp (Registry.contains_of_mem_paths hp)
    obtain ⟨removed, hlanded, -⟩ := hinvariant.settled hidle p
    obtain ⟨-, hprint, -⟩ :=
      (Engine.landed_of_known? (Registry.known?_of_some hfile) removed).mp hlanded
    obtain ⟨x, hx, hprint⟩ := Option.map_eq_some_iff.mp hprint
    have hagreed : e.Agreed p := (hkept.entries p (hkept.within.registry.held p hp)).resolve_right
      (hinvariant.at_rest hidle p).1
    obtain ⟨symbols, hrecorded, hsame⟩ := hagreed x hx
    rw [hprint] at hrecorded
    have hload := StoreDirectory.load_eq_hit_iff.mpr (hrecorded root hstore)
    exact ⟨f, x, symbols, hfile, hx, StoreDirectory.loadMatching_eq_hit_iff.mpr ⟨rfl, hload⟩, hsame⟩
  · intro p hp hgone print
    have hno : e.Unrecorded p := ((hkept.removed p hp).2 hgone).resolve_right
      (hinvariant.at_rest hidle p).2
    have habsent : ((e.directoryAt root).load symbolSchema Codec.fileSymbols p).2 = .miss .absent :=
      StoreDirectory.load_of_absent (hno root hstore)
    rcases (e.directoryAt root).loadMatching_cases symbolSchema Codec.fileSymbols p print with
      ⟨r, hr, -⟩ | ⟨-, hload⟩
    · obtain ⟨bytes, hnode, -⟩ := hr.isRead
      exact absurd hnode (hno root hstore bytes)
    · rw [hload, habsent]

end System

namespace Engine

/-- The file that is analyzed next, if there is one, is on record as it is. -/
def nextIsStored (e : Engine) : Bool :=
  match e.inFlight with
  | [] => true
  | (path, trigger) :: rest =>
    match e.registry.file path with
    | (_, none) => true
    | (registry, some file) =>
      (({ e with registry := registry, inFlight := rest } : Engine).symbolsOf path trigger file).2.2

theorem storesNext_of_nextIsStored {e : Engine} (h : e.nextIsStored = true) : e.StoresNext := by
  intro path trigger rest file hin hfile r hcomputed
  rw [nextIsStored, hin] at h
  rcases hfound : e.registry.file path with ⟨registry, _ | known⟩
  · simp [hfound] at hfile
  · obtain rfl : known = file := by simpa [hfound] using hfile
    simp only [hfound] at h
    simp only [r, hfound, h] at hcomputed
    simp at hcomputed

/-- `Engine.oneFile` with a record of the file in the store that `Engine.cached` asks for. -/
def oneRecord : World where
  disk := oneFile.disk
  stores := (∅ : SortedMap Path StoreDirectory).insert
    ⟨"/cache/56c9e1c4b5360a5b089004396ed37fe3a20f7c4f5954072098039789ba3ab68a/symbols"⟩ {
      marker := some (Text.encode "3")
      records := some ((∅ : SortedMap String RecordNode).insert (recordName ⟨"/src/A.java"⟩)
        (.file ((StoredRecord.codec Codec.fileSymbols).write {
          schema := symbolSchema
          savedAt := 0
          key := pathKey ⟨"/src/A.java"⟩
          fingerprint := .ofText "class A {}"
          payload := {} }))) }

/-- A load that went well, comes to rest with a store and one file, and again once the file is
removed. -/
def restsTwice (r : Engine × Option EngineError) (path : Path) : Bool :=
  let removed := (r.1.step.remove path).1
  r.2.isNone && r.1.nextIsStored && r.1.step.isIdle && r.1.step.store.isSome &&
    r.1.registry.paths.map (·.spelling) == [path.spelling] &&
    r.1.step.registry.paths.map (·.spelling) == [path.spelling] &&
    removed.registry.paths.isEmpty && removed.nextIsStored && removed.step.isIdle &&
    removed.step.store.isSome && removed.step.registry.paths.isEmpty

/-- Both rests are those of a storing run that uses one path. -/
structure RestsTwice (config : EngineConfig) (world : World) (e : Engine) (path : Path) : Prop where
  first : System.StoringRun config world (· = path) ⟨e.step, [], .free⟩ []
  idle : e.step.isIdle = true
  store : ∃ root, e.step.store = some root
  mem : path ∈ e.step.registry.paths
  second : System.StoringRun config world (· = path) ⟨(e.step.remove path).1.step, [], .free⟩ [path]
  idle_removed : (e.step.remove path).1.step.isIdle = true
  store_removed : ∃ root, (e.step.remove path).1.step.store = some root
  gone : (e.step.remove path).1.step.registry.contains path = false

theorem restsTwice_spec {config : EngineConfig} {world : World} {project : Project} {path : Path}
    (h : restsTwice (load config world project) path = true) :
    RestsTwice config world (load config world project).1 path := by
  simp only [restsTwice, Bool.and_eq_true, beq_iff_eq, Option.isNone_iff_eq_none,
    Option.isSome_iff_exists, List.isEmpty_iff] at h
  obtain ⟨⟨⟨⟨⟨⟨⟨⟨⟨⟨hloads, hstored⟩, hidle⟩, hstore⟩, hloaded⟩, hread⟩, hempty⟩, hnext⟩, hidle'⟩,
    hstore'⟩, hempty'⟩ := h
  have honly {paths : List Path} (h : paths.map (·.spelling) = [path.spelling]) : paths = [path] :=
    Path.eq_of_spelling h
  have hreload : (ofConfig config world).reload project = ((load config world project).1, none) :=
    Prod.ext rfl hloads
  generalize (load config world project).1 = e at *
  have hfirst : System.StoringRun config world (· = path) ⟨e.step, [], .free⟩ [] := by
    refine (System.StoringRun.start.reload rfl hreload fun p hp => ?_).step
      (storesNext_of_nextIsStored hstored)
    simpa [honly hloaded] using hp
  have hcall : (Call.remove path).run e.step = some (e.step.remove path).1 := rfl
  have hcalled := hfirst.call hcall fun p hp => by simp [hempty] at hp
  have hgone {r : Registry} (h : r.paths = []) : r.contains path = false := by
    rw [Bool.eq_false_iff, Ne, r.contains_iff_oneOf_paths, h]
    exact path.not_oneOf_nil
  have hfiltered : (e.step.registry.paths.filter fun p =>
      !(e.step.remove path).1.registry.contains p) = [path] := by
    simp [honly hread, hgone hempty]
  rw [hfiltered] at hcalled
  exact ⟨hfirst, hidle, hstore, by simp [honly hread], hcalled.step (storesNext_of_nextIsStored hnext),
    hidle', hstore', hgone hempty'⟩

end Engine

namespace System

open Engine

set_option maxRecDepth 100000 in
theorem store_agrees_oneRecord :
    let e := (load cached oneRecord oneRoot).1.step
    let e' := (e.remove ⟨"/src/A.java"⟩).1.step
    (∃ root f x symbols, e.store = some root ∧
      e.registry.files.get? ⟨"/src/A.java"⟩ = some f ∧ e.index.file? ⟨"/src/A.java"⟩ = some x ∧
      ((e.directoryAt root).loadMatching symbolSchema Codec.fileSymbols ⟨"/src/A.java"⟩
        (.ofText f.text)).2 = .hit (.ofText f.text) symbols ∧
      (x.symbols == symbols) = true) ∧
    ∃ root, e'.store = some root ∧ ∀ print,
      ((e'.directoryAt root).loadMatching symbolSchema Codec.fileSymbols ⟨"/src/A.java"⟩
        print).2 = .miss .absent := by
  have hrests : restsTwice (load cached oneRecord oneRoot) ⟨"/src/A.java"⟩ = true := by
    decide +kernel
  have h := restsTwice_spec hrests
  have hkeys (p q : Path) (hp : p = ⟨"/src/A.java"⟩) (hq : q = ⟨"/src/A.java"⟩) :
      pathKey p = pathKey q → compare p q = .eq := by
    rw [hp.trans hq.symm]
    exact fun _ => ReflCmp.compare_self
  have hdigests : DistinctRecords (· = (⟨"/src/A.java"⟩ : Path)) :=
    fun p q hp hq _ => by rw [hp, hq]
  clear hrests
  generalize (load cached oneRecord oneRoot).1 = e at *
  obtain ⟨root, hstore⟩ := h.store
  obtain ⟨root', hstore'⟩ := h.store_removed
  obtain ⟨f, x, symbols, hfound⟩ :=
    (store_agrees_when_idle hkeys hdigests h.first h.idle rfl hstore).1 _ h.mem
  have hgone := (store_agrees_when_idle hkeys hdigests h.second h.idle_removed rfl hstore').2 _
    (List.mem_singleton_self _) h.gone
  exact ⟨⟨root, f, x, symbols, hstore, hfound⟩, root', hstore', hgone⟩

end System

end JavaAtlas
