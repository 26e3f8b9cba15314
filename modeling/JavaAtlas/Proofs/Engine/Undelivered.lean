import JavaAtlas.Proofs.Engine.Spelling
import JavaAtlas.Proofs.Engine.WarmStart

/-!
# Changes that were not handed over

A call that succeeds hands every change of the registry to the queue. A project whose second root
cannot be read has changed the registry with its first one when it fails, and it returns without
handing that over. The new files then wait, unknown to the queue, until a later call succeeds.
-/

namespace JavaAtlas

set_option autoImplicit false

open Std (TransCmp OrientedCmp ReflCmp)

namespace Registry

variable {r r' r'' : Registry}

theorem Reports.refl (r : Registry) : Reports r r [] :=
  ⟨.of_files_eq rfl rfl, fun paths h => by rwa [List.append_nil]⟩

theorem Reports.trans {changed changed' : List Path} (h : Reports r r' changed)
    (h' : Reports r' r'' changed') : Reports r r'' (changed ++ changed') :=
  ⟨h.toChanges.trans h'.toChanges, fun paths hp => by
    rw [← List.append_assoc]
    exact h'.told _ (h.told paths hp)⟩

theorem path_mem_of_mem_loadFile {sources : List (Path × String)}
    {state : Registry × List ChangeEvent} {x : ChangeEvent}
    (hx : x ∈ (sources.foldl loadFile state).2) : x ∈ state.2 ∨ x.path ∈ sources.map (·.1) := by
  induction sources generalizing state with
  | nil => exact .inl hx
  | cons source sources ih =>
    rw [List.foldl_cons] at hx
    rw [List.map_cons, List.mem_cons]
    rcases ih hx with hx | hx
    · rw [loadFile] at hx
      split at hx
      · exact .inl hx
      · rcases List.mem_append.mp hx with hx | hx
        · exact .inl hx
        · rw [List.mem_singleton.mp hx, path_setText]
          exact .inr (.inl rfl)
    · exact .inr (.inr hx)

theorem contains_of_mem_registerRoot {disk : Disk} {root p : Path} {paths : List Path}
    (h : r.registerRoot disk root = (r', .ok paths)) (hp : p ∈ paths) : r'.contains p = true := by
  obtain ⟨-, sources, -, rfl, rfl⟩ := registerRoot_eq_ok_iff.mp h
  obtain ⟨x, hx, rfl⟩ := List.mem_map.mp hp
  refine contains_foldl_loadFile _ _ (.inr ?_)
  exact (path_mem_of_mem_loadFile hx).resolve_left (by simp)

end Registry

/-! ## Calls while reports are left over -/

namespace System

variable {e : Engine} {active : List Job}

theorem Invariant.changed (h : Invariant ⟨e, active, .free⟩) : Invariant ⟨e, active, .changed⟩ :=
  h.of_memoizes (.refl _) rfl rfl rfl (fun hne => absurd rfl hne) fun _ hx => absurd hx id

/-- Neither what is on disk nor which project is set matters to what is owed. -/
theorem Invariant.setting (h : Invariant ⟨e, active, .changed⟩) (world : World)
    (project : Project) :
    Invariant ⟨{ e with world := world, project := project }, active, .changed⟩ :=
  h.of_memoizes (.refl _) rfl rfl rfl id fun _ => id

theorem Invariant.adoptChanged (h : Invariant ⟨e, active, .changed⟩) (project : Project) :
    Invariant ⟨e.adopt project, active, .changed⟩ := by
  obtain ⟨hagrees, -⟩ := e.adopt_spec project
  refine h.of_memoizes ?_ hagrees.index hagrees.queue hagrees.inFlight
    (fun hne => absurd rfl hne) fun _ hx => absurd hx id
  rw [hagrees.registry]
  exact .refl _

theorem Invariant.scheduleChanged (h : Invariant ⟨e, active, .changed⟩) (paths : List Path)
    (trigger : Trigger) : Invariant ⟨e.schedule paths trigger, active, .changed⟩ := by
  have hreads := Engine.reads_orderBatch e paths
  have hordered : Invariant ⟨(e.orderBatch paths).1, active, .changed⟩ :=
    h.of_memoizes hreads.registry hreads.index hreads.queue hreads.inFlight
      (fun hne => absurd rfl hne) fun _ hx => absurd hx id
  rw [Engine.schedule_eq]
  exact hordered.enqueueBatch _ _ trigger (fun hne => absurd rfl hne) fun _ hx => absurd hx id

/-- With nothing waiting and no worker busy, a file is reported and not collected, or done with. -/
theorem Invariant.told_or_settled (h : Invariant ⟨e, [], .changed⟩) (hidle : e.isIdle = true)
    {left : List Path} (htold : e.registry.Told left) (p : Path) : p.OneOf left ∨ e.Settled p := by
  obtain ⟨hjobs, hawaits⟩ := h.queue.of_isIdle hidle
  have hnone : e.inFlight.map (·.1) = [] := (List.append_eq_nil_iff.mp hjobs).1
  rcases h.files p with howed | ⟨job, hjob, -⟩ | hsettled
  · rcases howed with ⟨paths, htold', hp⟩ | hp | hp | hp
    · rw [← (collect_of_told htold').1, (collect_of_told htold).1] at hp
      exact .inl hp
    · exact absurd hp id
    · exact absurd hp (hawaits p)
    · simp only [hnone] at hp
      exact absurd hp (Path.not_oneOf_nil p)
  · simp at hjob
  · exact .inr hsettled

end System

/-! ## Files the queue has not heard of -/

namespace Engine

variable {e : Engine} {p : Path}

/-- The file has no phase, and neither the queue nor a worker nor the index has it. -/
structure Quiet (e : Engine) (p : Path) : Prop where
  phase : e.queue.phases.get? p = none
  elsewhere : e.Within fun x => compare p x ≠ .eq

theorem Quiet.file? (h : Quiet e p) (hexact : e.index.Exact) : e.index.file? p = none := by
  rw [Option.eq_none_iff_forall_ne_some]
  intro x hx
  obtain ⟨hmem, hc⟩ := hexact.file?_eq_some_iff.mp hx
  exact h.elsewhere.indexed x hmem hc

theorem not_awaited (h : System.Invariant ⟨e, [], .changed⟩)
    (hwithin : e.Within fun x => compare p x ≠ .eq) :
    ¬ e.queue.Awaits p ∧ ¬ p.OneOf (e.inFlight.map (·.1)) := by
  have hjobs : ¬ p.OneOf (e.inFlight.map (·.1)) := by
    rintro ⟨x, hx, hc⟩
    obtain ⟨job, hjob, rfl⟩ := List.mem_map.mp hx
    exact hwithin.inFlight job hjob hc
  refine ⟨?_, hjobs⟩
  rintro (hqueued | hrerun)
  · obtain ⟨x, hx, hc⟩ := (h.queue.queued_iff p).mp hqueued
    exact hwithin.queue x hx hc
  · have hjob := h.queue.rerun_job p hrerun
    rw [System.jobs, List.map_nil, List.append_nil] at hjob
    exact hjobs hjob

theorem quiet_of_unknown (h : System.Invariant ⟨e, [], .changed⟩) (hexact : e.index.Exact)
    (hphase : e.queue.phases.get? p = none) (hfile : e.index.file? p = none) : Quiet e p where
  phase := hphase
  elsewhere := {
    queue := fun x hx hc => by
      simp [h.queue.stale_of_queued p ⟨x, hx, hc⟩] at hphase
    inFlight := fun job hjob hc => by
      have hin : p.OneOf (System.jobs ⟨e, [], .changed⟩) :=
        (Path.oneOf_append_iff _ _ _).mpr (.inl ⟨job.1, List.mem_map_of_mem hjob, hc⟩)
      simp [(h.queue.analyzing_iff p).mpr hin] at hphase
    indexed := fun x hx hc => by
      simp [hexact.file?_eq_some_iff.mpr ⟨hx, hc⟩] at hfile }

theorem Quiet.of_eq {e' : Engine} (h : Quiet e p) (hqueue : e'.queue = e.queue)
    (hin : e'.inFlight = e.inFlight) (hindex : e'.index = e.index) : Quiet e' p where
  phase := by rw [hqueue, h.phase]
  elsewhere := ⟨hqueue ▸ h.elsewhere.queue, hin ▸ h.elsewhere.inFlight,
    hindex ▸ h.elsewhere.indexed⟩

theorem Quiet.step (h : Quiet e p) (hinvariant : System.Invariant ⟨e, [], .changed⟩)
    (hexact : e.index.Exact) : Quiet e.step p := by
  have hwithin := h.elsewhere.step hexact
  -- the queue gives a phase only to what waits or is handed out afterwards, and to the file analyzed
  obtain ⟨hawaits, hjobs⟩ :=
    not_awaited (hinvariant.run (System.run_step e [] .changed)) hwithin
  refine ⟨?_, hwithin⟩
  cases hin : e.inFlight with
  | nil =>
    rw [step_of_nil hin]
    exact h.phase
  | cons job rest =>
    obtain ⟨path, trigger⟩ := job
    have hjob : (path, trigger) ∈ e.inFlight := by
      rw [hin]
      exact List.mem_cons_self
    have hne := h.elsewhere.inFlight (path, trigger) hjob
    beta_reduce at hne
    obtain ⟨e', a, -, hkeeps, -, hstep⟩ := step_of_cons hin
    have hbefore : e.queue.WellFormed (path :: rest.map (·.1)) := by
      simpa [System.jobs, hin] using hinvariant.queue
    have hwell : (e'.queue.release path).1.WellFormed (path :: rest.map (·.1)) := by
      rw [hkeeps.queue]
      exact hbefore.of_eq rfl rfl rfl rfl rfl
    obtain ⟨-, -, hphase⟩ := Queue.finish_spec hwell e'.workers (e'.verdict path a)
    rw [hstep, queue_conclude] at hawaits ⊢
    rw [hstep, inFlight_conclude, List.map_append, Path.oneOf_append_iff, not_or] at hjobs
    rw [((hphase p).resolve_left hawaits).resolve_left hjobs.2, if_neg hne]
    exact (congrArg (·.phases.get? p) hkeeps.queue).trans h.phase

theorem Quiet.schedule (h : Quiet e p) (hinvariant : System.Invariant ⟨e, [], .changed⟩)
    {paths : List Path} (hpaths : ¬ p.OneOf paths) (trigger : Trigger) :
    Quiet (e.schedule paths trigger) p := by
  have hwithin : (e.schedule paths trigger).Within fun x => compare p x ≠ .eq :=
    h.elsewhere.schedule (fun x hx hc => hpaths ⟨x, SortedSet.mem_of_mem_ofList hx, hc⟩) trigger
  obtain ⟨hawaits, hjobs⟩ := not_awaited (hinvariant.scheduleChanged paths trigger) hwithin
  have hreads := reads_orderBatch e paths
  refine ⟨?_, hwithin⟩
  rw [schedule_eq] at hawaits hjobs ⊢
  have hwell : (e.orderBatch paths).1.queue.WellFormed (System.jobs ⟨e, [], .changed⟩) := by
    rw [hreads.queue]
    exact hinvariant.queue
  obtain ⟨-, hcarries, -⟩ := Queue.schedule_spec hwell (e.orderBatch paths).1.workers
    (e.orderBatch paths).2.1 (e.orderBatch paths).2.2 trigger
  rw [enqueueBatch, List.map_append, Path.oneOf_append_iff, not_or] at hjobs
  refine (((hcarries.phase p).resolve_left hawaits).resolve_left hjobs.2).trans ?_
  rw [hreads.queue]
  exact h.phase

/-! ## The mailbox of the engine -/

theorem mailboxes_of_advances {path : Path} {trigger : Trigger} {s s' : Engine × Stage}
    (h : Relation.ReflTransGen (Advances path trigger) s s') :
    s'.1.registry.mailboxes = s.1.registry.mailboxes := by
  induction h with
  | refl => rfl
  | tail _ hstep ih =>
    obtain ⟨-, rfl⟩ := hstep
    exact (confined_advance _ path trigger _).mailboxes.trans ih

theorem mailboxes_step (e : Engine) : e.step.registry.mailboxes = e.registry.mailboxes := by
  cases hin : e.inFlight with
  | nil => rw [step_of_nil hin]
  | cons job rest =>
    obtain ⟨path, trigger⟩ := job
    obtain ⟨e', a, hanalyze, -, -, hstep⟩ := step_of_cons hin
    have hmailboxes := mailboxes_of_advances (advances_analyzeFile (e.withJobs rest) path trigger)
    rw [hanalyze] at hmailboxes
    rw [hstep, registry_conclude]
    exact hmailboxes

theorem index_drainChanges (e : Engine) : e.drainChanges.1.index = e.index := by
  rw [drainChanges]
  generalize e.registry.collect 0 = collected
  obtain ⟨registry, events⟩ := collected
  simp only
  split
  · rfl
  · exact index_schedule _ _ _

/-! ## Roots that are read before one fails -/

/-- The files that roots change, up to the first that fails. -/
def changedBelow (e : Engine) : List Path → List Path
  | [] => []
  | root :: rest =>
    match e.registry.registerRoot e.world.disk root with
    | (registry, .ok paths) => paths ++ changedBelow { e with registry := registry } rest
    | (_, .error _) => []

/-- However reading the roots ends, the registry has the files that were read, and tells of them. -/
theorem registerRoots_reports (e : Engine) (roots : List Path) :
    ∃ registry, (e.registerRoots roots).1 = { e with registry := registry } ∧
      Registry.Reports e.registry registry (e.changedBelow roots) ∧
      (∀ p, e.registry.contains p = true → registry.contains p = true) ∧
      ∀ p ∈ e.changedBelow roots, registry.contains p = true := by
  induction roots generalizing e with
  | nil => exact ⟨e.registry, rfl, .refl _, fun p hp => hp, by simp [changedBelow]⟩
  | cons root roots ih =>
    rw [registerRoots, changedBelow]
    obtain ⟨next, outcome, hroot⟩ : ∃ next outcome,
      e.registry.registerRoot e.world.disk root = (next, outcome) := ⟨_, _, rfl⟩
    rw [hroot]
    cases outcome with
    | error cause =>
      obtain ⟨rfl, -⟩ := Registry.registerRoot_eq_error_iff.mp hroot
      exact ⟨e.registry, rfl, .refl _, fun p hp => hp, by simp⟩
    | ok paths =>
      obtain ⟨registry, heq, hreports, hkept, hnew⟩ := ih { e with registry := next }
      refine ⟨registry, heq, (Registry.reports_registerRoot hroot).trans hreports,
        fun p hp => hkept p (Registry.contains_registerRoot hroot hp), fun p hp => ?_⟩
      rcases List.mem_append.mp hp with hp | hp
      · exact hkept p (Registry.contains_of_mem_registerRoot hroot hp)
      · exact hnew p hp

/-- The engine as it is when the roots of a project are read. -/
def prepared (e : Engine) (project : Project) : Engine :=
  if (e.adopt project).registry.paths.isEmpty then e.adopt project
  else (e.adopt project).schedule (e.adopt project).registry.paths .dependency

theorem reload_eq_prepared (e : Engine) (project : Project) :
    e.reload project =
      match (e.prepared project).registerRoots project.sourceRoots with
      | (e, some error) => (e, some error)
      | (e, none) => ({ e.drainChanges.1 with project := project }, none) :=
  reload_eq e project

def knows (e : Engine) (p : Path) : Bool :=
  e.registry.contains p || e.queue.phases.contains p || e.index.files.contains p

/-! ## Calls that may fail -/

/-- An engine after calls of which some may have failed, with any number of analyses between them.
`left` are the files whose changes were not handed over, `missed` those of them that the engine had
no trace of when they appeared. -/
inductive Delivery (config : EngineConfig) (world : World) : Engine → List Path → List Path → Prop
  | start : Delivery config world (.ofConfig config world) [] []
  | disk {e : Engine} {left missed : List Path} (h : Delivery config world e left missed)
    (disk : Disk) :
    Delivery config world { e with world := { e.world with disk := disk } } left missed
  | work {e : Engine} {left missed : List Path} (h : Delivery config world e left missed) :
    Delivery config world e.step left missed
  | call {e e' : Engine} {left missed : List Path} (h : Delivery config world e left missed)
    (call : Call) (hcall : call.run e = some e') : Delivery config world e' [] []
  | refused {e e' : Engine} {left missed : List Path} (h : Delivery config world e left missed)
    (call : Call) (err : EngineError) (hcall : call.attempt e = (e', .error err)) :
    Delivery config world e' left missed
  | reload {e e' : Engine} {left missed : List Path} (h : Delivery config world e left missed)
    (project : Project) (hreload : e.reload project = (e', none)) : Delivery config world e' [] []
  | failed {e e' : Engine} {left missed : List Path} (h : Delivery config world e left missed)
    (project : Project) (err : EngineError) (hreload : e.reload project = (e', some err)) :
    Delivery config world e'
      (left ++ (e.prepared project).changedBelow project.sourceRoots)
      (((e.prepared project).changedBelow project.sourceRoots).filter fun p => !e.knows p)

/-- What holds whatever failed. -/
structure Accounted (e : Engine) (left missed : List Path) : Prop where
  invariant : System.Invariant ⟨e, [], .changed⟩
  told : e.registry.Told left
  exact : e.index.Exact
  missed : ∀ p ∈ missed, p ∈ left ∧ e.registry.contains p = true ∧ e.Quiet p

namespace Accounted

variable {left missed : List Path} {project : Project}

theorem prepared (h : e.Accounted left missed) (project : Project) :
    System.Invariant ⟨e.prepared project, [], .changed⟩ ∧
      (e.prepared project).registry.Told left ∧ (e.prepared project).index = e.index := by
  obtain ⟨hagrees, -⟩ := e.adopt_spec project
  have hadopt := h.invariant.adoptChanged project
  have htold : (e.adopt project).registry.Told left := by
    rw [hagrees.registry]
    exact h.told
  rw [Engine.prepared]
  split
  · exact ⟨hadopt, htold, hagrees.index⟩
  · refine ⟨hadopt.scheduleChanged _ _, ?_, (index_schedule _ _ _).trans hagrees.index⟩
    exact htold.of_mailboxes_eq (reads_orderBatch _ _).registry.mailboxes

theorem step (h : e.Accounted left missed) : e.step.Accounted left missed where
  invariant := h.invariant.run (System.run_step e [] .changed)
  told := h.told.of_mailboxes_eq e.mailboxes_step
  exact := exact_step h.exact
  missed p hp := by
    obtain ⟨hleft, hthere, hquiet⟩ := h.missed p hp
    refine ⟨hleft, ?_, hquiet.step h.invariant h.exact⟩
    rw [Registry.contains_eq_isSome_text?, (alike_step e).text,
      ← Registry.contains_eq_isSome_text?]
    exact hthere

theorem of_drained (h : System.Invariant ⟨e, [], .changed⟩) (hexact : e.index.Exact) :
    e.drainChanges.1.Accounted [] [] := by
  have hfree := h.run (System.run_drainChanges e [])
  obtain ⟨paths, htold, hpaths⟩ := hfree.told
  obtain rfl := hpaths (by simp)
  refine ⟨hfree.changed, htold, ?_, by simp⟩
  rw [index_drainChanges]
  exact hexact

theorem call (h : e.Accounted left missed) {e' : Engine} {call : Call}
    (hcall : call.run e = some e') : e'.Accounted [] [] := by
  rw [Call.run_eq] at hcall
  obtain ⟨registry, hchange, rfl⟩ := Option.map_eq_some_iff.mp hcall
  exact of_drained (h.invariant.change (.inr rfl) hchange) h.exact

theorem setting (h : e.Accounted left missed) (world : World) (project : Project) :
    { e with world := world, project := project }.Accounted left missed where
  invariant := h.invariant.setting world project
  told := h.told
  exact := h.exact
  missed p hp := by
    obtain ⟨hleft, hthere, hquiet⟩ := h.missed p hp
    exact ⟨hleft, hthere, hquiet.of_eq rfl rfl rfl⟩

theorem reload (h : e.Accounted left missed) {e' : Engine}
    (hreload : e.reload project = (e', none)) : e'.Accounted [] [] := by
  obtain ⟨hinvariant, -, hindex⟩ := h.prepared project
  rw [reload_eq_prepared] at hreload
  split at hreload
  · simp at hreload
  · rename_i read hroots
    obtain ⟨rfl, -⟩ := Prod.mk.inj hreload
    obtain ⟨registry, heq, hreports, -⟩ :=
      (e.prepared project).registerRoots_reports project.sourceRoots
    rw [hroots] at heq
    obtain rfl : read = { e.prepared project with registry := registry } := heq
    have hexact : (e.prepared project).index.Exact := hindex ▸ h.exact
    exact (of_drained (hinvariant.reports (.inr rfl) hreports) hexact).setting _ project

/-- A file that appears when there is no trace of it is known to the registry alone. -/
theorem quiet_prepared (h : e.Accounted left missed) {p : Path} (hp : e.knows p = false) :
    (e.prepared project).Quiet p := by
  simp only [knows, Bool.or_eq_false_iff] at hp
  obtain ⟨⟨hregistry, hphase⟩, hfile⟩ := hp
  obtain ⟨hagrees, -⟩ := e.adopt_spec project
  have hquiet : (e.adopt project).Quiet p :=
    (quiet_of_unknown h.invariant h.exact (SortedMap.get?_eq_none_iff.mpr hphase)
      (SortedMap.get?_eq_none_iff.mpr hfile)).of_eq hagrees.queue hagrees.inFlight hagrees.index
  rw [Engine.prepared]
  split
  · exact hquiet
  · refine hquiet.schedule (h.invariant.adoptChanged project) ?_ .dependency
    rw [hagrees.registry]
    rintro ⟨x, hx, hc⟩
    obtain ⟨entry, hentry, rfl⟩ := List.mem_map.mp hx
    have hcontains := SortedMap.contains_iff.mpr ⟨entry, hentry, hc⟩
    rw [Registry.contains] at hregistry
    simp [hregistry] at hcontains

theorem failed (h : e.Accounted left missed) {e' : Engine} {err : EngineError}
    (hreload : e.reload project = (e', some err)) :
    e'.Accounted (left ++ (e.prepared project).changedBelow project.sourceRoots)
      (((e.prepared project).changedBelow project.sourceRoots).filter fun p => !e.knows p) := by
  obtain ⟨hinvariant, htold, hindex⟩ := h.prepared project
  obtain ⟨registry, heq, hreports, -, hnew⟩ :=
    (e.prepared project).registerRoots_reports project.sourceRoots
  rw [reload_eq_prepared] at hreload
  split at hreload
  · rename_i read cause hroots
    obtain ⟨rfl, -⟩ := Prod.mk.inj hreload
    rw [hroots] at heq
    obtain rfl : read = { e.prepared project with registry := registry } := heq
    refine ⟨hinvariant.reports (.inr rfl) hreports, hreports.told _ htold, ?_, fun p hp => ?_⟩
    · exact hindex ▸ h.exact
    · obtain ⟨hp, hunknown⟩ := List.mem_filter.mp hp
      rw [Bool.not_eq_true'] at hunknown
      exact ⟨List.mem_append_right _ hp, hnew p hp,
        (h.quiet_prepared hunknown).of_eq rfl rfl rfl⟩
  · simp at hreload

end Accounted

theorem Delivery.accounted {config : EngineConfig} {world : World} {left missed : List Path}
    (h : Delivery config world e left missed) : e.Accounted left missed := by
  induction h with
  | start =>
    refine ⟨(System.invariant_start config world).changed, ⟨[], rfl, rfl⟩, ?_, by simp⟩
    exact Snapshot.exact_of_empty 0
  | disk _ disk ih => exact ih.setting _ _
  | work _ ih => exact ih.step
  | call _ call hcall ih => exact ih.call hcall
  | refused _ call err hcall ih => exact Call.eq_of_attempt_eq_error hcall ▸ ih
  | reload _ project hreload ih => exact ih.reload hreload
  | failed _ project err hreload ih => exact ih.failed hreload

/-- What the engine has not collected is what the loads have left over that failed since a call last
succeeded. At rest every other file of the registry is indexed at its text. A file that appeared in a
load that failed is in the registry, but stays without an analysis. -/
theorem delivered_unless_reload_failed {config : EngineConfig} {world : World}
    {left missed : List Path} (h : Delivery config world e left missed) :
    (e.registry.collect 0).2.map (·.path) = left ∧
    (e.isIdle = true → ∀ p f, e.registry.files.get? p = some f → ¬ p.OneOf left →
      e.index.fingerprint? p = some (.ofText f.text) ∧
        e.queue.phases.get? p = some .fresh) ∧
    ∀ p ∈ missed, p ∈ left ∧ e.registry.contains p = true ∧ e.index.file? p = none ∧
      ∀ q : Path, q.normalize = p → e.phase? q = some .unanalyzed := by
  obtain ⟨hinvariant, htold, hexact, hmissed⟩ := h.accounted
  refine ⟨(System.collect_of_told htold).1, fun hidle p f hf hp => ?_, fun p hp => ?_⟩
  · obtain ⟨removed, hlanded, hphase⟩ :=
      (hinvariant.told_or_settled hidle htold p).resolve_left hp
    obtain ⟨rfl, hprint, -⟩ :=
      (landed_of_known? (Registry.known?_of_some hf) removed).mp hlanded
    exact ⟨hprint, hphase⟩
  · obtain ⟨hleft, hthere, hquiet⟩ := hmissed p hp
    refine ⟨hleft, hthere, hquiet.file? hexact, ?_⟩
    rintro q rfl
    rw [phase?, hquiet.phase, hthere]
    rfl

/-- A project whose second root does not exist. -/
def brokenProject : Project := { sourceRoots := [⟨"/src"⟩, ⟨"/nope"⟩] }

def broken : Engine := (load {} oneFile brokenProject).1

theorem delivered_unless_reload_failed_broken :
    Delivery {} oneFile broken [⟨"/src/A.java"⟩] [⟨"/src/A.java"⟩] ∧ broken.isIdle = true ∧
      broken.phase? ⟨"/src/A.java"⟩ = some .unanalyzed ∧
      broken.index.file? ⟨"/src/A.java"⟩ = none := by
  have hfailed : (load {} oneFile brokenProject).2.isSome = true := by decide +kernel
  obtain ⟨err, herr⟩ := Option.isSome_iff_exists.mp hfailed
  have hreload : (ofConfig {} oneFile).reload brokenProject = (broken, some err) :=
    Prod.ext rfl herr
  have hspelled : (((ofConfig {} oneFile).prepared brokenProject).changedBelow
      brokenProject.sourceRoots).map (·.spelling) = ["/src/A.java"] := by decide +kernel
  obtain ⟨⟨spelling⟩, hbelow, rfl⟩ := List.map_eq_singleton_iff.mp hspelled
  have hnormal : (Path.normalize ⟨"/src/A.java"⟩).spelling = "/src/A.java" := by decide +kernel
  have hdelivery := Delivery.failed .start brokenProject err hreload
  rw [hbelow] at hdelivery
  have hnew : ((ofConfig {} oneFile).knows ⟨"/src/A.java"⟩) = false := by decide +kernel
  simp only [List.nil_append, List.filter_cons, hnew, Bool.not_false, if_true,
    List.filter_nil] at hdelivery
  obtain ⟨-, -, hmissed⟩ := delivered_unless_reload_failed hdelivery
  obtain ⟨-, -, hfile, hphase⟩ := hmissed _ List.mem_cons_self
  exact ⟨hdelivery, by decide +kernel, hphase _ (congrArg Path.mk hnormal), hfile⟩

end Engine

end JavaAtlas
