import JavaAtlas.Proofs.Engine.WarmStart
import JavaAtlas.Proofs.Queue.Workload

/-!
# What every run keeps track of

However the moments of the workers and of the client follow each other, the index is exact, the queue
has a history of requests behind it, and a promise stands only for a file that is on its way.
-/

namespace JavaAtlas

set_option autoImplicit false

open Std (TransCmp OrientedCmp ReflCmp)

namespace System

/-! ## The index and the queue -/

theorem spec_advance (e : Engine) (path : Path) (trigger : Trigger) (stage : Stage) :
    (e.advance path trigger stage).1.config = e.config ∧
      (e.index.Exact → (e.advance path trigger stage).1.index.Exact) ∧
      ((e.advance path trigger stage).1.queue = e.queue ∨
        (e.advance path trigger stage).1.queue = (e.queue.release path).1) ∧
      (e.advance path trigger stage).1.inFlight = e.inFlight := by
  have hsame {e' : Engine} (h : Engine.Agrees e e') : e'.config = e.config ∧
      (e.index.Exact → e'.index.Exact) ∧
        (e'.queue = e.queue ∨ e'.queue = (e.queue.release path).1) ∧ e'.inFlight = e.inFlight :=
    ⟨h.config, fun hindex => h.index ▸ hindex, Or.inl h.queue, h.inFlight⟩
  cases stage with
  | viewed before =>
    rcases hfile : e.registry.file path with ⟨registry, _ | file⟩ <;> rw [Engine.advance, hfile]
    · exact hsame (.refl e)
    · exact ⟨rfl, id, Or.inl rfl, rfl⟩
  | found before file =>
    rw [Engine.advance]
    split
    · exact hsame (.refl e)
    · exact hsame (Engine.agrees_symbolsAgainst e before path trigger file)
  | bound before file symbols fromCache => exact ⟨rfl, fun h => h.upsert _ _ _, Or.inl rfl, rfl⟩
  | missing before => exact ⟨rfl, fun h => h.remove path, Or.inl rfl, rfl⟩
  | dropped before removed =>
    have h := Engine.agrees_removeRecord e path
    exact ⟨h.config, fun hindex => h.index ▸ hindex, Or.inl h.queue, h.inFlight⟩
  | judged a => exact ⟨rfl, id, Or.inr rfl, rfl⟩
  | published before file outcome fromCache => exact ⟨rfl, id, Or.inl rfl, rfl⟩
  | recorded before file outcome fromCache => exact hsame (.refl e)
  | evicted before removed => exact ⟨rfl, id, Or.inl rfl, rfl⟩
  | released a promised => exact hsame (.refl e)
  | done a => exact hsame (.refl e)

structure Traced (s : System) : Prop where
  exact : s.engine.index.Exact
  history : ∃ l, Queue.Reached s.engine.workers s.engine.queue l ∧ l.jobs.Perm s.jobs

theorem Traced.of_eq {s s' : System} (h : s.Traced) (hconfig : s'.engine.config = s.engine.config)
    (hindex : s'.engine.index = s.engine.index) (hqueue : s'.engine.queue = s.engine.queue)
    (hjobs : s.jobs.Perm s'.jobs) : s'.Traced := by
  obtain ⟨l, hreached, hl⟩ := h.history
  have hworkers : s'.engine.workers = s.engine.workers := by
    rw [Engine.workers, hconfig, Engine.workers]
  exact ⟨hindex ▸ h.exact, l, by rw [hworkers, hqueue]; exact hreached, hl.trans hjobs⟩

theorem Traced.step {s s' : System} (h : s.Traced) (hstep : Step s s') : s'.Traced := by
  obtain ⟨l, hreached, hl⟩ := h.history
  cases hstep with
  | disk e active client disk => exact h.of_eq rfl rfl rfl (.refl _)
  | change e active client call registry hclient hcall => exact h.of_eq rfl rfl rfl (.refl _)
  | keep e active project => exact h.of_eq rfl rfl rfl (.refl _)
  | collect e active => exact h.of_eq rfl rfl rfl (.refl _)
  | adopt e active project =>
    obtain ⟨hagrees, -⟩ := e.adopt_spec project
    refine h.of_eq hagrees.config hagrees.index hagrees.queue (.of_eq ?_)
    simp only [jobs, hagrees.inFlight]
  | order e active paths trigger =>
    have hreads := e.reads_orderBatch paths
    refine h.of_eq hreads.config hreads.index hreads.queue (.of_eq ?_)
    simp only [jobs, hreads.inFlight]
  | start e active client left right path trigger hin =>
    refine h.of_eq rfl rfl rfl ?_
    simp only [jobs, hin, List.map_append, List.map_cons, List.append_assoc, List.cons_append]
    exact List.Perm.append_left _ List.perm_middle.symm
  | enqueue e active order promises trigger =>
    refine ⟨h.exact, _, hreached.schedule order promises trigger, ?_⟩
    refine ((l.ask order trigger).jobs_handAll _).trans ((List.Perm.append_left _ hl).trans ?_)
    simp only [jobs, Engine.enqueueBatch, List.map_append, List.append_assoc]
    exact List.perm_append_comm_assoc _ _ _
  | advance e left right client job hstage =>
    obtain ⟨hconfig, hindex, hqueue, hin⟩ := spec_advance e job.path job.trigger job.stage
    have hworkers : (e.advance job.path job.trigger job.stage).1.workers = e.workers := by
      rw [Engine.workers, hconfig, Engine.workers]
    refine ⟨hindex h.exact, l, ?_, ?_⟩
    · simp only [hworkers]
      rcases hqueue with hqueue | hqueue <;> rw [hqueue]
      · exact hreached
      · exact hreached.keep job.path
    · simp only [jobs, hin, List.map_append, List.map_cons] at hl ⊢
      exact hl
  | finish e left right client path trigger a =>
    have hmiddle : l.jobs.Perm
        (path :: (e.inFlight.map (·.1) ++ (left ++ right).map (·.path))) := by
      simp only [jobs, List.map_append, List.map_cons, ← List.append_assoc] at hl ⊢
      exact hl.trans List.perm_middle
    obtain ⟨before, after, hjobs⟩ :=
      List.append_of_mem (hmiddle.mem_iff.mpr List.mem_cons_self)
    refine ⟨h.exact, _, hreached.finish hjobs (some a), ?_⟩
    have hrest : (before ++ after).Perm (e.inFlight.map (·.1) ++ (left ++ right).map (·.path)) := by
      rw [hjobs] at hmiddle
      exact (List.perm_middle.symm.trans hmiddle).cons_inv
    refine (Queue.History.jobs_handAll _ _).trans ((List.Perm.append_left _ hrest).trans ?_)
    simp only [jobs, List.map_append, List.append_assoc]
    exact List.perm_append_comm_assoc _ _ _

/-! ## Promises -/

end System

/-- What was promised for the file has not been taken back yet. -/
def Stage.stands : Stage → Bool
  | .released _ _ => false
  | .done _ => false
  | _ => true

/-- The client has still to promise something for the file. -/
def Client.Pledges (p : Path) : Client → Prop
  | .ordered _ promises _ => p.OneOf (promises.map (·.1))
  | _ => False

namespace System

/-- The file is on its way to the end of an analysis that takes back what was promised for it. -/
def Expects (s : System) (p : Path) : Prop :=
  s.engine.queue.Awaits p ∨ p.OneOf (s.engine.inFlight.map (·.1)) ∨
    ∃ job ∈ s.active, compare p job.path = .eq ∧ job.stage.stands = true

/-- Promises stand only for files on their way, and are made only for files to be queued. -/
structure Backed (s : System) : Prop where
  promised : ∀ p, s.engine.queue.promises.contains p = true → s.Expects p
  client : ∀ p, s.client.Pledges p → s.client.Holds p

theorem promises_advance (e : Engine) (path : Path) (trigger : Trigger) (stage : Stage) :
    ((e.advance path trigger stage).1.queue = e.queue ∧
        (stage.stands = true → (e.advance path trigger stage).2.stands = true)) ∨
      (e.advance path trigger stage).1.queue = (e.queue.release path).1 := by
  cases stage with
  | viewed before =>
    rcases hfile : e.registry.file path with ⟨registry, _ | file⟩ <;> rw [Engine.advance, hfile]
    · exact Or.inl ⟨rfl, fun _ => rfl⟩
    · exact Or.inl ⟨rfl, fun _ => rfl⟩
  | found before file =>
    rw [Engine.advance]
    split
    · exact Or.inl ⟨rfl, fun _ => rfl⟩
    · exact Or.inl ⟨(Engine.agrees_symbolsAgainst e before path trigger file).queue, fun _ => rfl⟩
  | dropped before removed => exact Or.inl ⟨(Engine.agrees_removeRecord e path).queue, fun _ => rfl⟩
  | judged a => exact Or.inr rfl
  | bound before file symbols fromCache => exact Or.inl ⟨rfl, fun _ => rfl⟩
  | missing before => exact Or.inl ⟨rfl, fun _ => rfl⟩
  | published before file outcome fromCache => exact Or.inl ⟨rfl, fun _ => rfl⟩
  | recorded before file outcome fromCache => exact Or.inl ⟨rfl, fun _ => rfl⟩
  | evicted before removed => exact Or.inl ⟨rfl, fun _ => rfl⟩
  | released a promised => exact Or.inl ⟨rfl, id⟩
  | done a => exact Or.inl ⟨rfl, id⟩

theorem Backed.of_eq {s s' : System} (h : s.Backed) (hqueue : s'.engine.queue = s.engine.queue)
    (hexpects : ∀ p, s.Expects p → s'.Expects p)
    (hclient : ∀ p, s'.client.Pledges p → s'.client.Holds p) : s'.Backed :=
  ⟨fun p hp => hexpects p (h.promised p (hqueue ▸ hp)), hclient⟩

theorem Backed.step {s s' : System} (h : s.Backed) (hinvariant : s.Invariant) (hstep : Step s s') :
    s'.Backed := by
  cases hstep with
  | disk e active client disk => exact h.of_eq rfl (fun _ => id) h.client
  | change e active client call registry hclient hcall =>
    exact h.of_eq rfl (fun _ => id) fun p hp => absurd hp id
  | keep e active project => exact h.of_eq rfl (fun _ => id) h.client
  | collect e active =>
    refine h.of_eq rfl (fun _ => id) fun p hp => ?_
    split at hp <;> exact absurd hp id
  | adopt e active project =>
    obtain ⟨hagrees, -⟩ := e.adopt_spec project
    refine h.of_eq hagrees.queue (fun p hp => ?_) fun p hp => ?_
    · simp only [Expects, hagrees.queue, hagrees.inFlight]
      exact hp
    · split at hp <;> exact absurd hp id
  | order e active paths trigger =>
    have hreads := e.reads_orderBatch paths
    refine h.of_eq hreads.queue (fun p hp => ?_) fun p hp => e.oneOf_order_of_promised hp
    simp only [Expects, hreads.queue, hreads.inFlight]
    exact hp
  | start e active client left right path trigger hin =>
    refine h.of_eq rfl (fun p hp => ?_) h.client
    rcases hp with hp | hp | ⟨job, hjob, hp⟩
    · exact Or.inl hp
    · simp only [hin, List.map_append, List.map_cons] at hp
      rw [Path.oneOf_append_iff, Path.oneOf_cons_iff] at hp
      simp only [Expects, List.map_append, Path.oneOf_append_iff]
      rcases hp with hp | hp | hp
      · exact Or.inr (Or.inl (Or.inl hp))
      · exact Or.inr (Or.inr ⟨_, List.mem_cons_self, hp, rfl⟩)
      · exact Or.inr (Or.inl (Or.inr hp))
    · exact Or.inr (Or.inr ⟨job, List.mem_cons_of_mem _ hjob, hp⟩)
  | enqueue e active order promises trigger =>
    obtain ⟨-, hcarries, hall⟩ := Queue.schedule_spec hinvariant.queue e.workers order promises trigger
    refine ⟨fun p hp => ?_, fun p hp => ?_⟩
    · have hpending : (e.queue.schedule e.workers order promises trigger).1.Awaits p ∨
          p.OneOf ((e.queue.schedule e.workers order promises trigger).2.map (·.1)) ∨
          Expects ⟨e, active, .ordered order promises trigger⟩ p := by
        rcases Queue.contains_promises_schedule hp with hold | hnew
        · exact Or.inr (Or.inr (h.promised p hold))
        · exact (hall p (h.client p hnew)).imp_right Or.inl
      simp only [Expects, Engine.enqueueBatch, List.map_append, Path.oneOf_append_iff]
      rcases hpending with hp | hp | hp | hp | hp
      · exact Or.inl hp
      · exact Or.inr (Or.inl (Or.inr hp))
      · exact (hcarries.awaits p hp).imp_right fun hp => Or.inl (Or.inr hp)
      · exact Or.inr (Or.inl (Or.inl hp))
      · exact Or.inr (Or.inr hp)
    · cases trigger <;> exact absurd hp id
  | advance e left right client job hstage =>
    have hin := (spec_advance e job.path job.trigger job.stage).2.2.2
    have hplaces := Engine.confined_advance e job.path job.trigger job.stage
    refine ⟨fun p hp => ?_, h.client⟩
    have hother : Expects ⟨e, left ++ job :: right, client⟩ p → (compare p job.path = .eq →
        job.stage.stands = true → (e.advance job.path job.trigger job.stage).2.stands = true) →
        Expects ⟨(e.advance job.path job.trigger job.stage).1, left ++
          { job with stage := (e.advance job.path job.trigger job.stage).2 } :: right, client⟩ p := by
      intro hexpects hself
      simp only [Expects, Queue.Awaits, hplaces.queued, hplaces.rerun, hin] at hexpects ⊢
      refine hexpects.imp_right fun hp => hp.imp_right ?_
      rintro ⟨x, hx, hc, hstands⟩
      rcases mem_middle_iff.mp hx with rfl | hx
      · exact ⟨_, mem_middle_iff.mpr (Or.inl rfl), hc, hself hc hstands⟩
      · exact ⟨x, mem_middle_iff.mpr (Or.inr hx), hc, hstands⟩
    rcases promises_advance e job.path job.trigger job.stage with ⟨hqueue, hstands⟩ | hqueue
    · exact hother (h.promised p (hqueue ▸ hp)) fun _ => hstands
    · simp only [hqueue, Queue.release, SortedMap.contains_erase, Bool.and_eq_true, bne_iff_ne] at hp
      exact hother (h.promised p hp.2) fun hc => absurd hc hp.1
  | finish e left right client path trigger a =>
    have hmiddle : (jobs ⟨e, left ++ ⟨path, trigger, .done a⟩ :: right, client⟩).Perm
        (path :: (e.inFlight.map (·.1) ++ (left ++ right).map (·.path))) := by
      simp only [jobs, List.map_append, List.map_cons, ← List.append_assoc]
      exact List.perm_middle
    obtain ⟨-, hawaits, -⟩ := Queue.finish_spec (hinvariant.queue.perm hmiddle) e.workers a
    refine ⟨fun p hp => ?_, h.client⟩
    simp only [(Queue.samePromises_finish e.queue e.workers path a).promises] at hp
    simp only [Expects, List.map_append, Path.oneOf_append_iff]
    rcases h.promised p hp with hp | hp | ⟨job, hjob, hc, hstands⟩
    · exact (hawaits p (Or.inl hp)).imp_right fun hp => Or.inl (Or.inr hp)
    · exact Or.inr (Or.inl (Or.inl hp))
    · rcases mem_middle_iff.mp hjob with rfl | hjob
      · simp [Stage.stands] at hstands
      · exact Or.inr (Or.inr ⟨job, hjob, hc, hstands⟩)

/-! ## Every run -/

structure Sane (s : System) : Prop where
  invariant : s.Invariant
  traced : s.Traced
  backed : s.Backed

theorem sane_start (config : EngineConfig) (world : World) : (start config world).Sane where
  invariant := invariant_start config world
  traced := ⟨Snapshot.exact_of_empty 0, {}, .start, .refl _⟩
  backed := ⟨fun p hp => by simp [start, Engine.ofConfig, SortedMap.contains, SortedMap.find?,
    EmptyCollection.emptyCollection] at hp, fun p hp => absurd hp id⟩

theorem Sane.run {s s' : System} (h : s.Sane) (hrun : Run s s') : s'.Sane := by
  induction hrun with
  | refl => exact h
  | tail _ hstep ih =>
    exact ⟨ih.invariant.step hstep, ih.traced.step hstep, ih.backed.step ih.invariant hstep⟩

theorem sane_of_run {config : EngineConfig} {world : World} {s : System}
    (hrun : Run (start config world) s) : s.Sane := (sane_start config world).run hrun

/-- With nothing to be collected, a client that is about to collect may as well be done. -/
theorem Sane.wellFormed {e : Engine} {client : Client} (h : Sane ⟨e, [], client⟩) :
    e.queue.WellFormed (e.inFlight.map (·.1)) := by
  have hwell := h.invariant.queue
  simpa only [jobs, List.map_nil, List.append_nil] using hwell

theorem Sane.freed {e : Engine} {active : List Job} (h : Sane ⟨e, active, .changed⟩)
    (htold : e.registry.Told []) : Sane ⟨e, active, .free⟩ where
  invariant := ⟨⟨[], htold, fun _ => rfl⟩, h.invariant.sound, h.invariant.queue, h.invariant.stages,
    h.invariant.files⟩
  traced := ⟨h.traced.exact, h.traced.history⟩
  backed := ⟨h.backed.promised, fun _ hp => absurd hp id⟩

theorem Sane.schedule {e : Engine} {active : List Job} (h : Sane ⟨e, active, .free⟩)
    (paths : List Path) (t : Trigger) : Sane ⟨e.schedule paths t, active, .free⟩ := by
  have hheld : Sane ⟨e, active, .holding paths t⟩ := by
    refine ⟨?_, ⟨h.traced.exact, h.traced.history⟩, h.backed.promised, fun p hp => absurd hp id⟩
    exact h.invariant.of_memoizes (.refl _) rfl rfl rfl (fun _ => by simp) fun p hp => absurd hp id
  have hqueued := hheld.run (run_schedule e active paths t)
  cases t with
  | content => exact hqueued
  | dependency =>
    refine hqueued.freed ?_
    obtain ⟨paths', htold, hnone⟩ := h.invariant.told
    rw [hnone (by simp)] at htold
    have hreads := e.reads_orderBatch paths
    rw [Engine.schedule_eq]
    exact htold.of_mailboxes_eq hreads.registry.mailboxes

theorem run_analyses (e : Engine) (active : List Job) (client : Client) (n : Nat) :
    Run ⟨e, active, client⟩ ⟨e.run n, active, client⟩ := by
  refine Engine.run_of_step (P := fun after => Run ⟨e, active, client⟩ ⟨after, active, client⟩) ?_ n
    .refl
  intro after hrun
  exact hrun.trans (run_step after active client)

end System

end JavaAtlas
