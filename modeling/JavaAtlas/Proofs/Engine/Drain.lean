import JavaAtlas.Proofs.Engine.Termination

/-!
# Working off requests to bind anew

While only requests to bind anew are open, every analysis anchors its file, and no file loses its
anchor. Once all files are anchored, names keep their meaning, so every file that is bound anew is
steady from then on. At rest nothing is left to do, and a batch of files to be bound anew is worked
off in this way.
-/

namespace JavaAtlas

set_option autoImplicit false

open Std (TransCmp OrientedCmp ReflCmp)

namespace Engine

/-- The file waits, is flagged or is with a worker. -/
def Pends (e : Engine) (p : Path) : Prop := e.queue.Awaits p ∨ p.OneOf (e.inFlight.map (·.1))

/-- Between two analyses of some run, with nothing but requests to bind anew left. -/
structure Rebinding (e : Engine) : Prop where
  sane : ∃ client, System.Sane ⟨e, [], client⟩
  content : e.contentWork = 0

theorem pends_conclude {e : Engine} {p q : Path} (hwell : e.queue.WellFormed (p :: e.inFlight.map (·.1)))
    (a : Analysis) (hq : e.Pends q ∨ q.OneOf (Queue.asked p (e.verdict p a))) :
    (e.conclude p a).Pends q := by
  have hreleased : (e.queue.release p).1.WellFormed (p :: e.inFlight.map (·.1)) :=
    hwell.of_eq rfl rfl rfl rfl rfl
  obtain ⟨-, hawaits, -⟩ := Queue.finish_spec hreleased e.workers (e.verdict p a)
  rw [Pends, queue_conclude, inFlight_conclude, List.map_append, Path.oneOf_append_iff]
  rcases hq with (hq | hq) | hq
  · exact (hawaits q (Or.inl hq)).imp_right Or.inr
  · exact Or.inr (Or.inl hq)
  · exact (hawaits q (Or.inr hq)).imp_right Or.inr

namespace Rebinding

variable {e : Engine} {p q : Path} {t : Trigger} {rest : List (Path × Trigger)}

theorem exact (h : e.Rebinding) : e.index.Exact := by
  obtain ⟨client, hsane⟩ := h.sane
  exact hsane.traced.exact

theorem wellFormed (h : e.Rebinding) : e.queue.WellFormed (e.inFlight.map (·.1)) := by
  obtain ⟨client, hsane⟩ := h.sane
  exact hsane.wellFormed

theorem not_pends (h : e.Rebinding) (hidle : e.isIdle = true) (p : Path) : ¬ e.Pends p := by
  obtain ⟨hjobs, hawaits⟩ := h.wellFormed.of_isIdle hidle
  rintro (hp | hp)
  · exact hawaits p hp
  · rw [hjobs] at hp
    exact Path.not_oneOf_nil p hp

theorem next (h : e.Rebinding) (hin : e.inFlight = (p, t) :: rest) :
    t = .dependency ∧ ∃ e' a, Rebinds (e.withJobs rest) p e' a ∧ e.step = e'.conclude p a := by
  have htrigger : t = .dependency := by
    cases t with
    | dependency => rfl
    | content =>
      have hcontent := h.content
      rw [contentWork, hin, Queue.contentJobs, List.countP_cons_of_pos (by simp)] at hcontent
      omega
  subst htrigger
  obtain ⟨e', a, hanalyze, -, -, hstep⟩ := step_of_cons hin
  have hrebinds := rebinds_analyzeFile (e.withJobs rest) p
  rw [hanalyze] at hrebinds
  exact ⟨rfl, e', a, hrebinds, hstep⟩

theorem step (h : e.Rebinding) : e.step.Rebinding := by
  obtain ⟨client, hsane⟩ := h.sane
  refine ⟨⟨client, hsane.run (System.run_step e [] client)⟩, ?_⟩
  cases hin : e.inFlight with
  | nil => rw [step_of_nil hin, h.content]
  | cons job rest =>
    obtain ⟨l, hreached, hl⟩ := hsane.traced.history
    have hjob : job.1 ∈ l.jobs := by
      rw [hl.mem_iff]
      simp only [System.jobs, hin, List.map_cons, List.cons_append]
      exact List.mem_cons_self
    have hle := contentWork_step hin (Queue.runs_of_reached hreached).kept hjob
    rw [h.content] at hle
    exact Nat.eq_zero_of_add_eq_zero_right (Nat.le_zero.mp hle)

theorem wellFormed_next {e' : Engine} (h : e.Rebinding) (hin : e.inFlight = (p, t) :: rest)
    (hkeeps : Keeps (e.withJobs rest) e') : e'.queue.WellFormed (p :: e'.inFlight.map (·.1)) := by
  have hwell := h.wellFormed
  rw [hin] at hwell
  rw [hkeeps.queue, hkeeps.inFlight]
  exact hwell

/-- A file that pends is the next to be analyzed or pends on. -/
theorem pends_step (h : e.Rebinding) (hin : e.inFlight = (p, t) :: rest) (hq : e.Pends q) :
    compare q p = .eq ∨ e.step.Pends q := by
  obtain ⟨-, e', a, hrebinds, hstep⟩ := h.next hin
  have hqueue : e'.queue = e.queue := hrebinds.keeps.queue
  have hrest : e'.inFlight = rest := hrebinds.keeps.inFlight
  have hwell := h.wellFormed_next hin hrebinds.keeps
  rw [hstep]
  by_cases hc : compare q p = .eq
  · exact Or.inl hc
  · refine Or.inr (pends_conclude hwell a (Or.inl ?_))
    rw [Pends, hqueue, hrest]
    refine hq.imp_right fun hq => ?_
    rw [hin, List.map_cons, Path.oneOf_cons_iff] at hq
    exact hq.resolve_left hc

/-- What an analysis achieves for its file, and none undoes, holds of every file that pended once
the engine is at rest. -/
theorem achieved (kind : Engine → Prop) (P : Engine → Path → Prop)
    (hkind : ∀ e, kind e → e.Rebinding) (hstep : ∀ e, kind e → kind e.step)
    (hkeep : ∀ e q, kind e → P e q → P e.step q)
    (hfirst : ∀ e p t rest q, kind e → e.inFlight = (p, t) :: rest → compare q p = .eq → P e.step q)
    (n : Nat) {e : Engine} (h : kind e) (hidle : (e.run n).isIdle = true) (q : Path)
    (hq : P e q ∨ e.Pends q) : kind (e.run n) ∧ P (e.run n) q := by
  have hrun : kind (e.run n) ∧ (P (e.run n) q ∨ (e.run n).Pends q) := by
    refine run_of_step (P := fun after => kind after ∧ (P after q ∨ after.Pends q)) ?_ n ⟨h, hq⟩
    rintro after ⟨h, hq⟩
    refine ⟨hstep after h, ?_⟩
    cases hin : after.inFlight with
    | nil => rwa [step_of_nil hin]
    | cons job rest =>
      rcases hq with hq | hq
      · exact Or.inl (hkeep after q h hq)
      · apply ((hkind after h).pends_step hin hq).imp_left
        intro hc
        exact hfirst after job.1 job.2 rest q h hin hc
  exact ⟨hrun.1, hrun.2.resolve_right ((hkind _ hrun.1).not_pends hidle q)⟩

/-! ## Anchors -/

theorem anchored_step (h : e.Rebinding) (hq : e.anchored q = true) : e.step.anchored q = true := by
  cases hin : e.inFlight with
  | nil => rwa [step_of_nil hin]
  | cons job rest =>
    obtain ⟨-, e', a, hrebinds, hstep⟩ := h.next hin
    rw [hstep, anchored_conclude]
    exact hrebinds.anchored_of hq

theorem anchored_first (h : e.Rebinding) (hin : e.inFlight = (p, t) :: rest)
    (hc : compare q p = .eq) : e.step.anchored q = true := by
  obtain ⟨-, e', a, hrebinds, hstep⟩ := h.next hin
  rw [hstep, anchored_conclude, anchored_congr e' hc]
  exact hrebinds.anchored_self

theorem anchored_run (h : e.Rebinding) {n : Nat} (hidle : (e.run n).isIdle = true)
    (hq : e.anchored q = true ∨ e.Pends q) : (e.run n).Rebinding ∧ (e.run n).anchored q = true :=
  achieved Rebinding (fun e q => e.anchored q = true) (fun _ h => h) (fun _ h => h.step)
    (fun _ _ h hq => h.anchored_step hq) (fun _ _ _ _ _ h hin hc => h.anchored_first hin hc) n h
    hidle q hq

end Rebinding

/-- Only requests to bind anew are left, and every file is anchored. -/
structure Firm (e : Engine) : Prop extends Rebinding e where
  anchored : ∀ q, e.anchored q = true

namespace Firm

variable {e : Engine} {p q : Path} {t : Trigger} {rest : List (Path × Trigger)}

theorem step (h : e.Firm) : e.step.Firm :=
  ⟨h.toRebinding.step, fun q => h.toRebinding.anchored_step (h.anchored q)⟩

theorem lookup_rebinds {e' : Engine} {a : Analysis} (h : e.Firm)
    (hrebinds : Rebinds (e.withJobs rest) p e' a) : e'.index.lookup = e.index.lookup :=
  hrebinds.lookup_eq h.exact (h.anchored p)

theorem steady_step (h : e.Firm) (hq : e.steady q = true) : e.step.steady q = true := by
  cases hin : e.inFlight with
  | nil => rwa [step_of_nil hin]
  | cons job rest =>
    obtain ⟨-, e', a, hrebinds, hstep⟩ := h.next hin
    rw [hstep, steady_conclude]
    exact hrebinds.steady_of (h.lookup_rebinds hrebinds) hq

theorem steady_first (h : e.Firm) (hin : e.inFlight = (p, t) :: rest) (hc : compare q p = .eq) :
    e.step.steady q = true := by
  obtain ⟨-, e', a, hrebinds, hstep⟩ := h.next hin
  rw [hstep, steady_conclude]
  exact hrebinds.steady_of_eq (h.lookup_rebinds hrebinds) hc

theorem steady_run (h : e.Firm) {n : Nat} (hidle : (e.run n).isIdle = true)
    (hq : e.steady q = true ∨ e.Pends q) : (e.run n).Firm ∧ (e.run n).steady q = true :=
  Rebinding.achieved Firm (fun e q => e.steady q = true) (fun _ h => h.toRebinding)
    (fun _ h => h.step) (fun _ _ h hq => h.steady_step hq)
    (fun _ _ _ _ _ h hin hc => h.steady_first hin hc) n h hidle q hq

end Firm

/-! ## Asking for files at rest -/

theorem bound_schedule {e : Engine} (hsound : e.registry.Sound) (paths : List Path) (t : Trigger)
    (q : Path) : (e.schedule paths t).anchored q = e.anchored q ∧
      (e.schedule paths t).steady q = e.steady q := by
  have hreads := reads_orderBatch e paths
  have hparses := parses_orderBatch e paths
  rw [schedule_eq]
  simp only [enqueueBatch, anchored, steady, symbolsFor, contextOf, hreads.registry.content? hsound,
    hparses, hreads.index, hreads.config, hreads.classpath, and_self]

theorem contentWork_schedule {e : Engine} {l : Queue.History} (hkept : e.queue.Kept l)
    (paths : List Path) : (e.schedule paths .dependency).contentWork ≤ e.contentWork := by
  have hreads := reads_orderBatch e paths
  rw [schedule_eq]
  generalize e.orderBatch paths = batch at *
  obtain ⟨e', order, promises⟩ := batch
  have hqueue : e'.queue = e.queue := hreads.queue
  have hin : e'.inFlight = e.inFlight := hreads.inFlight
  have hle := Queue.Kept.contentWork_schedule hkept e'.workers order promises
  simp only [contentWork, enqueueBatch, Queue.contentJobs_append, hqueue, hin]
  omega

theorem pends_schedule {e : Engine} (hwell : e.queue.WellFormed (e.inFlight.map (·.1)))
    {paths : List Path} (t : Trigger) {q : Path} (hq : e.Pends q ∨ q.OneOf paths) :
    (e.schedule paths t).Pends q := by
  have hreads := reads_orderBatch e paths
  have hordered (hq : q.OneOf paths) : q.OneOf (e.orderBatch paths).2.1 := oneOf_orderBatch e hq
  rw [schedule_eq]
  generalize e.orderBatch paths = batch at *
  obtain ⟨e', order, promises⟩ := batch
  have hqueue : e'.queue = e.queue := hreads.queue
  have hin : e'.inFlight = e.inFlight := hreads.inFlight
  obtain ⟨-, hcarries, hall⟩ := Queue.schedule_spec hwell e'.workers order promises t
  simp only [Pends, enqueueBatch, List.map_append, Path.oneOf_append_iff, hqueue, hin]
  rcases hq with (hq | hq) | hq
  · exact (hcarries.awaits q hq).imp_right Or.inr
  · exact Or.inr (Or.inl hq)
  · exact (hall q (hordered hq)).imp_right Or.inr

/-- Nothing is left to do, and the client is between calls. -/
structure AtRest (e : Engine) : Prop where
  sane : System.Sane ⟨e, [], .free⟩
  idle : e.isIdle = true

namespace AtRest

variable {e : Engine} (h : e.AtRest)

include h

theorem empty : e.queue.queue = [] ∧ e.inFlight = [] := by
  have hidle := h.idle
  rw [isIdle, Queue.isIdle, Bool.and_eq_true, List.isEmpty_iff] at hidle
  have hjobs := (h.sane.invariant.queue.of_isIdle h.idle).1
  simp only [System.jobs, List.map_nil, List.append_nil, List.map_eq_nil_iff] at hjobs
  exact ⟨hidle.1, hjobs⟩

theorem rebinding : e.Rebinding := by
  obtain ⟨l, hreached, -⟩ := h.sane.traced.history
  refine ⟨⟨_, h.sane⟩, ?_⟩
  rw [contentWork, h.empty.2, (Queue.runs_of_reached hreached).kept.contentWork_of_isIdle h.idle]
  rfl

theorem schedule (paths : List Path) : (e.schedule paths .dependency).Rebinding := by
  obtain ⟨l, hreached, -⟩ := h.sane.traced.history
  have hle := contentWork_schedule (Queue.runs_of_reached hreached).kept paths
  rw [h.rebinding.content] at hle
  exact ⟨⟨_, h.sane.schedule paths .dependency⟩, Nat.le_zero.mp hle⟩

/-- Only the file asked for is handed out or waits. -/
theorem within_schedule (p : Path) (t : Trigger) :
    (e.schedule [p] t).queue.Within (· = p) ∧
      ∀ job ∈ (e.schedule [p] t).inFlight, job.1 = p := by
  obtain ⟨hqueue, hin⟩ := h.empty
  have hreads := reads_orderBatch e [p]
  have horder : ∀ x ∈ (e.orderBatch [p]).2.1, x = p := fun x hx =>
    List.mem_singleton.mp (BatchOrder.mem_of_mem_ordered hx)
  have hbefore : (e.orderBatch [p]).1.queue.Within (· = p) := by
    rw [hreads.queue, Queue.Within, hqueue]
    simp
  obtain ⟨hleft, hready⟩ := hbefore.schedule horder (e.orderBatch [p]).1.workers
    (e.orderBatch [p]).2.2 t
  rw [schedule_eq]
  refine ⟨hleft, fun job hjob => hready job ?_⟩
  rw [enqueueBatch, hreads.inFlight, hin, List.nil_append] at hjob
  exact hjob

theorem known_or_absent (q : Path) :
    q.OneOf e.registry.paths ∨ (e.registry.content? q = none ∧ e.index.file? q = none) := by
  obtain ⟨removed, hlanded, -⟩ := h.sane.invariant.settled h.idle q
  cases hknown : e.registry.known? q with
  | none =>
    have hcontent : e.registry.content? q = none := by
      rw [h.sane.invariant.sound.content?_eq, Registry.text?_eq_known?, hknown]
      rfl
    exact Or.inr ⟨hcontent, ((landed_of_unknown hknown removed).mp hlanded).2⟩
  | some f => exact Or.inl (Registry.oneOf_paths_of_known? hknown)

end AtRest

end Engine

end JavaAtlas
