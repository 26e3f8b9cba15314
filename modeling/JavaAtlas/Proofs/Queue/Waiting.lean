import JavaAtlas.Engine.Queue
import JavaAtlas.Proofs.Data.MultiMap

/-!
# Files that wait

A file is in one place at a time: it waits in the queue and is stale, or it is being analyzed, or it
is neither. A file asked for while it is being analyzed is flagged, and the flag makes it wait when
the analysis ends. So no request is dropped: a file that was asked for waits, is flagged, or has
been handed to a worker.
-/

namespace JavaAtlas

set_option autoImplicit false

open Std (TransCmp OrientedCmp ReflCmp)

namespace Path

def OneOf (p : Path) (l : List Path) : Prop := ∃ x ∈ l, compare p x = .eq

theorem not_oneOf_nil (p : Path) : ¬ p.OneOf [] := by simp [OneOf]

theorem oneOf_cons_iff (p x : Path) (l : List Path) :
    p.OneOf (x :: l) ↔ compare p x = .eq ∨ p.OneOf l := by
  simp [OneOf]

theorem oneOf_append_iff (p : Path) (l l' : List Path) :
    p.OneOf (l ++ l') ↔ p.OneOf l ∨ p.OneOf l' := by
  simp only [OneOf, List.mem_append]
  grind

theorem oneOf_of_mem {p : Path} {l : List Path} (h : p ∈ l) : p.OneOf l :=
  ⟨p, h, ReflCmp.compare_self⟩

theorem oneOf_congr {p p' : Path} (h : compare p p' = .eq) (l : List Path) :
    p.OneOf l ↔ p'.OneOf l := by
  simp only [OneOf, TransCmp.congr_left h]

theorem oneOf_perm {l l' : List Path} (h : l.Perm l') (p : Path) : p.OneOf l ↔ p.OneOf l' := by
  simp only [OneOf, h.mem_iff]

theorem not_oneOf_of_pairwise {p : Path} {l : List Path}
    (h : (p :: l).Pairwise fun a b => compare a b ≠ .eq) : ¬ p.OneOf l := by
  rintro ⟨x, hx, hc⟩
  exact (List.pairwise_cons.mp h).1 x hx hc

end Path

namespace Queue

def Awaits (q : Queue) (p : Path) : Prop := q.queued.contains p = true ∨ q.rerun.contains p = true

/-- Each file is in one place; `jobs` are the files handed to workers. -/
structure Placed (q : Queue) (jobs : List Path) : Prop where
  queued_iff : ∀ p, q.queued.contains p = true ↔ p.OneOf q.queue
  queue_distinct : q.queue.Pairwise fun a b => compare a b ≠ .eq
  stale_of_queued : ∀ p, p.OneOf q.queue → q.phases.get? p = some .stale
  running_eq : q.running = jobs.length
  jobs_distinct : jobs.Pairwise fun a b => compare a b ≠ .eq
  analyzing_iff : ∀ p, q.phases.get? p = some .analyzing ↔ p.OneOf jobs
  rerun_job : ∀ p, q.rerun.contains p = true → p.OneOf jobs

/-- Each file is in one place, and no stale file is passed over. -/
structure WellFormed (q : Queue) (jobs : List Path) : Prop extends Placed q jobs where
  queued_of_stale : ∀ p, q.phases.get? p = some .stale → p.OneOf q.queue

namespace Placed

variable {q q' : Queue} {jobs jobs' : List Path}

theorem perm (h : q.Placed jobs) (hp : jobs.Perm jobs') : q.Placed jobs' where
  queued_iff := h.queued_iff
  queue_distinct := h.queue_distinct
  stale_of_queued := h.stale_of_queued
  running_eq := h.running_eq.trans hp.length_eq
  jobs_distinct := (hp.pairwise_iff fun hne hc => hne (OrientedCmp.eq_symm hc)).mp h.jobs_distinct
  analyzing_iff p := (h.analyzing_iff p).trans (Path.oneOf_perm hp p)
  rerun_job p hr := (Path.oneOf_perm hp p).mp (h.rerun_job p hr)

/-- Only the fields that place files matter. -/
theorem of_eq (h : q.Placed jobs) (hphases : q'.phases = q.phases) (hqueue : q'.queue = q.queue)
    (hqueued : q'.queued = q.queued) (hrerun : q'.rerun = q.rerun) (hrunning : q'.running = q.running) :
    q'.Placed jobs where
  queued_iff := by rw [hqueued, hqueue]; exact h.queued_iff
  queue_distinct := by rw [hqueue]; exact h.queue_distinct
  stale_of_queued := by rw [hphases, hqueue]; exact h.stale_of_queued
  running_eq := by rw [hrunning]; exact h.running_eq
  jobs_distinct := h.jobs_distinct
  analyzing_iff := by rw [hphases]; exact h.analyzing_iff
  rerun_job := by rw [hrerun]; exact h.rerun_job

theorem not_queued_of_job (h : q.Placed jobs) {p : Path} (hp : p.OneOf jobs) :
    ¬ p.OneOf q.queue := by
  intro hq
  have ha := (h.analyzing_iff p).mpr hp
  rw [h.stale_of_queued p hq] at ha
  simp at ha

theorem of_isIdle (h : q.Placed jobs) (hidle : q.isIdle = true) : jobs = [] ∧ ∀ p, ¬ q.Awaits p := by
  rw [isIdle, Bool.and_eq_true, List.isEmpty_iff, beq_iff_eq] at hidle
  have hjobs : jobs = [] := by
    rw [← List.length_eq_zero_iff, ← h.running_eq]
    exact hidle.2
  refine ⟨hjobs, fun p hp => ?_⟩
  rcases hp with hp | hp
  · have hwaits := (h.queued_iff p).mp hp
    rw [hidle.1] at hwaits
    exact Path.not_oneOf_nil p hwaits
  · have hjob := h.rerun_job p hp
    rw [hjobs] at hjob
    exact Path.not_oneOf_nil p hjob

end Placed

namespace WellFormed

variable {q q' : Queue} {jobs jobs' : List Path}

theorem perm (h : q.WellFormed jobs) (hp : jobs.Perm jobs') : q.WellFormed jobs' :=
  ⟨h.toPlaced.perm hp, h.queued_of_stale⟩

theorem of_eq (h : q.WellFormed jobs) (hphases : q'.phases = q.phases) (hqueue : q'.queue = q.queue)
    (hqueued : q'.queued = q.queued) (hrerun : q'.rerun = q.rerun) (hrunning : q'.running = q.running) :
    q'.WellFormed jobs where
  toPlaced := h.toPlaced.of_eq hphases hqueue hqueued hrerun hrunning
  queued_of_stale := by rw [hphases, hqueue]; exact h.queued_of_stale

end WellFormed

/-! ## Asking for a file -/

theorem setPhase_setPhase (q : Queue) (p : Path) (a b : FilePhase) :
    (q.setPhase p a).setPhase p b = q.setPhase p b := by
  have hphases : (q.phases.insert p a).insert p b = q.phases.insert p b := by
    apply SortedMap.eq_of_mem_iff
    intro x
    simp only [SortedMap.mem_insert_iff]
    grind
  simp only [setPhase, hphases]

theorem enqueue_of_queued {q : Queue} {p : Path} (h : q.queued.contains p = true) :
    q.enqueue p = q := by
  simp [enqueue, h]

theorem enqueue_of_not_queued {q : Queue} {p : Path} (h : q.queued.contains p = false) :
    q.enqueue p = { q with queue := q.queue ++ [p], queued := q.queued.insert p () } := by
  simp [enqueue, h]

theorem contains_queued_enqueue (q : Queue) (p x : Path) :
    (q.enqueue p).queued.contains x = (compare x p == .eq || q.queued.contains x) := by
  by_cases h : q.queued.contains p = true
  · rw [enqueue_of_queued h]
    by_cases hx : compare x p = .eq
    · simp [hx, SortedMap.contains_congr _ hx, h]
    · simp [hx]
  · rw [enqueue_of_not_queued (by simpa using h)]
    exact SortedMap.contains_insert _ _ _ _

theorem oneOf_queue_enqueue (q : Queue) (p x : Path)
    (h : q.queued.contains p = true ↔ p.OneOf q.queue) :
    x.OneOf (q.enqueue p).queue ↔ compare x p = .eq ∨ x.OneOf q.queue := by
  by_cases hq : q.queued.contains p = true
  · rw [enqueue_of_queued hq]
    refine ⟨Or.inr, ?_⟩
    rintro (hx | hx)
    · exact (Path.oneOf_congr hx q.queue).mpr (h.mp hq)
    · exact hx
  · rw [enqueue_of_not_queued (by simpa using hq)]
    rw [Path.oneOf_append_iff, Path.oneOf_cons_iff, or_comm]
    simp [Path.not_oneOf_nil]

@[simp] theorem phases_enqueue (q : Queue) (p : Path) : (q.enqueue p).phases = q.phases := by
  rw [enqueue]
  split <;> rfl

@[simp] theorem rerun_enqueue (q : Queue) (p : Path) : (q.enqueue p).rerun = q.rerun := by
  rw [enqueue]
  split <;> rfl

@[simp] theorem running_enqueue (q : Queue) (p : Path) : (q.enqueue p).running = q.running := by
  rw [enqueue]
  split <;> rfl

@[simp] theorem triggers_enqueue (q : Queue) (p : Path) : (q.enqueue p).triggers = q.triggers := by
  rw [enqueue]
  split <;> rfl

@[simp] theorem promises_enqueue (q : Queue) (p : Path) : (q.enqueue p).promises = q.promises := by
  rw [enqueue]
  split <;> rfl

@[simp] theorem promised_enqueue (q : Queue) (p : Path) : (q.enqueue p).promised = q.promised := by
  rw [enqueue]
  split <;> rfl

/-- A file that is not being analyzed is made to wait. -/
theorem Placed.wait {q : Queue} {jobs : List Path} (h : q.Placed jobs) {p : Path}
    (hp : ¬ p.OneOf jobs) : ((q.setPhase p .stale).enqueue p).Placed jobs where
  queued_iff x := by
    rw [contains_queued_enqueue, oneOf_queue_enqueue (q.setPhase p .stale) _ _ (h.queued_iff p)]
    simp only [setPhase, Bool.or_eq_true, beq_iff_eq, h.queued_iff x]
  queue_distinct := by
    by_cases hq : q.queued.contains p = true
    · rw [enqueue_of_queued (q := q.setPhase p .stale) hq]
      exact h.queue_distinct
    · rw [enqueue_of_not_queued (q := q.setPhase p .stale) (Bool.eq_false_iff.mpr hq)]
      refine List.pairwise_append.mpr ⟨h.queue_distinct, List.pairwise_singleton _ _, ?_⟩
      intro a ha b hb hc
      obtain rfl := List.mem_singleton.mp hb
      exact hq ((h.queued_iff b).mpr ⟨a, ha, OrientedCmp.eq_symm hc⟩)
  stale_of_queued x hx := by
    rw [oneOf_queue_enqueue (q.setPhase p .stale) _ _ (h.queued_iff p)] at hx
    rw [phases_enqueue]
    simp only [setPhase, SortedMap.get?_insert]
    split
    · rfl
    next hne => exact h.stale_of_queued x (hx.resolve_left hne)
  running_eq := by
    rw [running_enqueue]
    exact h.running_eq
  jobs_distinct := h.jobs_distinct
  analyzing_iff x := by
    rw [phases_enqueue]
    simp only [setPhase, SortedMap.get?_insert]
    by_cases hx : compare x p = .eq
    · simp [hx, Path.oneOf_congr hx, hp]
    · simp [hx, h.analyzing_iff x]
  rerun_job x hx := by
    rw [rerun_enqueue] at hx
    exact h.rerun_job x hx

theorem WellFormed.wait {q : Queue} {jobs : List Path} (h : q.WellFormed jobs) {p : Path}
    (hp : ¬ p.OneOf jobs) : ((q.setPhase p .stale).enqueue p).WellFormed jobs where
  toPlaced := h.toPlaced.wait hp
  queued_of_stale x hx := by
    rw [phases_enqueue] at hx
    simp only [setPhase, SortedMap.get?_insert] at hx
    rw [oneOf_queue_enqueue (q.setPhase p .stale) _ _ (h.queued_iff p)]
    split at hx
    next heq => exact Or.inl heq
    next => exact Or.inr (h.queued_of_stale x hx)

theorem Placed.invalidate {q : Queue} {jobs : List Path} (h : q.Placed jobs) (p : Path)
    (t : Trigger) : (q.invalidate p t).Placed jobs := by
  have hraised : (q.raiseTrigger p t).Placed jobs := h.of_eq rfl rfl rfl rfl rfl
  rw [Queue.invalidate]
  split
  next hphase =>
    have hjob : p.OneOf jobs := (h.analyzing_iff p).mp hphase
    refine { hraised with rerun_job := fun x hx => ?_ }
    rw [SortedMap.contains_insert, Bool.or_eq_true, beq_iff_eq] at hx
    rcases hx with hx | hx
    · exact (Path.oneOf_congr hx jobs).mpr hjob
    · exact h.rerun_job x hx
  next hphase => exact hraised.wait fun hjob => hphase ((h.analyzing_iff p).mpr hjob)

theorem WellFormed.invalidate {q : Queue} {jobs : List Path} (h : q.WellFormed jobs) (p : Path)
    (t : Trigger) : (q.invalidate p t).WellFormed jobs := by
  refine ⟨h.toPlaced.invalidate p t, ?_⟩
  rw [Queue.invalidate]
  split
  next => exact h.queued_of_stale
  next hphase =>
    have hraised : (q.raiseTrigger p t).WellFormed jobs := h.of_eq rfl rfl rfl rfl rfl
    exact (hraised.wait fun hjob => hphase ((h.analyzing_iff p).mpr hjob)).queued_of_stale

theorem awaits_invalidate_iff (q : Queue) (p x : Path) (t : Trigger) :
    (q.invalidate p t).Awaits x ↔ compare x p = .eq ∨ q.Awaits x := by
  simp only [Awaits, invalidate]
  split
  · rw [SortedMap.contains_insert]
    simp only [raiseTrigger, Bool.or_eq_true, beq_iff_eq]
    grind
  · rw [contains_queued_enqueue, rerun_enqueue]
    simp only [setPhase, raiseTrigger, Bool.or_eq_true, beq_iff_eq]
    grind

theorem phases_invalidate_of_ne (q : Queue) {p x : Path} (hx : compare x p ≠ .eq) (t : Trigger) :
    (q.invalidate p t).phases.get? x = q.phases.get? x := by
  rw [invalidate]
  split
  · rfl
  · rw [phases_enqueue]
    simp [setPhase, SortedMap.get?_insert, hx, raiseTrigger]

/-! ## Requests survive -/

/-- Between two queues, `taken` being handed out on the way: a file that waited waits or was taken,
and a file that neither waits nor was taken kept its phase. -/
structure Carries (q q' : Queue) (taken : List Path) : Prop where
  awaits : ∀ x, q.Awaits x → q'.Awaits x ∨ x.OneOf taken
  phase : ∀ x, q'.Awaits x ∨ x.OneOf taken ∨ q'.phases.get? x = q.phases.get? x

namespace Carries

variable {q q' q'' : Queue} {taken taken' : List Path}

theorem of_eq (hphases : q'.phases = q.phases) (hqueued : q'.queued = q.queued)
    (hrerun : q'.rerun = q.rerun) : Carries q q' [] where
  awaits x hx := by
    rw [Awaits, hqueued, hrerun]
    exact Or.inl hx
  phase x := by
    rw [hphases]
    exact Or.inr (Or.inr rfl)

theorem trans (h : Carries q q' taken) (h' : Carries q' q'' taken') :
    Carries q q'' (taken ++ taken') where
  awaits x hx := by
    rw [Path.oneOf_append_iff]
    rcases h.awaits x hx with hx | hx
    · exact (h'.awaits x hx).imp_right Or.inr
    · exact Or.inr (Or.inl hx)
  phase x := by
    rw [Path.oneOf_append_iff]
    rcases h.phase x with hx | hx | hx
    · rcases h'.awaits x hx with hx | hx
      · exact Or.inl hx
      · exact Or.inr (Or.inl (Or.inr hx))
    · exact Or.inr (Or.inl (Or.inl hx))
    · rcases h'.phase x with hx' | hx' | hx'
      · exact Or.inl hx'
      · exact Or.inr (Or.inl (Or.inr hx'))
      · exact Or.inr (Or.inr (hx'.trans hx))

end Carries

theorem carries_invalidate (q : Queue) (p : Path) (t : Trigger) :
    Carries q (q.invalidate p t) [] where
  awaits x hx := Or.inl ((awaits_invalidate_iff q p x t).mpr (Or.inr hx))
  phase x := by
    by_cases hx : compare x p = .eq
    · exact Or.inl ((awaits_invalidate_iff q p x t).mpr (Or.inl hx))
    · exact Or.inr (Or.inr (phases_invalidate_of_ne q hx t))

theorem foldl_invalidate {q : Queue} {jobs : List Path} (h : q.WellFormed jobs) (paths : List Path)
    (t : Trigger) :
    (paths.foldl (fun q p => q.invalidate p t) q).WellFormed jobs ∧
      Carries q (paths.foldl (fun q p => q.invalidate p t) q) [] ∧
      ∀ x, x.OneOf paths → (paths.foldl (fun q p => q.invalidate p t) q).Awaits x := by
  induction paths generalizing q with
  | nil => exact ⟨h, .of_eq rfl rfl rfl, fun x hx => absurd hx (Path.not_oneOf_nil x)⟩
  | cons p paths ih =>
    obtain ⟨hwell, hcarries, hall⟩ := ih (h.invalidate p t)
    refine ⟨hwell, (carries_invalidate q p t).trans hcarries, fun x hx => ?_⟩
    rcases (Path.oneOf_cons_iff x p paths).mp hx with hx | hx
    · have hx' := (awaits_invalidate_iff q p x t).mpr (Or.inl hx)
      exact (hcarries.awaits x hx').resolve_right (Path.not_oneOf_nil x)
    · exact hall x hx

/-! ## Taking files -/

@[simp] theorem phases_openSession (q : Queue) : q.openSession.phases = q.phases := by
  rw [openSession]
  split <;> rfl

@[simp] theorem queue_openSession (q : Queue) : q.openSession.queue = q.queue := by
  rw [openSession]
  split <;> rfl

@[simp] theorem queued_openSession (q : Queue) : q.openSession.queued = q.queued := by
  rw [openSession]
  split <;> rfl

@[simp] theorem rerun_openSession (q : Queue) : q.openSession.rerun = q.rerun := by
  rw [openSession]
  split <;> rfl

@[simp] theorem running_openSession (q : Queue) : q.openSession.running = q.running := by
  rw [openSession]
  split <;> rfl

@[simp] theorem triggers_openSession (q : Queue) : q.openSession.triggers = q.triggers := by
  rw [openSession]
  split <;> rfl

@[simp] theorem promises_openSession (q : Queue) : q.openSession.promises = q.promises := by
  rw [openSession]
  split <;> rfl

@[simp] theorem promised_openSession (q : Queue) : q.openSession.promised = q.promised := by
  rw [openSession]
  split <;> rfl

/-- What taking the first waiting file does to the fields that place files. -/
theorem takeOne_eq_some {q q' : Queue} {job : Path × Trigger} (h : q.takeOne = some (q', job)) :
    ∃ rest, q.queue = job.1 :: rest ∧ job.2 = (q.triggers.get? job.1).getD .content ∧
      q'.queue = rest ∧ q'.queued = q.queued.erase job.1 ∧ q'.triggers = q.triggers.erase job.1 ∧
      q'.phases = q.phases.insert job.1 .analyzing ∧ q'.running = q.running + 1 ∧
      q'.rerun = q.rerun ∧ q'.promises = q.promises ∧ q'.promised = q.promised := by
  rw [takeOne] at h
  split at h
  · simp at h
  · rename_i path rest hqueue
    obtain ⟨rfl, rfl⟩ := Prod.mk.inj (Option.some.inj h)
    exact ⟨rest, hqueue, rfl, by simp [setPhase]⟩

theorem takeMany_of_nil {q : Queue} (h : q.queue = []) (n : Nat) : takeMany n q = (q, []) := by
  cases n with
  | zero => rfl
  | succ n => simp [takeMany, takeOne, h]

/-- All spellings of the taken file leave the queue together. -/
theorem Placed.oneOf_rest {q : Queue} {jobs rest : List Path} {path : Path} (h : q.Placed jobs)
    (hqueue : q.queue = path :: rest) (x : Path) :
    x.OneOf rest ↔ compare x path ≠ .eq ∧ x.OneOf q.queue := by
  have hfirst : ¬ path.OneOf rest := Path.not_oneOf_of_pairwise (hqueue ▸ h.queue_distinct)
  rw [hqueue, Path.oneOf_cons_iff]
  constructor
  · intro hx
    exact ⟨fun hc => hfirst ((Path.oneOf_congr hc rest).mp hx), Or.inr hx⟩
  · rintro ⟨hne, hx⟩
    exact hx.resolve_left hne

theorem Placed.takeOne {q q' : Queue} {jobs : List Path} {job : Path × Trigger}
    (h : q.Placed jobs) (htake : q.takeOne = some (q', job)) : q'.Placed (job.1 :: jobs) := by
  obtain ⟨rest, hqueue, -, hqueue', hqueued, -, hphases, hrunning, hrerun, -⟩ :=
    takeOne_eq_some htake
  have hwaits : job.1.OneOf q.queue := hqueue ▸ Path.oneOf_of_mem List.mem_cons_self
  have hjobs : ¬ job.1.OneOf jobs := fun hj => h.not_queued_of_job hj hwaits
  have hrest := h.oneOf_rest hqueue
  constructor
  · intro x
    rw [hqueued, hqueue', hrest, SortedMap.contains_erase, ← h.queued_iff]
    simp
  · rw [hqueue']
    exact (List.pairwise_cons.mp (hqueue ▸ h.queue_distinct)).2
  · intro x hx
    rw [hqueue', hrest] at hx
    rw [hphases, SortedMap.get?_insert, if_neg hx.1, h.stale_of_queued x hx.2]
  · rw [hrunning, h.running_eq]
    rfl
  · refine List.pairwise_cons.mpr ⟨fun x hx hc => hjobs ⟨x, hx, hc⟩, h.jobs_distinct⟩
  · intro x
    rw [hphases, SortedMap.get?_insert, Path.oneOf_cons_iff, ← h.analyzing_iff]
    by_cases hx : compare x job.1 = .eq <;> simp [hx]
  · intro x hx
    rw [hrerun] at hx
    exact (Path.oneOf_cons_iff x job.1 jobs).mpr (Or.inr (h.rerun_job x hx))

theorem WellFormed.takeOne {q q' : Queue} {jobs : List Path} {job : Path × Trigger}
    (h : q.WellFormed jobs) (htake : q.takeOne = some (q', job)) : q'.WellFormed (job.1 :: jobs) := by
  refine ⟨h.toPlaced.takeOne htake, fun x hx => ?_⟩
  obtain ⟨rest, hqueue, -, hqueue', -, -, hphases, -⟩ := takeOne_eq_some htake
  rw [hphases, SortedMap.get?_insert] at hx
  split at hx
  · simp at hx
  next hne =>
    rw [hqueue', h.oneOf_rest hqueue]
    exact ⟨hne, h.queued_of_stale x hx⟩

theorem carries_takeOne {q q' : Queue} {job : Path × Trigger}
    (htake : q.takeOne = some (q', job)) : Carries q q' [job.1] := by
  obtain ⟨rest, -, -, -, hqueued, -, hphases, -, hrerun, -⟩ := takeOne_eq_some htake
  constructor
  · intro x hx
    by_cases hc : compare x job.1 = .eq
    · exact Or.inr ((Path.oneOf_cons_iff x job.1 []).mpr (Or.inl hc))
    · refine Or.inl ?_
      rw [Awaits, hqueued, hrerun, SortedMap.contains_erase]
      simpa [hc, Awaits] using hx
  · intro x
    by_cases hc : compare x job.1 = .eq
    · exact Or.inr (Or.inl ((Path.oneOf_cons_iff x job.1 []).mpr (Or.inl hc)))
    · refine Or.inr (Or.inr ?_)
      rw [hphases, SortedMap.get?_insert, if_neg hc]

theorem takeMany_spec (n : Nat) {q : Queue} {jobs : List Path} (h : q.WellFormed jobs) :
    (takeMany n q).1.WellFormed ((takeMany n q).2.map (·.1) ++ jobs) ∧
      Carries q (takeMany n q).1 ((takeMany n q).2.map (·.1)) := by
  induction n generalizing q jobs with
  | zero => exact ⟨h, .of_eq rfl rfl rfl⟩
  | succ n ih =>
    rw [takeMany]
    split
    · exact ⟨h, .of_eq rfl rfl rfl⟩
    · rename_i q' job htake
      obtain ⟨hwell, hcarries⟩ := ih (h.takeOne htake)
      refine ⟨hwell.perm ?_, (carries_takeOne htake).trans hcarries⟩
      simp

theorem takeReady_spec {q : Queue} {jobs : List Path} (h : q.WellFormed jobs) (workers : Nat) :
    (q.takeReady workers).1.WellFormed ((q.takeReady workers).2.map (·.1) ++ jobs) ∧
      Carries q (q.takeReady workers).1 ((q.takeReady workers).2.map (·.1)) :=
  takeMany_spec _ h

/-! ## Scheduling -/

theorem foldl_promise (promises : List (Path × List String)) {q : Queue} {jobs : List Path}
    (h : q.WellFormed jobs) :
    (promises.foldl (fun q p => q.promise p.1 p.2) q).WellFormed jobs ∧
      Carries q (promises.foldl (fun q p => q.promise p.1 p.2) q) [] := by
  induction promises generalizing q with
  | nil => exact ⟨h, .of_eq rfl rfl rfl⟩
  | cons p promises ih =>
    have hone : (q.promise p.1 p.2).WellFormed jobs := h.of_eq rfl rfl rfl rfl rfl
    obtain ⟨hwell, hcarries⟩ := ih hone
    have hsame : Carries q (q.promise p.1 p.2) [] := .of_eq rfl rfl rfl
    exact ⟨hwell, hsame.trans hcarries⟩

theorem schedule_spec {q : Queue} {jobs : List Path} (h : q.WellFormed jobs) (workers : Nat)
    (paths : List Path) (promises : List (Path × List String)) (t : Trigger) :
    (q.schedule workers paths promises t).1.WellFormed
        ((q.schedule workers paths promises t).2.map (·.1) ++ jobs) ∧
      Carries q (q.schedule workers paths promises t).1
        ((q.schedule workers paths promises t).2.map (·.1)) ∧
      ∀ x, x.OneOf paths → (q.schedule workers paths promises t).1.Awaits x ∨
        x.OneOf ((q.schedule workers paths promises t).2.map (·.1)) := by
  obtain ⟨hpromise, hcarries⟩ := foldl_promise promises h
  obtain ⟨hwait, hcarries', hall⟩ := foldl_invalidate hpromise paths t
  obtain ⟨htake, hcarries''⟩ := takeReady_spec hwait workers
  exact ⟨htake, (hcarries.trans hcarries').trans hcarries'', fun x hx =>
    hcarries''.awaits x (hall x hx)⟩

/-! ## Finishing -/

/-- The analysis of `path` is over and leaves it in some other phase. -/
theorem Placed.rest {q q' : Queue} {jobs : List Path} {path : Path}
    (h : q.Placed (path :: jobs)) (phase : Option FilePhase) (hanalyzing : phase ≠ some .analyzing)
    (hphases : ∀ x, q'.phases.get? x = if compare x path = .eq then phase else q.phases.get? x)
    (hqueue : q'.queue = q.queue) (hqueued : q'.queued = q.queued)
    (hrerun : q'.rerun = q.rerun.erase path) (hrunning : q'.running = q.running - 1) :
    q'.Placed jobs := by
  have hself : path.OneOf (path :: jobs) := Path.oneOf_of_mem List.mem_cons_self
  have hnot : ¬ path.OneOf q.queue := h.not_queued_of_job hself
  have hother : ¬ path.OneOf jobs := Path.not_oneOf_of_pairwise h.jobs_distinct
  constructor
  · rw [hqueued, hqueue]
    exact h.queued_iff
  · rw [hqueue]
    exact h.queue_distinct
  · intro x hx
    rw [hqueue] at hx
    rw [hphases, if_neg fun hc => hnot ((Path.oneOf_congr hc _).mp hx), h.stale_of_queued x hx]
  · rw [hrunning, h.running_eq]
    simp
  · exact (List.pairwise_cons.mp h.jobs_distinct).2
  · intro x
    rw [hphases]
    by_cases hx : compare x path = .eq
    · simp [hx, hanalyzing, Path.oneOf_congr hx, hother]
    · rw [if_neg hx, h.analyzing_iff, Path.oneOf_cons_iff]
      exact or_iff_right hx
  · intro x hx
    rw [hrerun, SortedMap.contains_erase, Bool.and_eq_true, bne_iff_ne] at hx
    exact ((Path.oneOf_cons_iff x path jobs).mp (h.rerun_job x hx.2)).resolve_left hx.1

/-- The analysis of `path` is over and leaves it in a phase of rest. -/
theorem WellFormed.rest {q q' : Queue} {jobs : List Path} {path : Path}
    (h : q.WellFormed (path :: jobs)) (phase : Option FilePhase) (hstale : phase ≠ some .stale)
    (hanalyzing : phase ≠ some .analyzing)
    (hphases : ∀ x, q'.phases.get? x = if compare x path = .eq then phase else q.phases.get? x)
    (hqueue : q'.queue = q.queue) (hqueued : q'.queued = q.queued)
    (hrerun : q'.rerun = q.rerun.erase path) (hrunning : q'.running = q.running - 1) :
    q'.WellFormed jobs where
  toPlaced := h.toPlaced.rest phase hanalyzing hphases hqueue hqueued hrerun hrunning
  queued_of_stale x hx := by
    rw [hphases] at hx
    rw [hqueue]
    split at hx
    · exact absurd hx hstale
    · exact h.queued_of_stale x hx

/-- The phase of a file after an analysis that nothing overtook. -/
def restPhase (a : Analysis) : Option FilePhase := if a.removed then none else some .fresh

/-- The analysis of `path` is over: everything that waited waits, and a file that does not wait kept
its phase, `path` itself being at rest. -/
structure Settles (q q' : Queue) (jobs : List Path) (path : Path) (a : Analysis) : Prop where
  wellFormed : q'.WellFormed jobs
  awaits : ∀ x, q.Awaits x → q'.Awaits x
  phase : ∀ x, q'.Awaits x ∨
    q'.phases.get? x = if compare x path = .eq then restPhase a else q.phases.get? x

namespace Settles

variable {q q₀ q' q'' : Queue} {jobs : List Path} {path : Path} {a : Analysis}

theorem carry (h : Settles q q' jobs path a) (hwell : q''.WellFormed jobs)
    (hcarries : Carries q' q'' []) : Settles q q'' jobs path a where
  wellFormed := hwell
  awaits x hx := (hcarries.awaits x (h.awaits x hx)).resolve_right (Path.not_oneOf_nil x)
  phase x := by
    rcases hcarries.phase x with hx | hx | hx
    · exact Or.inl hx
    · exact absurd hx (Path.not_oneOf_nil x)
    · rcases h.phase x with hx' | hx'
      · exact Or.inl ((hcarries.awaits x hx').resolve_right (Path.not_oneOf_nil x))
      · exact Or.inr (hx.trans hx')

theorem of_rest (h : q.WellFormed (path :: jobs)) (hagain : q.rerun.contains path = false)
    (hphases : ∀ x, q'.phases.get? x =
      if compare x path = .eq then restPhase a else q.phases.get? x)
    (hqueue : q'.queue = q.queue) (hqueued : q'.queued = q.queued)
    (hrerun : q'.rerun = q.rerun.erase path) (hrunning : q'.running = q.running - 1) :
    Settles q q' jobs path a where
  wellFormed := by
    refine h.rest (restPhase a) ?_ ?_ hphases hqueue hqueued hrerun hrunning
    · rw [restPhase]
      split <;> simp
    · rw [restPhase]
      split <;> simp
  awaits x hx := by
    rw [Awaits, hqueued, hrerun, SortedMap.contains_erase, Bool.and_eq_true, bne_iff_ne]
    refine hx.imp_right fun hr => ⟨fun hc => ?_, hr⟩
    rw [SortedMap.contains_congr _ hc, hagain] at hr
    simp at hr
  phase x := Or.inr (hphases x)

theorem of_again (h : q.WellFormed (path :: jobs))
    (hphases : q₀.phases = q.phases) (hqueue : q₀.queue = q.queue) (hqueued : q₀.queued = q.queued)
    (hrerun : q₀.rerun = q.rerun.erase path) (hrunning : q₀.running = q.running - 1) :
    Settles q ((q₀.setPhase path .stale).enqueue path) jobs path a where
  wellFormed := by
    have hfresh : (q₀.setPhase path .fresh).WellFormed jobs := by
      refine h.rest (some .fresh) (by simp) (by simp) (fun x => ?_) hqueue hqueued hrerun
        hrunning
      rw [← hphases]
      exact SortedMap.get?_insert _ _ _ _
    rw [← setPhase_setPhase q₀ path .fresh .stale]
    exact hfresh.wait (Path.not_oneOf_of_pairwise h.jobs_distinct)
  awaits x hx := by
    rw [Awaits, contains_queued_enqueue, rerun_enqueue]
    simp only [setPhase, hqueued, hrerun, SortedMap.contains_erase]
    rcases hx with hx | hx
    · simp [hx]
    · by_cases hc : compare x path = .eq <;> simp [hc, hx]
  phase x := by
    by_cases hx : compare x path = .eq
    · refine Or.inl (Or.inl ?_)
      rw [contains_queued_enqueue]
      simp [hx]
    · refine Or.inr ?_
      rw [phases_enqueue, if_neg hx, ← hphases]
      simp [setPhase, SortedMap.get?_insert, hx]

end Settles

/-- The analyzed file is put down: at rest, or waiting because it was asked for meanwhile. -/
def putDown (q : Queue) (path : Path) (again : Bool) (a : Analysis) : Queue :=
  let q := { q with cacheHits := if a.fromCache then q.cacheHits + 1 else q.cacheHits }
  if again then (q.setPhase path .stale).enqueue path
  else if a.removed then { q with phases := q.phases.erase path }
  else q.setPhase path .fresh

/-- The files an analysis asks for, its own among them. -/
def asked (path : Path) (a : Analysis) : List Path :=
  (if a.requeue then [path] else []) ++ SortedSet.toList a.stale

theorem settleAnalysis_eq (q : Queue) (path : Path) (again : Bool) (a : Analysis) :
    q.settleAnalysis path again a =
      (asked path a).foldl (fun q p => q.invalidate p .dependency) (q.putDown path again a) := by
  have hput : q.putDown path again a =
      let q := if a.fromCache then { q with cacheHits := q.cacheHits + 1 } else q
      if again then (q.setPhase path .stale).enqueue path
      else if a.removed then { q with phases := q.phases.erase path }
      else q.setPhase path .fresh := by
    rw [putDown]
    cases a.fromCache <;> rfl
  rw [settleAnalysis, hput, asked, List.foldl_append]
  cases a.requeue <;> rfl

theorem putDown_spec {q q₀ : Queue} {jobs : List Path} {path : Path} (a : Analysis)
    (h : q.WellFormed (path :: jobs)) (hphases : q₀.phases = q.phases)
    (hqueue : q₀.queue = q.queue) (hqueued : q₀.queued = q.queued)
    (hrerun : q₀.rerun = q.rerun.erase path) (hrunning : q₀.running = q.running - 1) :
    Settles q (q₀.putDown path (q.rerun.contains path) a) jobs path a := by
  rw [putDown]
  split
  next => exact .of_again h hphases hqueue hqueued hrerun hrunning
  next hagain =>
    rw [Bool.not_eq_true] at hagain
    split
    next hremoved =>
      refine .of_rest h hagain (fun x => ?_) hqueue hqueued hrerun hrunning
      simp [SortedMap.get?_erase, restPhase, hremoved, hphases]
    next hkept =>
      refine .of_rest h hagain (fun x => ?_) hqueue hqueued hrerun hrunning
      simp [setPhase, SortedMap.get?_insert, restPhase, hkept, hphases]

theorem settleAnalysis_spec {q q₀ : Queue} {jobs : List Path} {path : Path} (a : Analysis)
    (h : q.WellFormed (path :: jobs)) (hphases : q₀.phases = q.phases)
    (hqueue : q₀.queue = q.queue) (hqueued : q₀.queued = q.queued)
    (hrerun : q₀.rerun = q.rerun.erase path) (hrunning : q₀.running = q.running - 1) :
    Settles q (q₀.settleAnalysis path (q.rerun.contains path) a) jobs path a ∧
      ∀ x, x.OneOf (asked path a) →
        (q₀.settleAnalysis path (q.rerun.contains path) a).Awaits x := by
  have hput := putDown_spec a h hphases hqueue hqueued hrerun hrunning
  obtain ⟨hwell, hcarries, hall⟩ := foldl_invalidate hput.wellFormed (asked path a) .dependency
  rw [settleAnalysis_eq]
  exact ⟨hput.carry hwell hcarries, hall⟩

theorem reportFile_places (q : Queue) (path : Path) :
    (q.reportFile path).phases = q.phases ∧ (q.reportFile path).queue = q.queue ∧
      (q.reportFile path).queued = q.queued ∧ (q.reportFile path).rerun = q.rerun ∧
      (q.reportFile path).running = q.running := by
  rw [reportFile]
  split <;> exact ⟨rfl, rfl, rfl, rfl, rfl⟩

theorem closeIfIdle_places (q : Queue) :
    q.closeIfIdle.phases = q.phases ∧ q.closeIfIdle.queue = q.queue ∧
      q.closeIfIdle.queued = q.queued ∧ q.closeIfIdle.rerun = q.rerun ∧
      q.closeIfIdle.running = q.running := by
  rw [closeIfIdle]
  split
  · split <;> exact ⟨rfl, rfl, rfl, rfl, rfl⟩
  · exact ⟨rfl, rfl, rfl, rfl, rfl⟩

def leave (q : Queue) (path : Path) : Queue :=
  { q with
    running := q.running - 1
    completed := q.completed + 1
    sessionDone := q.sessionDone + 1
    rerun := q.rerun.erase path }

theorem finish_eq (q : Queue) (workers : Nat) (path : Path) (a : Analysis) :
    q.finish workers path (some a) =
      let taken := (((q.leave path).settleAnalysis path (q.rerun.contains path) a).reportFile
        path).takeReady workers
      (taken.1.closeIfIdle, taken.2) := rfl

/-- After an analysis everything that waited waits or was taken up, and so does everything the
analysis made stale; any other file kept its phase, the analyzed one being at rest. -/
theorem finish_spec {q : Queue} {jobs : List Path} {path : Path} (h : q.WellFormed (path :: jobs))
    (workers : Nat) (a : Analysis) :
    (q.finish workers path (some a)).1.WellFormed
        ((q.finish workers path (some a)).2.map (·.1) ++ jobs) ∧
      (∀ x, q.Awaits x ∨ x.OneOf (asked path a) →
        (q.finish workers path (some a)).1.Awaits x ∨
          x.OneOf ((q.finish workers path (some a)).2.map (·.1))) ∧
      ∀ x, (q.finish workers path (some a)).1.Awaits x ∨
        x.OneOf ((q.finish workers path (some a)).2.map (·.1)) ∨
        (q.finish workers path (some a)).1.phases.get? x =
          if compare x path = .eq then restPhase a else q.phases.get? x := by
  generalize hq₁ : (q.leave path).settleAnalysis path (q.rerun.contains path) a = q₁
  obtain ⟨hsettles, hstale⟩ : Settles q q₁ jobs path a ∧
      ∀ x, x.OneOf (asked path a) → q₁.Awaits x :=
    hq₁ ▸ settleAnalysis_spec a h rfl rfl rfl rfl rfl
  generalize htaken : (q₁.reportFile path).takeReady workers = taken
  have hfinish : q.finish workers path (some a) = (taken.1.closeIfIdle, taken.2) := by
    rw [finish_eq, hq₁, htaken]
  obtain ⟨hphases, hqueue, hqueued, hrerun, hrunning⟩ := reportFile_places q₁ path
  obtain ⟨hwell, hcarries⟩ :=
    takeReady_spec (hsettles.wellFormed.of_eq hphases hqueue hqueued hrerun hrunning) workers
  rw [htaken] at hwell hcarries
  have hreport : Carries q₁ taken.1 (taken.2.map (·.1)) :=
    (Carries.of_eq hphases hqueued hrerun).trans hcarries
  obtain ⟨hphases, hqueue, hqueued, hrerun, hrunning⟩ := closeIfIdle_places taken.1
  have hclose : Carries q₁ taken.1.closeIfIdle (taken.2.map (·.1)) := by
    simpa using hreport.trans (.of_eq hphases hqueued hrerun)
  rw [hfinish]
  refine ⟨hwell.of_eq hphases hqueue hqueued hrerun hrunning, fun x hx => ?_, fun x => ?_⟩
  · exact hclose.awaits x (hx.elim (hsettles.awaits x) (hstale x))
  · rcases hclose.phase x with hx | hx | hx
    · exact Or.inl hx
    · exact Or.inr (Or.inl hx)
    · rcases hsettles.phase x with hx' | hx'
      · exact (hclose.awaits x hx').imp_right Or.inl
      · exact Or.inr (Or.inr (hx.trans hx'))

/-- The last analysis leaves the queue idle if it asks for nothing. -/
theorem isIdle_finish {q : Queue} {path : Path} {a : Analysis} (hqueue : q.queue = [])
    (hrunning : q.running = 1) (hrerun : q.rerun.contains path = false) (hasked : asked path a = [])
    (workers : Nat) : (q.finish workers path (some a)).1.isIdle = true := by
  have hput : ((q.leave path).settleAnalysis path (q.rerun.contains path) a).queue = [] ∧
      ((q.leave path).settleAnalysis path (q.rerun.contains path) a).running = 0 := by
    rw [settleAnalysis_eq, hasked, hrerun, List.foldl_nil, putDown, if_neg Bool.false_ne_true]
    split <;> exact ⟨hqueue, by simp [leave, setPhase, hrunning]⟩
  have hplaces := reportFile_places ((q.leave path).settleAnalysis path (q.rerun.contains path) a) path
  rw [finish_eq]
  generalize ((q.leave path).settleAnalysis path (q.rerun.contains path) a).reportFile path = q' at *
  have hempty : q'.queue = [] := hplaces.2.1.trans hput.1
  have hrest : q'.running = 0 := hplaces.2.2.2.2.trans hput.2
  have hclose := closeIfIdle_places q'
  simp only [takeReady, takeMany_of_nil hempty]
  rw [isIdle, hclose.2.1, hclose.2.2.2.2, hempty, hrest]
  rfl

/-! ## Where waiting files come from -/

/-- All waiting files are of a kind. -/
def Within (q : Queue) (kind : Path → Prop) : Prop := ∀ p ∈ q.queue, kind p

namespace Within

variable {q : Queue} {kind : Path → Prop} {path : Path}

theorem enqueue (h : q.Within kind) (hpath : kind path) : (q.enqueue path).Within kind := by
  rw [Queue.enqueue]
  split
  · exact h
  · intro p hp
    rcases List.mem_append.mp hp with hp | hp
    · exact h p hp
    · rwa [List.mem_singleton.mp hp]

theorem invalidate (h : q.Within kind) (hpath : kind path) (t : Trigger) :
    (q.invalidate path t).Within kind := by
  rw [Queue.invalidate]
  split
  · exact h
  · exact Within.enqueue (q := (q.raiseTrigger path t).setPhase path .stale) h hpath

theorem foldl_invalidate (h : q.Within kind) {paths : List Path} (hpaths : ∀ p ∈ paths, kind p)
    (t : Trigger) : (paths.foldl (fun q p => q.invalidate p t) q).Within kind := by
  induction paths generalizing q with
  | nil => exact h
  | cons p paths ih =>
    rw [List.forall_mem_cons] at hpaths
    exact ih (h.invalidate hpaths.1 t) hpaths.2

theorem foldl_promise (h : q.Within kind) (promises : List (Path × List String)) :
    (promises.foldl (fun q p => q.promise p.1 p.2) q).Within kind := by
  induction promises generalizing q with
  | nil => exact h
  | cons p promises ih => exact ih h

theorem takeMany (h : q.Within kind) (n : Nat) :
    (takeMany n q).1.Within kind ∧ ∀ job ∈ (takeMany n q).2, kind job.1 := by
  induction n generalizing q with
  | zero => exact ⟨h, by simp [Queue.takeMany]⟩
  | succ n ih =>
    rw [Queue.takeMany]
    split
    · exact ⟨h, by simp⟩
    · rename_i q' job htake
      obtain ⟨rest, hqueue, -, hrest, -⟩ := takeOne_eq_some htake
      have hwithin : q'.Within kind := by
        intro p hp
        rw [hrest] at hp
        exact h p (by rw [hqueue]; exact List.mem_cons_of_mem _ hp)
      have hjob : kind job.1 := h job.1 (by rw [hqueue]; exact List.mem_cons_self)
      obtain ⟨hleft, hjobs⟩ := ih hwithin
      refine ⟨hleft, fun other hother => ?_⟩
      rcases List.mem_cons.mp hother with rfl | hother
      · exact hjob
      · exact hjobs other hother

theorem schedule (h : q.Within kind) {paths : List Path} (hpaths : ∀ p ∈ paths, kind p)
    (workers : Nat) (promises : List (Path × List String)) (t : Trigger) :
    (q.schedule workers paths promises t).1.Within kind ∧
      ∀ job ∈ (q.schedule workers paths promises t).2, kind job.1 :=
  ((h.foldl_promise promises).foldl_invalidate hpaths t).takeMany _

theorem settleAnalysis (h : q.Within kind) (hpath : kind path) (again : Bool) {a : Analysis}
    (hstale : ∀ p ∈ SortedSet.toList a.stale, kind p) :
    (q.settleAnalysis path again a).Within kind := by
  have hput : (q.putDown path again a).Within kind := by
    rw [putDown]
    split
    · apply Within.enqueue _ hpath
      exact h
    · split <;> exact h
  rw [settleAnalysis_eq]
  refine hput.foldl_invalidate (fun p hp => ?_) .dependency
  rcases List.mem_append.mp hp with hp | hp
  · split at hp
    · rwa [List.mem_singleton.mp hp]
    · simp at hp
  · exact hstale p hp

theorem finish (h : q.Within kind) (hpath : kind path) {a : Analysis}
    (hstale : ∀ p ∈ SortedSet.toList a.stale, kind p) (workers : Nat) :
    (q.finish workers path (some a)).1.Within kind ∧
      ∀ job ∈ (q.finish workers path (some a)).2, kind job.1 := by
  have hsettled : ((q.leave path).settleAnalysis path (q.rerun.contains path) a).Within kind :=
    Within.settleAnalysis (q := q.leave path) h hpath _ hstale
  have hreported : (((q.leave path).settleAnalysis path (q.rerun.contains path) a).reportFile
      path).Within kind := by
    rw [Within, (reportFile_places _ path).2.1]
    exact hsettled
  obtain ⟨hleft, hjobs⟩ := hreported.takeMany (workers - Queue.running (((q.leave
    path).settleAnalysis path (q.rerun.contains path) a).reportFile path))
  rw [finish_eq]
  refine ⟨?_, hjobs⟩
  simp only [Within, (closeIfIdle_places _).2.1]
  exact hleft

end Within

end Queue

end JavaAtlas
