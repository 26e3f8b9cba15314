import JavaAtlas.Proofs.Queue.History

/-!
# How much a queue still has to do

Three counts go down, or at least not up, when an analysis is over: the requests for files with a new
text, since an analysis asks for nothing but a new binding; the promises, since that of the file is
taken back; and, if the analysis asked for nothing, the files that wait, are flagged or are with a
worker.
-/

namespace JavaAtlas

set_option autoImplicit false

open Std (ReflCmp)

namespace Queue

/-! ## New texts -/

/-- How many of the files handed out have a new text. -/
def contentJobs (jobs : List (Path × Trigger)) : Nat := jobs.countP fun job => job.2 = .content

/-- How many of the files that wait or are flagged have a new text. -/
def contentWork (q : Queue) : Nat := q.triggers.entries.countP fun e => e.2 = .content

theorem contentJobs_append (jobs jobs' : List (Path × Trigger)) :
    contentJobs (jobs ++ jobs') = contentJobs jobs + contentJobs jobs' := List.countP_append

theorem contentWork_invalidate (q : Queue) (p : Path) :
    (q.invalidate p .dependency).contentWork ≤ q.contentWork := by
  have hraised : ((q.triggers.get? p).getD .dependency).max .dependency = .dependency := by
    cases q.triggers.get? p with
    | none => rfl
    | some t => cases t <;> rfl
  have hperm := q.triggers.perm_insert_erase p .dependency
  have hrest : (q.triggers.erase p).entries.Sublist q.triggers.entries := List.filter_sublist
  rw [contentWork, triggers_invalidate, raiseTrigger, contentWork]
  simp only [SortedMap.alter, hraised]
  rw [hperm.countP_eq, List.countP_cons_of_neg (by simp)]
  exact hrest.countP_le

theorem contentWork_foldl_invalidate (q : Queue) (paths : List Path) :
    (paths.foldl (fun q p => q.invalidate p .dependency) q).contentWork ≤ q.contentWork := by
  induction paths generalizing q with
  | nil => exact Nat.le_refl _
  | cons p paths ih => exact Nat.le_trans (ih _) (contentWork_invalidate q p)

theorem Kept.contentWork_takeOne {q q' : Queue} {l : History} {job : Path × Trigger} (h : q.Kept l)
    (htake : q.takeOne = some (q', job)) : q.contentWork = contentJobs [job] + q'.contentWork := by
  obtain ⟨rest, hqueue, hjob, -, -, htriggers, -⟩ := takeOne_eq_some htake
  have hwaits : q.queued.contains job.1 = true :=
    (h.placed.queued_iff job.1).mpr (hqueue ▸ Path.oneOf_of_mem List.mem_cons_self)
  obtain ⟨e, he⟩ := Option.isSome_iff_exists.mp ((h.triggers_iff job.1).mpr (Or.inl hwaits))
  have htrigger : job.2 = e.2 := by rw [hjob, SortedMap.get?, he]; rfl
  rw [contentWork, (SortedMap.perm_erase he).countP_eq, List.countP_cons, contentWork, htriggers,
    contentJobs, List.countP_singleton, htrigger, Nat.add_comm]

theorem Kept.contentWork_takeMany {q : Queue} {l : History} (h : q.Kept l) (n : Nat) :
    q.contentWork = contentJobs (Queue.takeMany n q).2 + (Queue.takeMany n q).1.contentWork := by
  induction n generalizing q l with
  | zero => exact (Nat.zero_add _).symm
  | succ n ih =>
    rw [Queue.takeMany]
    split
    · exact (Nat.zero_add _).symm
    · rename_i q' job htake
      have hrest := ih (h.takeOne htake)
      rw [h.contentWork_takeOne htake, hrest, ← Nat.add_assoc, ← contentJobs_append]
      rfl

theorem Kept.contentWork_of_isIdle {q : Queue} {l : History} (h : q.Kept l) (hidle : q.isIdle = true) :
    q.contentWork = 0 := by
  have hnone : q.triggers = ∅ := SortedMap.eq_empty_of_not_contains fun p =>
    Bool.eq_false_iff.mpr fun hp => h.not_awaits_of_isIdle hidle p ((h.triggers_iff p).mp hp)
  rw [contentWork, hnone]
  rfl

theorem Kept.contentWork_schedule {q : Queue} {l : History} (h : q.Kept l) (workers : Nat)
    (paths : List Path) (promises : List (Path × List String)) :
    contentJobs (q.schedule workers paths promises .dependency).2 +
        (q.schedule workers paths promises .dependency).1.contentWork ≤ q.contentWork := by
  have hpromise := sameWork_foldl_promise q promises
  have hasked := (hpromise.kept h).foldl_invalidate paths .dependency
  have hle := contentWork_foldl_invalidate (promises.foldl (fun q p => q.promise p.1 p.2) q) paths
  have hsame : (promises.foldl (fun q p => q.promise p.1 p.2) q).contentWork = q.contentWork := by
    rw [contentWork, hpromise.triggers, contentWork]
  rw [schedule, takeReady, ← hasked.contentWork_takeMany, ← hsame]
  exact hle

/-- An analysis that is over asks for no file because of its text. -/
theorem Kept.contentWork_finish {q : Queue} {l : History} {path : Path} {left right : List Path}
    (h : q.Kept l) (hjobs : l.jobs = left ++ path :: right) (workers : Nat) (a : Analysis) :
    contentJobs (q.finish workers path (some a)).2 + (q.finish workers path (some a)).1.contentWork ≤
      q.contentWork := by
  have hkept := h.settleAnalysis hjobs a
  have hsettled : ((q.leave path).settleAnalysis path (q.rerun.contains path) a).contentWork ≤
      q.contentWork := by
    have hput : ((q.leave path).putDown path (q.rerun.contains path) a).contentWork = q.contentWork := by
      rw [contentWork, triggers_putDown]
      rfl
    rw [settleAnalysis_eq]
    exact Nat.le_trans (contentWork_foldl_invalidate _ _) (Nat.le_of_eq hput)
  generalize hq' : (q.leave path).settleAnalysis path (q.rerun.contains path) a = settled at hkept hsettled
  have hreport := sameWork_reportFile settled path
  have htaken := (hreport.kept hkept).contentWork_takeMany (workers - (settled.reportFile path).running)
  have hreported : (settled.reportFile path).contentWork = settled.contentWork := by
    rw [contentWork, hreport.triggers, contentWork]
  rw [finish_eq_settled]
  simp only [hq']
  rw [contentWork, triggers_closeIfIdle, ← contentWork, takeReady, ← htaken, hreported]
  exact hsettled

/-! ## Files that wait -/

/-- How many files wait or are flagged. -/
def backlog (q : Queue) : Nat := q.queue.length + q.rerun.size

theorem backlog_enqueue_le (q : Queue) (p : Path) : (q.enqueue p).backlog ≤ q.backlog + 1 := by
  rw [backlog, rerun_enqueue, backlog, enqueue]
  split
  · omega
  · rw [List.length_append, List.length_singleton]
    omega

theorem backlog_takeMany (n : Nat) (q : Queue) :
    (takeMany n q).2.length + (takeMany n q).1.backlog = q.backlog := by
  induction n generalizing q with
  | zero => exact Nat.zero_add _
  | succ n ih =>
    rw [takeMany]
    split
    · exact Nat.zero_add _
    · rename_i q' job htake
      obtain ⟨rest, hqueue, -, hqueue', -, -, -, -, hrerun, -⟩ := takeOne_eq_some htake
      have hrest := ih q'
      simp only [backlog, hqueue, hqueue', hrerun, List.length_cons] at hrest ⊢
      omega

theorem backlog_putDown_le (q : Queue) (path : Path) (a : Analysis) :
    ((q.leave path).putDown path (q.rerun.contains path) a).backlog ≤ q.backlog := by
  rw [putDown]
  split
  next hagain =>
    have hsize := SortedMap.size_erase_of_contains hagain
    have hbacklog : ((q.leave path).setPhase path .stale).backlog + 1 = q.backlog := by
      simp only [backlog, leave, setPhase]
      omega
    exact Nat.le_trans (backlog_enqueue_le _ path) (Nat.le_of_eq hbacklog)
  next =>
    have hbacklog : (q.leave path).backlog ≤ q.backlog :=
      Nat.add_le_add_left (q.rerun.size_erase_le path) q.queue.length
    split <;> exact hbacklog

theorem backlog_finish_le {path : Path} {a : Analysis} (hasked : asked path a = []) (q : Queue)
    (workers : Nat) :
    (q.finish workers path (some a)).2.length + (q.finish workers path (some a)).1.backlog ≤ q.backlog := by
  have hsettled : ((q.leave path).settleAnalysis path (q.rerun.contains path) a).backlog ≤ q.backlog := by
    rw [settleAnalysis_eq, hasked]
    exact backlog_putDown_le q path a
  generalize hq' : (q.leave path).settleAnalysis path (q.rerun.contains path) a = settled at hsettled
  have hreport := sameWork_reportFile settled path
  have htaken := backlog_takeMany (workers - (settled.reportFile path).running) (settled.reportFile path)
  obtain ⟨-, hqueue, -, hrerun, -⟩ := closeIfIdle_places ((settled.reportFile path).takeReady workers).1
  have hreported : (settled.reportFile path).backlog = settled.backlog := by
    rw [backlog, hreport.queue, hreport.rerun, backlog]
  have hclosed : ((settled.reportFile path).takeReady workers).1.closeIfIdle.backlog =
      ((settled.reportFile path).takeReady workers).1.backlog := by
    rw [backlog, hqueue, hrerun, backlog]
  rw [finish_eq_settled]
  simp only [hq']
  rw [hclosed, takeReady, htaken, hreported]
  exact hsettled

/-! ## Files handed out -/

theorem History.jobs_handAll (l : History) (jobs : List (Path × Trigger)) :
    (l.handAll jobs).jobs.Perm (jobs.map (·.1) ++ l.jobs) := by
  induction jobs generalizing l with
  | nil => exact .refl _
  | cons job jobs ih => exact (ih (l.hand job)).trans List.perm_middle

theorem Runs.isIdle_of_jobs {q : Queue} {l : History} {workers : Nat} (h : q.Runs l workers)
    (hpos : 0 < workers) (hjobs : l.jobs = []) : q.isIdle = true := by
  have hrunning : q.running = 0 := by
    rw [h.kept.placed.running_eq, hjobs]
    rfl
  have hqueue : q.queue = [] := h.full.resolve_right (by omega)
  rw [isIdle, hqueue, hrunning]
  rfl

/-- At rest a file asked for is handed to a worker at once, and nothing else is left. -/
theorem schedule_single {q : Queue} {l : History} (h : q.Kept l) (hidle : q.isIdle = true)
    {workers : Nat} (hpos : 0 < workers) (p : Path) (promises : List (Path × List String))
    (t : Trigger) :
    (q.schedule workers [p] promises t).2 = [(p, t)] ∧
      (q.schedule workers [p] promises t).1.triggers = ∅ := by
  have hsame := sameWork_foldl_promise q promises
  have hschedule : q.schedule workers [p] promises t =
      (promises.foldl (fun q p => q.promise p.1 p.2) q).schedule workers [p] [] t := rfl
  replace h := hsame.kept h
  replace hidle : (promises.foldl (fun q p => q.promise p.1 p.2) q).isIdle = true := by
    rw [isIdle, hsame.queue, hsame.running]
    exact hidle
  rw [hschedule]
  generalize promises.foldl (fun q p => q.promise p.1 p.2) q = q at h hidle
  obtain ⟨hjobs, hawaits⟩ := h.placed.of_isIdle hidle
  have hphase : (q.raiseTrigger p t).phases.get? p ≠ some .analyzing := by
    intro hphase
    have hjob := (h.placed.analyzing_iff p).mp hphase
    rw [hjobs] at hjob
    exact Path.not_oneOf_nil p hjob
  have htriggers (x : Path) : q.triggers.get? x = none := by
    rw [SortedMap.get?_eq_none_iff, ← Bool.not_eq_true]
    exact fun hx => hawaits x ((h.triggers_iff x).mp hx)
  have hqueued : ((q.raiseTrigger p t).setPhase p .stale).queued.contains p = false :=
    Bool.eq_false_iff.mpr fun hp => hawaits p (Or.inl hp)
  rw [isIdle, Bool.and_eq_true, List.isEmpty_iff, beq_iff_eq] at hidle
  have hasked : q.invalidate p t =
      { (q.raiseTrigger p t).setPhase p .stale with
        queue := [p]
        queued := q.queued.insert p () } := by
    rw [invalidate, if_neg hphase, enqueue_of_not_queued hqueued]
    simp [setPhase, raiseTrigger, hidle.1]
  have hqueue : (q.invalidate p t).queue = [p] := by rw [hasked]
  have hrunning : (q.invalidate p t).running = 0 := by rw [hasked]; exact hidle.2
  obtain ⟨n, rfl⟩ : ∃ n, workers = n + 1 := ⟨workers - 1, by omega⟩
  have htaken : q.schedule (n + 1) [p] [] t = takeMany (n + 1) (q.invalidate p t) := by
    rw [schedule, List.foldl_nil, List.foldl_cons, List.foldl_nil, takeReady, hrunning, Nat.sub_zero]
  rw [htaken, takeMany]
  cases htake : (q.invalidate p t).takeOne with
  | none => simp [takeOne, hqueue] at htake
  | some taken =>
    obtain ⟨q', job⟩ := taken
    obtain ⟨rest, hfirst, hjob, hrest, -, htriggers', -⟩ := takeOne_eq_some htake
    obtain ⟨rfl, rfl⟩ := List.cons.inj (hqueue.symm.trans hfirst)
    simp only [takeMany_of_nil hrest]
    have hraised : (q.invalidate job.1 t).triggers.get? job.1 = some t := by
      rw [triggers_invalidate, raiseTrigger, SortedMap.get?_alter, if_pos ReflCmp.compare_self, htriggers]
      cases t <;> rfl
    refine ⟨by rw [← Prod.eta job, hjob, hraised, Option.getD_some], ?_⟩
    refine SortedMap.eq_empty_of_not_contains fun x => ?_
    rw [← SortedMap.get?_eq_none_iff, htriggers', SortedMap.get?_erase, triggers_invalidate,
      raiseTrigger, SortedMap.get?_alter]
    split
    · rfl
    · exact htriggers x

end Queue

end JavaAtlas
