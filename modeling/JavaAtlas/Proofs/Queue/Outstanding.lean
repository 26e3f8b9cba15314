import JavaAtlas.Proofs.Queue.Workload

/-!
# Promises that stand

Beside the history it is noted which of the analyses under way have kept their promise. A promise is
made together with a request for its file, and until an analysis of the file keeps it or breaks off
the request is unanswered or the analysis under way. So a type is counted as promised only as long as
a file that promises it waits or is being analyzed, and at rest nothing is promised.
-/

namespace JavaAtlas

set_option autoImplicit false

open Std (TransCmp OrientedCmp ReflCmp)

namespace Queue

/-- A queue after some operations in any order, with the files whose analysis under way has kept its
promise. Files are promised for only when they are asked for, and an analysis that is not broken off
keeps its promise before it ends. -/
inductive Worked (workers : Nat) : Queue → History → List Path → Prop
  | start : Worked workers {} {} []
  | schedule {q : Queue} {l : History} {kept : List Path} (h : Worked workers q l kept)
    (paths : List Path) (promises : List (Path × List String))
    (hasked : ∀ p ∈ promises, p.1.OneOf paths) (t : Trigger) :
    Worked workers (q.schedule workers paths promises t).1
      ((l.ask paths t).handAll (q.schedule workers paths promises t).2) kept
  | take {q : Queue} {l : History} {kept : List Path} (h : Worked workers q l kept) :
    Worked workers (q.takeReady workers).1 (l.handAll (q.takeReady workers).2) kept
  | keep {q : Queue} {l : History} {kept : List Path} (h : Worked workers q l kept) {path : Path}
    (hjob : path ∈ l.jobs) : Worked workers (q.release path).1 l (path :: kept)
  | finish {q : Queue} {l : History} {kept : List Path} (h : Worked workers q l kept) {path : Path}
    {left right : List Path} (hjobs : l.jobs = left ++ path :: right) (outcome : Option Analysis)
    (hkept : outcome ≠ none → path.OneOf kept) :
    Worked workers (q.finish workers path outcome).1
      (((l.withJobs (left ++ right)).ask (askedBy path outcome) .dependency).handAll
        (q.finish workers path outcome).2)
      (kept.filter fun p => compare p path != .eq)

theorem Worked.reached {workers : Nat} {q : Queue} {l : History} {kept : List Path}
    (h : Worked workers q l kept) : Reached workers q l := by
  induction h with
  | start => exact .start
  | schedule _ paths promises _ t ih => exact ih.schedule paths promises t
  | take _ ih => exact ih.take
  | keep _ _ ih => exact ih.keep _
  | finish _ hjobs outcome _ ih => exact ih.finish hjobs outcome

/-! ## Requests -/

/-- The file was asked for since it was last handed out. -/
def History.Requested (l : History) (x : Path) : Prop := x.OneOf (l.requests.map (·.1))

theorem History.requested_ask_iff (l : History) (paths : List Path) (t : Trigger) (x : Path) :
    (l.ask paths t).Requested x ↔ l.Requested x ∨ x.OneOf paths := by
  have hpaths : (paths.map fun p => (p, t)).map (·.1) = paths := by
    rw [List.map_map]
    exact List.map_id paths
  unfold Requested ask
  rw [List.map_append, hpaths, Path.oneOf_append_iff]

theorem History.requested_hand {l : History} {x : Path} (h : l.Requested x) (job : Path × Trigger) :
    (l.hand job).Requested x ∨ compare x job.1 = .eq := by
  by_cases hjob : compare x job.1 = .eq
  · exact Or.inr hjob
  · obtain ⟨p, hp, hc⟩ := h
    obtain ⟨r, hr, rfl⟩ := List.mem_map.mp hp
    refine Or.inl ⟨r.1, List.mem_map.mpr ⟨r, List.mem_filter.mpr ⟨hr, ?_⟩, rfl⟩, hc⟩
    rw [bne_iff_ne]
    intro hr
    exact hjob (TransCmp.eq_trans hc (OrientedCmp.eq_symm hr))

theorem History.requested_handAll {l : History} {x : Path} (h : l.Requested x)
    (jobs : List (Path × Trigger)) :
    (l.handAll jobs).Requested x ∨ x.OneOf (jobs.map (·.1)) := by
  induction jobs generalizing l with
  | nil => exact Or.inl h
  | cons job jobs ih =>
    rw [List.map_cons, Path.oneOf_cons_iff]
    rcases History.requested_hand h job with hx | hx
    · exact (ih hx).imp_right Or.inr
    · exact Or.inr (Or.inl hx)

theorem Kept.awaits_of_requested {q : Queue} {l : History} (h : q.Kept l) {x : Path}
    (hx : l.Requested x) : q.Awaits x := by
  rw [← h.triggers_iff, SortedMap.contains_eq_isSome_get?, h.requests, isSome_strongest?,
    History.requestsFor, ne_eq, List.map_eq_nil_iff, List.filter_eq_nil_iff]
  intro hnone
  obtain ⟨p, hp, hc⟩ := hx
  obtain ⟨r, hr, rfl⟩ := List.mem_map.mp hp
  exact hnone r hr (beq_iff_eq.mpr hc)

/-! ## Where a promise stands -/

/-- What a promise waits for: its file is asked for, or is being analyzed and has not kept it. -/
structure Outstanding (q : Queue) (l : History) (kept : List Path) : Prop where
  counted : q.Counted
  job_of_kept : ∀ x : Path, x.OneOf kept → x.OneOf l.jobs
  owed : ∀ x, q.promises.contains x = true → l.Requested x ∨ (x.OneOf l.jobs ∧ ¬ x.OneOf kept)

namespace Outstanding

variable {q q' : Queue} {l : History} {kept : List Path}

theorem ask (h : q.Outstanding l kept) (paths : List Path) (t : Trigger) :
    q.Outstanding (l.ask paths t) kept where
  counted := h.counted
  job_of_kept := h.job_of_kept
  owed x hx := (h.owed x hx).imp_left fun hreq => (l.requested_ask_iff paths t x).mpr (Or.inl hreq)

/-- A file handed out is none that is being analyzed already, so it has kept no promise. -/
theorem handAll (h : q.Outstanding l kept) {jobs : List (Path × Trigger)}
    (hdistinct : (l.handAll jobs).jobs.Pairwise fun a b => compare a b ≠ .eq) :
    q.Outstanding (l.handAll jobs) kept := by
  have hperm := l.jobs_handAll jobs
  have hjobs (x : Path) : x.OneOf (l.handAll jobs).jobs ↔ x.OneOf (jobs.map (·.1)) ∨ x.OneOf l.jobs := by
    rw [Path.oneOf_perm hperm, Path.oneOf_append_iff]
  have happart : ∀ a ∈ jobs.map (·.1), ∀ b ∈ l.jobs, compare a b ≠ .eq := by
    have hpairwise := (hperm.pairwise_iff fun hne hc => hne (OrientedCmp.eq_symm hc)).mp hdistinct
    exact (List.pairwise_append.mp hpairwise).2.2
  constructor
  case counted => exact h.counted
  case job_of_kept =>
    intro x hx
    exact (hjobs x).mpr (Or.inr (h.job_of_kept x hx))
  case owed =>
    intro x hx
    rcases h.owed x hx with hreq | ⟨hjob, hnot⟩
    · rcases History.requested_handAll hreq jobs with hreq | hhanded
      · exact Or.inl hreq
      · refine Or.inr ⟨(hjobs x).mpr (Or.inl hhanded), ?_⟩
        intro hkept
        obtain ⟨a, ha, hxa⟩ := hhanded
        obtain ⟨b, hb, hxb⟩ := h.job_of_kept x hkept
        exact happart a ha b hb (TransCmp.eq_trans (OrientedCmp.eq_symm hxa) hxb)
    · exact Or.inr ⟨(hjobs x).mpr (Or.inr hjob), hnot⟩

theorem of_same (h : q.Outstanding l kept) (hsame : SamePromises q q') : q'.Outstanding l kept where
  counted := hsame.counted h.counted
  job_of_kept := h.job_of_kept
  owed := by
    rw [hsame.promises]
    exact h.owed

/-- Promises are made for files that are asked for at the same time. -/
theorem foldl_promise (h : q.Outstanding l kept) {paths : List Path}
    {promises : List (Path × List String)} (hasked : ∀ p ∈ promises, p.1.OneOf paths) (t : Trigger) :
    (promises.foldl (fun q p => q.promise p.1 p.2) q).Outstanding (l.ask paths t) kept where
  counted := counted_foldl_promise h.counted promises
  job_of_kept := h.job_of_kept
  owed x hx := by
    rcases contains_promises_foldl hx with hx | ⟨p, hp, hc⟩
    · exact (h.ask paths t).owed x hx
    · obtain ⟨e, he, rfl⟩ := List.mem_map.mp hp
      exact Or.inl ((l.requested_ask_iff paths t x).mpr
        (Or.inr ((Path.oneOf_congr hc paths).mpr (hasked e he))))

theorem contains_release {path x : Path} (hx : (q.release path).1.promises.contains x = true) :
    compare x path ≠ .eq ∧ q.promises.contains x = true := by
  simpa [release, SortedMap.contains_erase] using hx

theorem keep (h : q.Outstanding l kept) {path : Path} (hjob : path ∈ l.jobs) :
    (q.release path).1.Outstanding l (path :: kept) where
  counted := h.counted.release path
  job_of_kept x hx := by
    rcases (Path.oneOf_cons_iff x path kept).mp hx with hc | hx
    · exact (Path.oneOf_congr hc l.jobs).mpr (Path.oneOf_of_mem hjob)
    · exact h.job_of_kept x hx
  owed x hx := by
    obtain ⟨hne, hx⟩ := contains_release hx
    refine (h.owed x hx).imp_right fun hjob => ⟨hjob.1, ?_⟩
    rw [Path.oneOf_cons_iff]
    exact not_or.mpr ⟨hne, hjob.2⟩

/-- The analysis of `path` is over. A promise made for the file since it kept the last one came with a
request, which is still open. -/
theorem withJobs (h : q.Outstanding l kept) {path : Path} {left right : List Path}
    (hjobs : l.jobs = left ++ path :: right)
    (hkept : q.promises.contains path = true → path.OneOf kept) :
    q.Outstanding (l.withJobs (left ++ right)) (kept.filter fun p => compare p path != .eq) := by
  have hfilter (x : Path) : x.OneOf (kept.filter fun p => compare p path != .eq) ↔
      x.OneOf kept ∧ compare x path ≠ .eq := by
    constructor
    · rintro ⟨p, hp, hc⟩
      obtain ⟨hp, hne⟩ := List.mem_filter.mp hp
      refine ⟨⟨p, hp, hc⟩, fun heq => ?_⟩
      exact bne_iff_ne.mp hne (TransCmp.eq_trans (OrientedCmp.eq_symm hc) heq)
    · rintro ⟨⟨p, hp, hc⟩, hne⟩
      refine ⟨p, List.mem_filter.mpr ⟨hp, bne_iff_ne.mpr fun heq => ?_⟩, hc⟩
      exact hne (TransCmp.eq_trans hc heq)
  have hother {x : Path} (hx : x.OneOf l.jobs) (hne : compare x path ≠ .eq) :
      x.OneOf (left ++ right) := by
    rw [hjobs, Path.oneOf_perm List.perm_middle, Path.oneOf_cons_iff] at hx
    exact hx.resolve_left hne
  constructor
  case counted => exact h.counted
  case job_of_kept =>
    intro x hx
    obtain ⟨hx, hne⟩ := (hfilter x).mp hx
    exact hother (h.job_of_kept x hx) hne
  case owed =>
    intro x hx
    rcases h.owed x hx with hreq | ⟨hjob, hnot⟩
    · exact Or.inl hreq
    · refine Or.inr ⟨hother hjob ?_, fun hx => hnot ((hfilter x).mp hx).1⟩
      intro hc
      rw [SortedMap.contains_congr _ hc] at hx
      exact hnot ((Path.oneOf_congr hc kept).mpr (hkept hx))

end Outstanding

/-- An analysis that breaks off takes the promise of its file back. -/
theorem samePromises_finish_none (q : Queue) (workers : Nat) (path : Path) :
    SamePromises (q.release path).1 (q.finish workers path none).1 := by
  have hsettle : SamePromises (q.release path).1
      ((q.leave path).settleFailure path (q.rerun.contains path)) := by
    unfold settleFailure
    dsimp only
    split
    · exact ⟨promises_enqueue _ _, promised_enqueue _ _⟩
    · exact ⟨rfl, rfl⟩
  rw [finish_eq_settled]
  exact ((hsettle.trans (samePromises_reportFile _ path)).trans (samePromises_takeMany _ _)).trans
    (samePromises_closeIfIdle _)

theorem outstanding_of_worked {workers : Nat} {q : Queue} {l : History} {kept : List Path}
    (h : Worked workers q l kept) : q.Outstanding l kept := by
  have hdistinct {q : Queue} {l : History} {kept : List Path} (h : Worked workers q l kept) :=
    (runs_of_reached h.reached).kept.placed.jobs_distinct
  induction h with
  | start =>
    constructor
    case counted => exact fun t => rfl
    case job_of_kept => exact fun x hx => absurd hx (Path.not_oneOf_nil x)
    case owed =>
      intro x hx
      exact absurd hx (SortedMap.not_contains_empty x)
  | @schedule q l kept h paths promises hasked t ih =>
    have hsame := samePromises_schedule q workers paths promises t
    exact ((ih.foldl_promise hasked t).of_same hsame).handAll
      (hdistinct (h.schedule paths promises hasked t))
  | @take q l kept h ih =>
    exact (ih.of_same (samePromises_takeMany _ q)).handAll (hdistinct h.take)
  | keep _ hjob ih => exact ih.keep hjob
  | @finish q l kept h path left right hjobs outcome hkept ih =>
    have hhanded := hdistinct (h.finish hjobs outcome hkept)
    cases outcome with
    | some a =>
      have hover := ih.withJobs hjobs fun _ => hkept (by simp)
      exact ((hover.of_same (samePromises_finish q workers path a)).ask _ _).handAll hhanded
    | none =>
      -- taking the promise back is what keeping it does
      have hjob : path ∈ l.jobs := by
        rw [hjobs]
        exact List.mem_append_right _ List.mem_cons_self
      have hover := (ih.keep hjob).withJobs hjobs fun _ => Path.oneOf_of_mem List.mem_cons_self
      rw [List.filter_cons_of_neg (by simp)] at hover
      exact ((hover.of_same (samePromises_finish_none q workers path)).ask _ _).handAll hhanded

/-! ## Exact counts -/

/-- Each count taken down while a promise is taken back is there and positive. -/
theorem Counted.exists_pos {q : Queue} (h : q.Counted) {path : Path} {fqn : String}
    {before after : List String} (htypes : (q.release path).2 = before ++ fqn :: after) :
    ∃ n, (before.foldl uncountPromise q.promised).get? fqn = some (n + 1) := by
  have hcount := (pledged_release q path).count_eq fqn
  rw [htypes, List.count_append, List.count_append, List.count_cons_self] at hcount
  rw [get?_foldl_uncountPromise (h fqn), tally, if_neg (by omega)]
  exact ⟨_, congrArg some (Nat.succ_pred_eq_of_pos (by omega)).symm⟩

def Vouched (q : Queue) (t : String) : Prop :=
  ∃ p types, q.promises.get? p = some types ∧ t ∈ types ∧
    (q.queued.contains p = true ∨ q.phases.get? p = some .analyzing)

/-- A type is counted as often as it is promised, and promises stand only for files that wait or are
being analyzed. -/
structure PromisesExact (q : Queue) : Prop where
  counts : ∀ t, q.promised.get? t =
    if q.pledged.count t = 0 then none else some (q.pledged.count t)
  positive : ∀ (promises : List (Path × List String)) (path : Path) (before : List String)
    (fqn : String) (after : List String),
    ((promises.foldl (fun q p => q.promise p.1 p.2) q).release path).2 = before ++ fqn :: after →
    ∃ n, (before.foldl uncountPromise
      (promises.foldl (fun q p => q.promise p.1 p.2) q).promised).get? fqn = some (n + 1)
  placed : ∀ p, q.promises.contains p = true →
    q.queued.contains p = true ∨ q.phases.get? p = some .analyzing
  idle : q.isIdle = true → q.promises = ∅ ∧ q.promised = ∅

theorem promisesExact_of_worked {workers : Nat} {q : Queue} {l : History} {kept : List Path}
    (h : Worked workers q l kept) : q.PromisesExact := by
  have hout := outstanding_of_worked h
  have hkept := (runs_of_reached h.reached).kept
  have hplaced : ∀ p, q.promises.contains p = true →
      q.queued.contains p = true ∨ q.phases.get? p = some .analyzing := by
    intro p hp
    have hanalyzing := hkept.placed.analyzing_iff p
    rcases hout.owed p hp with hreq | ⟨hjob, -⟩
    · exact (hkept.awaits_of_requested hreq).imp_right fun hr =>
        hanalyzing.mpr (hkept.placed.rerun_job p hr)
    · exact Or.inr (hanalyzing.mpr hjob)
  constructor
  case counts => exact hout.counted
  case positive =>
    intro promises path before fqn after htypes
    exact (counted_foldl_promise hout.counted promises).exists_pos htypes
  case placed => exact hplaced
  case idle =>
    intro hidle
    obtain ⟨hjobs, hawaits⟩ := hkept.placed.of_isIdle hidle
    have hpromises : q.promises = ∅ := by
      apply SortedMap.eq_empty_of_not_contains
      intro p
      rw [← Bool.not_eq_true]
      intro hp
      rcases hplaced p hp with hqueued | hphase
      · exact hawaits p (Or.inl hqueued)
      · rw [hkept.placed.analyzing_iff, hjobs] at hphase
        exact Path.not_oneOf_nil p hphase
    refine ⟨hpromises, SortedMap.eq_empty_of_not_contains fun t => ?_⟩
    rw [← Bool.not_eq_true, hout.counted.contains_iff, pledged, hpromises]
    exact List.not_mem_nil

theorem PromisesExact.vouched {q : Queue} (h : q.PromisesExact) {t : String}
    (ht : q.promised.contains t = true) : q.Vouched t := by
  have hcounted : q.Counted := h.counts
  obtain ⟨e, he, hmem⟩ := List.mem_flatMap.mp ((hcounted.contains_iff t).mp ht)
  have hget := SortedMap.get?_of_mem he
  exact ⟨e.1, e.2, hget, hmem, h.placed e.1 (SortedMap.contains_iff_exists_get?.mpr ⟨e.2, hget⟩)⟩

end Queue

end JavaAtlas
