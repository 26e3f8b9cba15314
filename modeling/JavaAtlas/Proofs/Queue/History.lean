import JavaAtlas.Proofs.Queue.Promises
import Mathlib.Data.List.Induction

/-!
# What a queue is asked and what it hands out

A history is kept beside the queue: the files handed out, the requests for each file since it was
last handed out, and the callbacks. Main statement: after any operations in any order, analyses that
broke off included, the collections of the queue fit together, each file was handed out for the
strongest of the requests that it answers, and a queue at rest holds nothing back.
-/

namespace JavaAtlas

set_option autoImplicit false

open Std (TransCmp OrientedCmp ReflCmp)

/-- The trigger is the strongest of some. -/
def Trigger.Strongest (t : Trigger) (ts : List Trigger) : Prop := t ∈ ts ∧ ∀ s ∈ ts, s.max t = t

namespace Path

/-- Of two lists without repetitions the one that holds more files is longer. -/
theorem length_le_of_oneOf {l l' : List Path} (hl : l.Pairwise fun a b => compare a b ≠ .eq)
    (h : ∀ p : Path, p.OneOf l → p.OneOf l') : l.length ≤ l'.length := by
  induction l generalizing l' with
  | nil => exact Nat.zero_le _
  | cons p l ih =>
    obtain ⟨x, hx, hc⟩ := h p (oneOf_of_mem List.mem_cons_self)
    obtain ⟨left, right, rfl⟩ := List.append_of_mem hx
    have hrest : l.length ≤ (left ++ right).length := by
      refine ih (List.pairwise_cons.mp hl).2 fun y hy => ?_
      have hne : compare y x ≠ .eq := fun hyx => not_oneOf_of_pairwise hl
        ((oneOf_congr (TransCmp.eq_trans hc (OrientedCmp.eq_symm hyx)) l).mpr hy)
      have hone := (oneOf_perm List.perm_middle y).mp (h y ((oneOf_cons_iff y p l).mpr (Or.inr hy)))
      exact ((oneOf_cons_iff y x _).mp hone).resolve_left hne
    simp only [List.length_append, List.length_cons] at hrest ⊢
    omega

theorem eq_of_spelling {l l' : List Path} (h : l.map (·.spelling) = l'.map (·.spelling)) : l = l' :=
  List.map_injective_iff.mpr (fun _ _ h => congrArg Path.mk h) h

end Path

namespace Queue

structure History where
  /-- The files that were handed out and whose analysis is not over. -/
  jobs : List Path := []
  /-- The requests that no analysis was begun for yet. -/
  requests : List (Path × Trigger) := []
  /-- The files handed out, each with its trigger and with the requests it answers. -/
  handed : List (Path × Trigger × List Trigger) := []
  callbacks : List Nat := []

namespace History

/-- The requests for a file since it was last handed out. -/
def requestsFor (l : History) (p : Path) : List Trigger :=
  (l.requests.filter fun r => compare p r.1 == .eq).map (·.2)

def ask (l : History) (paths : List Path) (t : Trigger) : History :=
  { l with requests := l.requests ++ paths.map fun p => (p, t) }

def hand (l : History) (job : Path × Trigger) : History :=
  { l with
    jobs := job.1 :: l.jobs
    requests := l.requests.filter fun r => compare job.1 r.1 != .eq
    handed := l.handed ++ [(job.1, job.2, l.requestsFor job.1)] }

def handAll (l : History) (jobs : List (Path × Trigger)) : History := jobs.foldl hand l

def withJobs (l : History) (jobs : List Path) : History := { l with jobs := jobs }

def give (l : History) (callback : Nat) : History := { l with callbacks := l.callbacks ++ [callback] }

theorem requestsFor_ask (l : History) (p x : Path) (t : Trigger) :
    (l.ask [p] t).requestsFor x = l.requestsFor x ++ if compare x p = .eq then [t] else [] := by
  rw [requestsFor, ask, List.filter_append, List.map_append, requestsFor]
  by_cases hc : compare x p = .eq <;> simp [hc]

theorem requestsFor_hand (l : History) (job : Path × Trigger) (x : Path) :
    (l.hand job).requestsFor x = if compare x job.1 = .eq then [] else l.requestsFor x := by
  rw [requestsFor, hand, List.filter_filter]
  split
  next hc =>
    rw [List.map_eq_nil_iff, List.filter_eq_nil_iff]
    intro r _
    simp [TransCmp.congr_left hc]
  next hc =>
    rw [requestsFor]
    congr 1
    apply List.filter_congr
    intro r _
    by_cases hr : compare x r.1 = .eq
    · have hne : compare job.1 r.1 ≠ .eq := fun hj =>
        hc (TransCmp.eq_trans hr (OrientedCmp.eq_symm hj))
      simp [hr, hne]
    · simp [hr]

theorem ask_cons (l : History) (p : Path) (paths : List Path) (t : Trigger) :
    l.ask (p :: paths) t = (l.ask [p] t).ask paths t := by
  simp [ask]

end History

/-- The files an analysis that came to an end asks for; one that broke off asks for nothing. -/
def askedBy (path : Path) : Option Analysis → List Path
  | some a => asked path a
  | none => []

/-- A queue after some operations in any order, where an analysis ends once, after its file was
handed out, with any result or with none. -/
inductive Reached (workers : Nat) : Queue → History → Prop
  | start : Reached workers {} {}
  | schedule {q : Queue} {l : History} (h : Reached workers q l) (paths : List Path)
    (promises : List (Path × List String)) (t : Trigger) :
    Reached workers (q.schedule workers paths promises t).1
      ((l.ask paths t).handAll (q.schedule workers paths promises t).2)
  | take {q : Queue} {l : History} (h : Reached workers q l) :
    Reached workers (q.takeReady workers).1 (l.handAll (q.takeReady workers).2)
  | keep {q : Queue} {l : History} (h : Reached workers q l) (path : Path) :
    Reached workers (q.release path).1 l
  | finish {q : Queue} {l : History} (h : Reached workers q l) {path : Path} {left right : List Path}
    (hjobs : l.jobs = left ++ path :: right) (outcome : Option Analysis) :
    Reached workers (q.finish workers path outcome).1
      (((l.withJobs (left ++ right)).ask (askedBy path outcome) .dependency).handAll
        (q.finish workers path outcome).2)
  | smart {q : Queue} {l : History} (h : Reached workers q l) (callback : Nat) :
    Reached workers (q.runWhenSmart callback) (l.give callback)

/-! ## The strongest of several triggers -/

/-- The triggers raised one after another, as the queue keeps them. -/
def strongest? (ts : List Trigger) : Option Trigger :=
  ts.foldl (fun s t => some ((s.getD t).max t)) none

theorem strongest?_append (ts : List Trigger) (t : Trigger) :
    strongest? (ts ++ [t]) = some (((strongest? ts).getD t).max t) := by
  simp [strongest?]

theorem strongest_append {ts : List Trigger} {r : Trigger} (h : r.Strongest ts) (t : Trigger) :
    (r.max t).Strongest (ts ++ [t]) := by
  have hone : r.max t = r ∨ r.max t = t := by cases r <;> simp [Trigger.max]
  have hold (s : Trigger) : s.max r = r → s.max (r.max t) = r.max t := by
    cases s <;> cases r <;> cases t <;> decide
  have hnew : t.max (r.max t) = r.max t := by cases r <;> cases t <;> rfl
  refine ⟨List.mem_append.mpr ?_, fun s hs => ?_⟩
  · rw [List.mem_singleton]
    refine hone.imp_left fun heq => ?_
    rw [heq]
    exact h.1
  rcases List.mem_append.mp hs with hs | hs
  · exact hold s (h.2 s hs)
  · rw [List.mem_singleton.mp hs]
    exact hnew

theorem strongest?_eq_some {ts : List Trigger} {t : Trigger} (h : strongest? ts = some t) :
    t.Strongest ts := by
  induction ts using List.reverseRecOn generalizing t with
  | nil => simp [strongest?] at h
  | append_singleton ts s ih =>
    rw [strongest?_append] at h
    obtain rfl := Option.some.inj h
    cases hrest : strongest? ts with
    | some r => exact strongest_append (ih hrest) s
    | none =>
      have hnil : ts = [] := by
        cases ts using List.reverseRecOn with
        | nil => rfl
        | append_singleton ts s => simp [strongest?_append] at hrest
      subst hnil
      cases s <;> simp [Trigger.Strongest, Trigger.max]

theorem isSome_strongest? {ts : List Trigger} : (strongest? ts).isSome = true ↔ ts ≠ [] := by
  cases ts using List.reverseRecOn with
  | nil => simp [strongest?]
  | append_singleton ts s => simp [strongest?_append]

/-! ## The invariant -/

structure Kept (q : Queue) (l : History) : Prop where
  placed : q.Placed l.jobs
  triggers_iff : ∀ p, q.triggers.contains p = true ↔ q.Awaits p
  requests : ∀ p, q.triggers.get? p = strongest? (l.requestsFor p)
  handed : ∀ x ∈ l.handed, x.2.1.Strongest x.2.2
  callbacks : q.called ++ q.waiting = l.callbacks

/-- Only what promises and reports touch has changed. -/
structure SameWork (q q' : Queue) : Prop where
  phases : q'.phases = q.phases
  queue : q'.queue = q.queue
  queued : q'.queued = q.queued
  rerun : q'.rerun = q.rerun
  running : q'.running = q.running
  triggers : q'.triggers = q.triggers
  called : q'.called = q.called
  waiting : q'.waiting = q.waiting
  session : q'.session = q.session
  currentPath : q'.currentPath = q.currentPath

namespace SameWork

variable {a b c : Queue}

theorem refl (q : Queue) : SameWork q q := ⟨rfl, rfl, rfl, rfl, rfl, rfl, rfl, rfl, rfl, rfl⟩

theorem trans (h : SameWork a b) (h' : SameWork b c) : SameWork a c :=
  ⟨h'.phases.trans h.phases, h'.queue.trans h.queue, h'.queued.trans h.queued,
    h'.rerun.trans h.rerun, h'.running.trans h.running, h'.triggers.trans h.triggers,
    h'.called.trans h.called, h'.waiting.trans h.waiting, h'.session.trans h.session,
    h'.currentPath.trans h.currentPath⟩

theorem isIdle (h : SameWork a b) : b.isIdle = a.isIdle := by
  rw [Queue.isIdle, h.queue, h.running, Queue.isIdle]

theorem kept {l : History} (h : SameWork a b) (hkept : a.Kept l) : b.Kept l where
  placed := hkept.placed.of_eq h.phases h.queue h.queued h.rerun h.running
  triggers_iff p := by
    rw [Awaits, h.triggers, h.queued, h.rerun]
    exact hkept.triggers_iff p
  requests p := by
    rw [h.triggers]
    exact hkept.requests p
  handed := hkept.handed
  callbacks := by
    rw [h.called, h.waiting]
    exact hkept.callbacks

end SameWork

theorem sameWork_release (q : Queue) (path : Path) : SameWork q (q.release path).1 :=
  ⟨rfl, rfl, rfl, rfl, rfl, rfl, rfl, rfl, rfl, rfl⟩

theorem sameWork_foldl_promise (q : Queue) (promises : List (Path × List String)) :
    SameWork q (promises.foldl (fun q p => q.promise p.1 p.2) q) := by
  induction promises generalizing q with
  | nil => exact .refl q
  | cons p promises ih =>
    have hone : SameWork q (q.promise p.1 p.2) := ⟨rfl, rfl, rfl, rfl, rfl, rfl, rfl, rfl, rfl, rfl⟩
    exact hone.trans (ih _)

theorem sameWork_reportFile (q : Queue) (path : Path) : SameWork q (q.reportFile path) := by
  rw [reportFile]
  split <;> exact ⟨rfl, rfl, rfl, rfl, rfl, rfl, rfl, rfl, rfl, rfl⟩

theorem Kept.not_awaits_of_isIdle {q : Queue} {l : History} (h : q.Kept l) (hidle : q.isIdle = true)
    (p : Path) : ¬ q.Awaits p := (h.placed.of_isIdle hidle).2 p

/-! ## Asking -/

theorem callbacks_enqueue (q : Queue) (p : Path) :
    (q.enqueue p).called = q.called ∧ (q.enqueue p).waiting = q.waiting := by
  rw [enqueue]
  split <;> exact ⟨rfl, rfl⟩

theorem callbacks_invalidate (q : Queue) (p : Path) (t : Trigger) :
    (q.invalidate p t).called = q.called ∧ (q.invalidate p t).waiting = q.waiting := by
  rw [invalidate]
  split
  · exact ⟨rfl, rfl⟩
  · exact callbacks_enqueue _ p

theorem Kept.invalidate {q : Queue} {l : History} (h : q.Kept l) (p : Path) (t : Trigger) :
    (q.invalidate p t).Kept (l.ask [p] t) where
  placed := h.placed.invalidate p t
  triggers_iff x := by
    rw [awaits_invalidate_iff, triggers_invalidate, raiseTrigger, SortedMap.contains_eq_isSome_get?,
      SortedMap.get?_alter, ← h.triggers_iff, SortedMap.contains_eq_isSome_get?]
    by_cases hc : compare x p = .eq <;> simp [hc]
  requests x := by
    rw [triggers_invalidate, raiseTrigger, SortedMap.get?_alter, History.requestsFor_ask]
    split
    next hc => rw [strongest?_append, ← h.requests, SortedMap.get?_congr _ hc]
    next => rw [List.append_nil, h.requests]
  handed := h.handed
  callbacks := by
    obtain ⟨hcalled, hwaiting⟩ := callbacks_invalidate q p t
    rw [hcalled, hwaiting]
    exact h.callbacks

theorem Kept.foldl_invalidate {q : Queue} {l : History} (h : q.Kept l) (paths : List Path)
    (t : Trigger) : (paths.foldl (fun q p => q.invalidate p t) q).Kept (l.ask paths t) := by
  induction paths generalizing q l with
  | nil =>
    have hself : l.ask [] t = l := by simp [History.ask]
    rw [hself]
    exact h
  | cons p paths ih =>
    rw [History.ask_cons]
    exact ih (h.invalidate p t)

theorem Kept.awaits_of_mem {q : Queue} {l : History} {paths : List Path} {t : Trigger} {p : Path}
    (h : q.Kept (l.ask paths t)) (hp : p ∈ paths) : q.Awaits p := by
  rw [← h.triggers_iff, SortedMap.contains_eq_isSome_get?, h.requests, isSome_strongest?,
    History.requestsFor, ne_eq, List.map_eq_nil_iff, List.filter_eq_nil_iff]
  intro hnone
  have hmem : (p, t) ∈ (l.ask paths t).requests :=
    List.mem_append_right _ (List.mem_map.mpr ⟨p, hp, rfl⟩)
  exact hnone (p, t) hmem (beq_iff_eq.mpr ReflCmp.compare_self)

/-! ## Handing out -/

theorem callbacks_takeOne {q q' : Queue} {job : Path × Trigger} (h : q.takeOne = some (q', job)) :
    q'.called = q.called ∧ q'.waiting = q.waiting := by
  have hopen (q : Queue) : q.openSession.called = q.called ∧ q.openSession.waiting = q.waiting := by
    rw [openSession]
    split <;> exact ⟨rfl, rfl⟩
  rw [takeOne] at h
  split at h
  · simp at h
  · obtain ⟨rfl, -⟩ := Prod.mk.inj (Option.some.inj h)
    exact hopen _

theorem Kept.takeOne {q q' : Queue} {l : History} {job : Path × Trigger} (h : q.Kept l)
    (htake : q.takeOne = some (q', job)) : q'.Kept (l.hand job) := by
  obtain ⟨rest, hqueue, hjob, -, hqueued, htriggers, -, -, hrerun, -⟩ := takeOne_eq_some htake
  have hwaits : job.1.OneOf q.queue := hqueue ▸ Path.oneOf_of_mem List.mem_cons_self
  -- a file that waits is not being analyzed, so it is not flagged
  have hflag (x : Path) (hc : compare x job.1 = .eq) : q.rerun.contains x = false := by
    rw [← Bool.not_eq_true]
    intro hr
    refine h.placed.not_queued_of_job (h.placed.rerun_job x hr) ?_
    exact (Path.oneOf_congr hc _).mpr hwaits
  refine ⟨h.placed.takeOne htake, fun x => ?_, fun x => ?_, fun x hx => ?_, ?_⟩
  · rw [htriggers, SortedMap.contains_erase, Bool.and_eq_true, bne_iff_ne, h.triggers_iff, Awaits,
      Awaits, hqueued, hrerun, SortedMap.contains_erase, Bool.and_eq_true, bne_iff_ne]
    by_cases hc : compare x job.1 = .eq
    · simp [hc, hflag x hc]
    · simp [hc]
  · rw [htriggers, SortedMap.get?_erase, History.requestsFor_hand]
    split
    · rfl
    · exact h.requests x
  · rcases List.mem_append.mp hx with hx | hx
    · exact h.handed x hx
    · obtain rfl := List.mem_singleton.mp hx
      have hheld : q.triggers.contains job.1 = true :=
        (h.triggers_iff job.1).mpr (Or.inl ((h.placed.queued_iff job.1).mpr hwaits))
      obtain ⟨t, ht⟩ := SortedMap.contains_iff_exists_get?.mp hheld
      apply strongest?_eq_some
      rw [hjob, ← h.requests, ht]
      rfl
  · obtain ⟨hcalled, hwaiting⟩ := callbacks_takeOne htake
    rw [hcalled, hwaiting]
    exact h.callbacks

theorem Kept.takeMany {q : Queue} {l : History} (h : q.Kept l) (n : Nat) :
    (takeMany n q).1.Kept (l.handAll (takeMany n q).2) := by
  induction n generalizing q l with
  | zero => exact h
  | succ n ih =>
    rw [Queue.takeMany]
    split
    · exact h
    · rename_i q' job htake
      exact ih (h.takeOne htake)

theorem running_takeMany (n : Nat) (q : Queue) :
    (takeMany n q).1.running = q.running + (takeMany n q).2.length ∧ (takeMany n q).2.length ≤ n := by
  induction n generalizing q with
  | zero => exact ⟨rfl, Nat.le_refl 0⟩
  | succ n ih =>
    rw [takeMany]
    split
    · exact ⟨rfl, Nat.zero_le _⟩
    · rename_i q' job htake
      obtain ⟨-, -, -, -, -, -, -, hrunning, -⟩ := takeOne_eq_some htake
      obtain ⟨hall, hlength⟩ := ih q'
      simp only [List.length_cons]
      omega

theorem running_takeReady_le {q : Queue} {workers : Nat} (h : q.running ≤ workers) :
    (q.takeReady workers).1.running ≤ workers := by
  obtain ⟨hrunning, hlength⟩ := running_takeMany (workers - q.running) q
  rw [takeReady]
  omega

theorem queue_takeMany (n : Nat) (q : Queue) :
    (takeMany n q).1.queue = [] ∨ (takeMany n q).2.length = n := by
  induction n generalizing q with
  | zero => exact Or.inr rfl
  | succ n ih =>
    rw [takeMany]
    split
    next hnone =>
      rw [takeOne] at hnone
      split at hnone
      next hempty => exact Or.inl hempty
      next => simp at hnone
    next q' job htake => exact (ih q').imp_right fun hlength => by rw [List.length_cons, hlength]

def Full (q : Queue) (workers : Nat) : Prop := q.queue = [] ∨ workers ≤ q.running

theorem full_takeReady (q : Queue) (workers : Nat) : (q.takeReady workers).1.Full workers := by
  rw [Full, takeReady, (running_takeMany (workers - q.running) q).1]
  exact (queue_takeMany (workers - q.running) q).imp_right fun hlength => by omega

theorem takeMany_of_isIdle {n : Nat} {q : Queue} (h : (takeMany n q).1.isIdle = true) :
    takeMany n q = (q, []) := by
  have hrunning := (running_takeMany n q).1
  rw [isIdle, Bool.and_eq_true, beq_iff_eq] at h
  cases n with
  | zero => rfl
  | succ n =>
    rw [takeMany] at h hrunning ⊢
    split at h
    next => rfl
    next q' job htake =>
      simp only [htake, List.length_cons] at hrunning
      rw [h.2] at hrunning
      omega

/-! ## Analyses that end -/

/-- The worker of `path` is free again, the phases apart. -/
structure Leaves (q q' : Queue) (path : Path) : Prop where
  queue : q'.queue = q.queue
  queued : q'.queued = q.queued
  rerun : q'.rerun = q.rerun.erase path
  running : q'.running = q.running - 1
  triggers : q'.triggers = q.triggers
  called : q'.called = q.called
  waiting : q'.waiting = q.waiting

section Ends

variable {q q' : Queue} {l : History} {path : Path} {left right : List Path}

theorem Kept.placed_first (h : q.Kept l) (hjobs : l.jobs = left ++ path :: right) :
    q.Placed (path :: (left ++ right)) := by
  have hplaced := h.placed
  rw [hjobs] at hplaced
  exact hplaced.perm List.perm_middle

/-- The file is put down, and was not asked for during its analysis. -/
theorem Kept.rest (h : q.Kept l) (hjobs : l.jobs = left ++ path :: right)
    (hagain : q.rerun.contains path = false) (hleaves : Leaves q q' path) (phase : Option FilePhase)
    (hanalyzing : phase ≠ some .analyzing)
    (hphases : ∀ x, q'.phases.get? x = if compare x path = .eq then phase else q.phases.get? x) :
    q'.Kept (l.withJobs (left ++ right)) where
  placed := (h.placed_first hjobs).rest phase hanalyzing hphases hleaves.queue hleaves.queued
    hleaves.rerun hleaves.running
  triggers_iff x := by
    rw [hleaves.triggers, h.triggers_iff, Awaits, Awaits, hleaves.queued, hleaves.rerun,
      SortedMap.contains_erase, Bool.and_eq_true, bne_iff_ne]
    refine or_congr_right ⟨fun hr => ⟨fun hc => ?_, hr⟩, fun hr => hr.2⟩
    rw [SortedMap.contains_congr _ hc, hagain] at hr
    simp at hr
  requests x := by
    rw [hleaves.triggers]
    exact h.requests x
  handed := h.handed
  callbacks := by
    rw [hleaves.called, hleaves.waiting]
    exact h.callbacks

theorem Kept.again (h : q.Kept l) (hjobs : l.jobs = left ++ path :: right)
    (hagain : q.rerun.contains path = true) (hleaves : Leaves q q' path)
    (hphases : q'.phases = q.phases) :
    ((q'.setPhase path .stale).enqueue path).Kept (l.withJobs (left ++ right)) where
  placed := by
    have hplaced := h.placed_first hjobs
    have hrest : (q'.setPhase path .fresh).Placed (left ++ right) := by
      refine hplaced.rest (some .fresh) (by simp) (fun x => ?_) hleaves.queue hleaves.queued
        hleaves.rerun hleaves.running
      rw [← hphases]
      exact SortedMap.get?_insert _ _ _ _
    rw [← setPhase_setPhase q' path .fresh .stale]
    exact hrest.wait (Path.not_oneOf_of_pairwise hplaced.jobs_distinct)
  triggers_iff x := by
    rw [triggers_enqueue, Awaits, contains_queued_enqueue, rerun_enqueue]
    simp only [setPhase, hleaves.triggers, h.triggers_iff, Awaits, hleaves.queued, hleaves.rerun,
      SortedMap.contains_erase, Bool.or_eq_true, Bool.and_eq_true, beq_iff_eq, bne_iff_ne]
    by_cases hc : compare x path = .eq
    · simp [hc, SortedMap.contains_congr _ hc, hagain]
    · simp [hc]
  requests x := by
    rw [triggers_enqueue]
    exact (congrArg (SortedMap.get? · x) hleaves.triggers).trans (h.requests x)
  handed := h.handed
  callbacks := by
    obtain ⟨hcalled, hwaiting⟩ := callbacks_enqueue (q'.setPhase path .stale) path
    rw [hcalled, hwaiting]
    exact (congrArg₂ (· ++ ·) hleaves.called hleaves.waiting).trans h.callbacks

theorem Kept.settleAnalysis (h : q.Kept l) (hjobs : l.jobs = left ++ path :: right) (a : Analysis) :
    ((q.leave path).settleAnalysis path (q.rerun.contains path) a).Kept
      ((l.withJobs (left ++ right)).ask (asked path a) .dependency) := by
  rw [settleAnalysis_eq]
  apply Kept.foldl_invalidate
  rw [putDown]
  split
  next hagain => exact h.again hjobs hagain ⟨rfl, rfl, rfl, rfl, rfl, rfl, rfl⟩ rfl
  next hagain =>
    rw [Bool.not_eq_true] at hagain
    split
    · exact h.rest hjobs hagain ⟨rfl, rfl, rfl, rfl, rfl, rfl, rfl⟩ none (by simp)
        fun x => SortedMap.get?_erase _ _ _
    · exact h.rest hjobs hagain ⟨rfl, rfl, rfl, rfl, rfl, rfl, rfl⟩ (some .fresh) (by simp)
        fun x => SortedMap.get?_insert _ _ _ _

theorem Kept.settleFailure (h : q.Kept l) (hjobs : l.jobs = left ++ path :: right) :
    ((q.leave path).settleFailure path (q.rerun.contains path)).Kept
      (l.withJobs (left ++ right)) := by
  rw [Queue.settleFailure]
  split
  next hagain =>
    have hleaves : Leaves q ((q.leave path).release path).1 path :=
      ⟨rfl, rfl, rfl, rfl, rfl, rfl, rfl⟩
    exact h.again hjobs hagain hleaves rfl
  next hagain =>
    rw [Bool.not_eq_true] at hagain
    exact h.rest hjobs hagain ⟨rfl, rfl, rfl, rfl, rfl, rfl, rfl⟩ (some .stale) (by simp)
      fun x => SortedMap.get?_insert _ _ _ _

end Ends

/-! ## Rest -/

/-- A queue at rest has no session, no current file and no callback that waits. -/
def Rests (q : Queue) : Prop :=
  q.isIdle = true → q.session = none ∧ q.currentPath = none ∧ q.waiting = []

theorem SameWork.rests {a b : Queue} (h : SameWork a b) (hrests : a.Rests) : b.Rests := by
  intro hidle
  rw [h.isIdle] at hidle
  rw [h.session, h.currentPath, h.waiting]
  exact hrests hidle

theorem isIdle_closeIfIdle (q : Queue) : q.closeIfIdle.isIdle = q.isIdle := by
  obtain ⟨-, hqueue, -, -, hrunning⟩ := closeIfIdle_places q
  rw [isIdle, hqueue, hrunning, isIdle]

theorem rests_closeIfIdle (q : Queue) : q.closeIfIdle.Rests := by
  intro hidle
  rw [isIdle_closeIfIdle] at hidle
  rw [closeIfIdle, if_pos hidle]
  split
  next hnone => exact ⟨hnone, rfl, rfl⟩
  next => exact ⟨rfl, rfl, rfl⟩

theorem Kept.closeIfIdle {q : Queue} {l : History} (h : q.Kept l) : q.closeIfIdle.Kept l := by
  obtain ⟨hphases, hqueue, hqueued, hrerun, hrunning⟩ := closeIfIdle_places q
  refine ⟨h.placed.of_eq hphases hqueue hqueued hrerun hrunning, fun p => ?_, fun p => ?_, h.handed, ?_⟩
  · rw [triggers_closeIfIdle, Awaits, hqueued, hrerun]
    exact h.triggers_iff p
  · rw [triggers_closeIfIdle]
    exact h.requests p
  · rw [← h.callbacks, Queue.closeIfIdle]
    split
    · split <;> simp [callWaiting]
    · rfl

theorem Rests.takeReady {q : Queue} (h : q.Rests) (workers : Nat) : (q.takeReady workers).1.Rests := by
  intro hidle
  have hsame : q.takeReady workers = (q, []) := takeMany_of_isIdle hidle
  rw [hsame] at hidle ⊢
  exact h hidle

theorem Rests.schedule {q : Queue} {l : History} (h : q.Rests) (hkept : q.Kept l) (workers : Nat)
    (paths : List Path) (promises : List (Path × List String)) (t : Trigger) :
    (q.schedule workers paths promises t).1.Rests := by
  have hsame := sameWork_foldl_promise q promises
  apply Rests.takeReady
  cases paths with
  | nil => exact hsame.rests h
  | cons p paths =>
    intro hidle
    have hasked := (hsame.kept hkept).foldl_invalidate (p :: paths) t
    exact absurd (hasked.awaits_of_mem List.mem_cons_self) (hasked.not_awaits_of_isIdle hidle p)

theorem Rests.runWhenSmart {q : Queue} (h : q.Rests) (callback : Nat) :
    (q.runWhenSmart callback).Rests := by
  rw [Queue.runWhenSmart]
  split
  · exact h
  next hbusy => exact fun hidle => absurd hidle hbusy

theorem Kept.runWhenSmart {q : Queue} {l : History} (h : q.Kept l) (hrests : q.Rests)
    (callback : Nat) : (q.runWhenSmart callback).Kept (l.give callback) := by
  rw [Queue.runWhenSmart]
  split
  next hidle =>
    refine ⟨h.placed.of_eq rfl rfl rfl rfl rfl, h.triggers_iff, h.requests, h.handed, ?_⟩
    simp [History.give, ← h.callbacks, (hrests hidle).2.2]
  next =>
    refine ⟨h.placed.of_eq rfl rfl rfl rfl rfl, h.triggers_iff, h.requests, h.handed, ?_⟩
    simp [History.give, ← h.callbacks]

/-! ## Every operation -/

theorem finish_eq_settled (q : Queue) (workers : Nat) (path : Path) (outcome : Option Analysis) :
    q.finish workers path outcome =
      let settled := match outcome with
        | some a => (q.leave path).settleAnalysis path (q.rerun.contains path) a
        | none => (q.leave path).settleFailure path (q.rerun.contains path)
      let taken := (settled.reportFile path).takeReady workers
      (taken.1.closeIfIdle, taken.2) := by
  cases outcome <;> rfl

/-- What every operation preserves. -/
structure Runs (q : Queue) (l : History) (workers : Nat) : Prop where
  kept : q.Kept l
  rests : q.Rests
  running_le : q.running ≤ workers
  full : q.Full workers

theorem kept_start : Kept {} {} where
  placed := {
    queued_iff := fun p => by
      simp [Path.not_oneOf_nil, SortedMap.contains, SortedMap.find?, EmptyCollection.emptyCollection]
    queue_distinct := List.Pairwise.nil
    stale_of_queued := fun p hp => absurd hp (Path.not_oneOf_nil p)
    running_eq := rfl
    jobs_distinct := List.Pairwise.nil
    analyzing_iff := fun p => by simp [Path.not_oneOf_nil, EmptyCollection.emptyCollection]
    rerun_job := fun p hp => by
      simp [SortedMap.contains, SortedMap.find?, EmptyCollection.emptyCollection] at hp }
  triggers_iff p := by
    simp [Awaits, SortedMap.contains, SortedMap.find?, EmptyCollection.emptyCollection]
  requests p := rfl
  handed x hx := by simp at hx
  callbacks := rfl

theorem Runs.finish {q : Queue} {l : History} {workers : Nat} (h : q.Runs l workers) {path : Path}
    {left right : List Path} (hjobs : l.jobs = left ++ path :: right) (outcome : Option Analysis) :
    (q.finish workers path outcome).1.Runs
      (((l.withJobs (left ++ right)).ask (askedBy path outcome) .dependency).handAll
        (q.finish workers path outcome).2) workers := by
  rw [finish_eq_settled]
  generalize hsettled : (match outcome with
    | some a => (q.leave path).settleAnalysis path (q.rerun.contains path) a
    | none => (q.leave path).settleFailure path (q.rerun.contains path)) = settled
  have hkept : settled.Kept ((l.withJobs (left ++ right)).ask (askedBy path outcome) .dependency) := by
    subst hsettled
    cases outcome with
    | some a => exact h.kept.settleAnalysis hjobs a
    | none =>
      have hself : (l.withJobs (left ++ right)).ask [] .dependency = l.withJobs (left ++ right) := by
        simp [History.ask]
      rw [askedBy, hself]
      exact h.kept.settleFailure hjobs
  have hrunning : settled.running ≤ workers := by
    have hbefore := h.kept.placed.running_eq
    have hafter : settled.running = (left ++ right).length := hkept.placed.running_eq
    have hle := h.running_le
    simp only [hjobs, List.length_append, List.length_cons] at hbefore hafter
    omega
  have hreport := sameWork_reportFile settled path
  simp only
  generalize settled.reportFile path = reported at hreport
  have hreported : reported.running ≤ workers := by
    rw [hreport.running]
    exact hrunning
  obtain ⟨-, hqueue, -, -, hrunning⟩ := closeIfIdle_places (reported.takeReady workers).1
  refine ⟨((hreport.kept hkept).takeMany _).closeIfIdle, rests_closeIfIdle _, ?_, ?_⟩
  · rw [hrunning]
    exact running_takeReady_le hreported
  · rw [Full, hqueue, hrunning]
    exact full_takeReady reported workers

theorem runs_of_reached {workers : Nat} {q : Queue} {l : History} (h : Reached workers q l) :
    q.Runs l workers := by
  induction h with
  | start => exact ⟨kept_start, fun _ => ⟨rfl, rfl, rfl⟩, Nat.zero_le workers, Or.inl rfl⟩
  | @schedule q l _ paths promises t ih =>
    have hpromise := sameWork_foldl_promise q promises
    have hasked := (hpromise.kept ih.kept).foldl_invalidate paths t
    refine ⟨hasked.takeMany _, ih.rests.schedule ih.kept workers paths promises t, ?_,
      full_takeReady _ workers⟩
    apply running_takeReady_le
    rw [hasked.placed.running_eq.trans ih.kept.placed.running_eq.symm]
    exact ih.running_le
  | @take q l _ ih =>
    exact ⟨ih.kept.takeMany _, ih.rests.takeReady workers, running_takeReady_le ih.running_le,
      full_takeReady _ workers⟩
  | @keep q l _ path ih =>
    have hsame := sameWork_release q path
    exact ⟨hsame.kept ih.kept, hsame.rests ih.rests, ih.running_le, ih.full⟩
  | finish _ hjobs outcome ih => exact ih.finish hjobs outcome
  | @smart q l _ callback ih =>
    refine ⟨ih.kept.runWhenSmart ih.rests callback, ih.rests.runWhenSmart callback, ?_, ?_⟩
    all_goals
      rw [runWhenSmart]
      split
    · exact ih.running_le
    · exact ih.running_le
    · exact ih.full
    · exact ih.full

/-! ## What holds of the collections -/

def analyzing (q : Queue) : List Path :=
  (q.phases.entries.filter fun e => e.2 = .analyzing).map (·.1)

theorem oneOf_analyzing_iff (q : Queue) (p : Path) :
    p.OneOf q.analyzing ↔ q.phases.get? p = some .analyzing := by
  rw [SortedMap.get?_eq_some_iff]
  constructor
  · rintro ⟨x, hx, hc⟩
    obtain ⟨⟨x, phase⟩, he, rfl⟩ := List.mem_map.mp hx
    obtain ⟨he, hphase⟩ := List.mem_filter.mp he
    obtain rfl := of_decide_eq_true hphase
    exact ⟨x, he, hc⟩
  · rintro ⟨x, he, hc⟩
    exact ⟨x, List.mem_map.mpr ⟨_, List.mem_filter.mpr ⟨he, by simp⟩, rfl⟩, hc⟩

theorem analyzing_distinct (q : Queue) : q.analyzing.Pairwise fun a b => compare a b ≠ .eq := by
  refine List.pairwise_map.mpr ((q.phases.increasing.filter _).imp fun hlt heq => ?_)
  rw [hlt] at heq
  simp at heq

/-- How the collections of a queue fit together, and how they answer for its history. -/
structure Consistent (q : Queue) (l : History) (workers : Nat) : Prop where
  queue_distinct : q.queue.Pairwise fun a b => compare a b ≠ .eq
  queued_iff : ∀ p, q.queued.contains p = true ↔ p.OneOf q.queue
  running_eq : q.running = q.analyzing.length
  running_le : q.running ≤ workers
  apart : ∀ p, ¬ (q.queued.contains p = true ∧ q.phases.get? p = some .analyzing)
  jobs_distinct : l.jobs.Pairwise fun a b => compare a b ≠ .eq
  analyzing_iff : ∀ p, q.phases.get? p = some .analyzing ↔ p.OneOf l.jobs
  stale_of_queued : ∀ p, q.queued.contains p = true → q.phases.get? p = some .stale
  analyzing_of_rerun : ∀ p, q.rerun.contains p = true → q.phases.get? p = some .analyzing
  triggers_iff : ∀ p, q.triggers.contains p = true ↔
    q.queued.contains p = true ∨ q.rerun.contains p = true
  handed : ∀ x ∈ l.handed, x.2.1.Strongest x.2.2
  callbacks : q.called ++ q.waiting = l.callbacks
  idle : q.isIdle = true → q.rerun = ∅ ∧ q.triggers = ∅ ∧ q.waiting = [] ∧ q.session = none ∧
    q.currentPath = none ∧ q.called = l.callbacks

/-- Whatever is asked of a queue in whatever order, its collections fit together. -/
theorem consistent_of_reached {workers : Nat} {q : Queue} {l : History} (h : Reached workers q l) :
    q.Consistent l workers := by
  obtain ⟨hkept, hrests, hrunning, -⟩ := runs_of_reached h
  have hplaced := hkept.placed
  have hwaits (p : Path) (hp : q.queued.contains p = true) : q.phases.get? p = some .stale :=
    hplaced.stale_of_queued p ((hplaced.queued_iff p).mp hp)
  have hanalyzing (p : Path) : p.OneOf q.analyzing ↔ p.OneOf l.jobs :=
    (oneOf_analyzing_iff q p).trans (hplaced.analyzing_iff p)
  refine {
    queue_distinct := hplaced.queue_distinct
    queued_iff := hplaced.queued_iff
    running_eq := ?running
    running_le := hrunning
    apart := ?apart
    jobs_distinct := hplaced.jobs_distinct
    analyzing_iff := hplaced.analyzing_iff
    stale_of_queued := hwaits
    analyzing_of_rerun := fun p hp => (hplaced.analyzing_iff p).mpr (hplaced.rerun_job p hp)
    triggers_iff := hkept.triggers_iff
    handed := hkept.handed
    callbacks := hkept.callbacks
    idle := ?idle }
  case running =>
    rw [hplaced.running_eq]
    apply Nat.le_antisymm
    · exact Path.length_le_of_oneOf hplaced.jobs_distinct fun p => (hanalyzing p).mpr
    · exact Path.length_le_of_oneOf (analyzing_distinct q) fun p => (hanalyzing p).mp
  case apart =>
    rintro p ⟨hqueued, hphase⟩
    rw [hwaits p hqueued] at hphase
    simp at hphase
  case idle =>
    intro hidle
    obtain ⟨hsession, hcurrent, hwaiting⟩ := hrests hidle
    have hnone := hkept.not_awaits_of_isIdle hidle
    refine ⟨SortedMap.eq_empty_of_not_contains fun p => ?_,
      SortedMap.eq_empty_of_not_contains fun p => ?_, hwaiting, hsession, hcurrent, ?_⟩
    · exact Bool.eq_false_iff.mpr fun hp => hnone p (Or.inr hp)
    · exact Bool.eq_false_iff.mpr fun hp => hnone p ((hkept.triggers_iff p).mp hp)
    · rw [← hkept.callbacks, hwaiting, List.append_nil]

/-- With one worker: a callback is given while the first of two files is analyzed, the file is asked
for again to be bound anew, and its first analysis breaks off. -/
theorem consistent_overtaken :
    ∃ q l, Reached 1 q l ∧ q.Consistent l 1 ∧ q.isIdle = true ∧ q.called = [7] ∧
      l.handed.map (·.2) = [(.content, [.content]), (.content, [.content]),
        (.dependency, [.dependency])] := by
  have hstart : Reached 1 {} {} := .start
  have hasked := hstart.schedule [⟨"/a.java"⟩, ⟨"/b.java"⟩] [] .content
  have hagain := (hasked.smart 7).schedule [⟨"/a.java"⟩] [] .dependency
  have hone (l : History) (file : String) (h : l.jobs.map (·.spelling) = [file]) :
      l.jobs = [] ++ ⟨file⟩ :: [] := Path.eq_of_spelling h
  have hbroken := hagain.finish (hone _ "/a.java" (by decide +kernel)) none
  have hsecond := hbroken.finish (hone _ "/b.java" (by decide +kernel)) (some {})
  have hlast := hsecond.finish (hone _ "/a.java" (by decide +kernel)) (some {})
  refine ⟨_, _, hlast, consistent_of_reached hlast, ?_, ?_, ?_⟩
  all_goals decide +kernel

end Queue

end JavaAtlas
