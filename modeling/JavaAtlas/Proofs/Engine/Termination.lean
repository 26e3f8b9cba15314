import JavaAtlas.Proofs.Engine.Steady
import JavaAtlas.Proofs.Engine.Traced
import JavaAtlas.Proofs.Engine.WarmStart
import JavaAtlas.Proofs.Queue.Workload
import Mathlib.Data.Prod.Lex

/-!
# The queue is worked off

An analysis may ask for any number of files again, itself among them, and files may refer to each
other in circles. Yet every analysis brings the engine closer to rest: fewer files have a new text, or
as many and fewer are not anchored, or as many and fewer are not steady, or as many and fewer promises
stand, or as many and fewer files wait.
-/

namespace JavaAtlas

set_option autoImplicit false

open Std (TransCmp OrientedCmp ReflCmp)

/-- If no fewer members fail `g` than fail `f`, which implies it, then the two agree. -/
theorem of_countP_eq {α : Type} {l : List α} {f g : α → Bool}
    (himp : ∀ x ∈ l, f x = true → g x = true) (heq : (l.countP fun x => !g x) = l.countP fun x => !f x)
    {x : α} (hx : x ∈ l) (hg : g x = true) : f x = true := by
  have hmono (l' : List α) (hsub : ∀ y ∈ l', y ∈ l) :
      (l'.countP fun y => !g y) ≤ l'.countP fun y => !f y := by
    refine List.countP_mono_left fun y hy hfails => ?_
    rw [Bool.not_eq_true', ← Bool.not_eq_true] at hfails ⊢
    exact fun hf => hfails (himp y (hsub y hy) hf)
  obtain ⟨left, right, rfl⟩ := List.append_of_mem hx
  have hleft := hmono left fun y hy => List.mem_append_left _ hy
  have hright := hmono right fun y hy => List.mem_append_right _ (List.mem_cons_of_mem _ hy)
  rw [← Bool.not_eq_false]
  intro hf
  simp only [List.countP_append, List.countP_cons, hg, hf, Bool.not_true, Bool.not_false, if_true,
    Bool.false_eq_true, if_false] at heq
  omega

namespace Engine

/-! ## How far the engine is from rest -/

/-- How many files with a new text wait, are flagged or are with a worker. -/
def contentWork (e : Engine) : Nat := Queue.contentJobs e.inFlight + e.queue.contentWork

/-- How many files wait, are flagged or are with a worker. -/
def backlog (e : Engine) : Nat := e.inFlight.length + e.queue.backlog

/-- How far the engine is from rest, where only some files matter. -/
def rank (e : Engine) (files : List Path) : ℕ ×ₗ ℕ ×ₗ ℕ ×ₗ ℕ ×ₗ ℕ :=
  toLex (e.contentWork, toLex (files.countP fun p => !e.anchored p,
    toLex (files.countP fun p => !e.steady p, toLex (e.queue.promises.size, e.backlog))))

section Step

variable {e e' : Engine} {p : Path} {t : Trigger} {rest : List (Path × Trigger)} {a : Analysis}

theorem anchored_conclude (e : Engine) (p : Path) (a : Analysis) (q : Path) :
    (e.conclude p a).anchored q = e.anchored q := rfl

theorem steady_conclude (e : Engine) (p : Path) (a : Analysis) (q : Path) :
    (e.conclude p a).steady q = e.steady q := rfl

theorem contentWork_conclude {l : Queue.History} (hkept : e.queue.Kept l) {left right : List Path}
    (hjobs : l.jobs = left ++ p :: right) (a : Analysis) :
    (e.conclude p a).contentWork ≤ e.contentWork := by
  have hsame := e.queue.sameWork_release p
  have hfinish := (hsame.kept hkept).contentWork_finish hjobs e.workers (e.verdict p a)
  have hrelease : (e.queue.release p).1.contentWork = e.queue.contentWork := by
    rw [Queue.contentWork, hsame.triggers, Queue.contentWork]
  rw [contentWork, inFlight_conclude, queue_conclude, Queue.contentJobs_append, contentWork]
  omega

theorem promises_conclude (e : Engine) (p : Path) (a : Analysis) :
    (e.conclude p a).queue.promises = e.queue.promises.erase p := by
  rw [queue_conclude, (Queue.samePromises_finish _ _ _ _).promises]
  rfl

/-- Without a promise for its file an analysis that publishes nothing asks for nothing. -/
theorem backlog_conclude (hpromise : e.queue.promises.contains p = false) (hstale : a.stale = ∅)
    (hrequeue : a.requeue = false) : (e.conclude p a).backlog ≤ e.backlog := by
  have hnone : (e.queue.release p).2 = [] := by
    rw [Queue.release, SortedMap.get?_eq_none_iff.mpr hpromise]
    rfl
  have hasked : Queue.asked p (e.verdict p a) = [] := by
    rw [Queue.asked, verdict, hstale, hnone, hrequeue]
    rfl
  have hfinish := Queue.backlog_finish_le hasked (e.queue.release p).1 e.workers
  have hrelease : (e.queue.release p).1.backlog = e.queue.backlog := rfl
  rw [backlog, inFlight_conclude, queue_conclude, List.length_append, backlog]
  omega

/-- An analysis asks for no file because of its text, and of its own file it has seen the text. -/
theorem contentWork_step {l : Queue.History} (hin : e.inFlight = (p, t) :: rest)
    (hkept : e.queue.Kept l) (hp : p ∈ l.jobs) :
    e.step.contentWork + (if t = .content then 1 else 0) ≤ e.contentWork := by
  obtain ⟨left, right, hjobs⟩ := List.append_of_mem hp
  obtain ⟨e', a, -, hkeeps, -, hstep⟩ := step_of_cons hin
  have hsame : e'.queue = e.queue := hkeeps.queue
  have hle := contentWork_conclude (hsame ▸ hkept) hjobs a
  have hrest : e'.contentWork = Queue.contentJobs rest + e.queue.contentWork := by
    rw [contentWork, hkeeps.inFlight, hsame]
    rfl
  have hfirst : Queue.contentJobs ((p, t) :: rest) =
      Queue.contentJobs rest + if t = .content then 1 else 0 := by
    rw [Queue.contentJobs, List.countP_cons, Queue.contentJobs]
    simp only [decide_eq_true_eq]
  have hbefore : e.contentWork = Queue.contentJobs e.inFlight + e.queue.contentWork := rfl
  rw [hin, hfirst] at hbefore
  rw [hstep]
  omega

theorem rank_rebind_lt {files : List Path} (hindex : e.index.Exact) (hp : p ∈ files)
    (hin : e.inFlight = (p, .dependency) :: rest) (h : Rebinds (e.withJobs rest) p e' a)
    (hstep : e.step = e'.conclude p a) (hcontent : e.step.contentWork ≤ e.contentWork) :
    e.step.rank files < e.rank files := by
  have hanchored (q : Path) (hq : e.anchored q = true) : e.step.anchored q = true := by
    rw [hstep, anchored_conclude]
    exact h.anchored_of hq
  have hpself : e.step.anchored p = true := by
    rw [hstep, anchored_conclude]
    exact h.anchored_self
  refine Prod.Lex.toLex_lt_toLex'.mpr ⟨hcontent, fun _ => ?_⟩
  refine Prod.Lex.toLex_lt_toLex'.mpr ⟨?_, fun hsame => ?_⟩
  · refine List.countP_mono_left fun q _ hq => ?_
    rw [Bool.not_eq_true', ← Bool.not_eq_true] at hq ⊢
    exact fun hbefore => hq (hanchored q hbefore)
  have hlookup : e'.index.lookup = e.index.lookup :=
    h.lookup_eq hindex (of_countP_eq (fun q _ => hanchored q) hsame hp hpself)
  have hsteady (q : Path) (hq : e.steady q = true) : e.step.steady q = true := by
    rw [hstep, steady_conclude]
    exact h.steady_of hlookup hq
  refine Prod.Lex.toLex_lt_toLex'.mpr ⟨?_, fun hsame => ?_⟩
  · refine List.countP_mono_left fun q _ hq => ?_
    rw [Bool.not_eq_true', ← Bool.not_eq_true] at hq ⊢
    exact fun hbefore => hq (hsteady q hbefore)
  have hpsteady : e.step.steady p = true := by
    rw [hstep, steady_conclude]
    exact h.steady_of_eq hlookup ReflCmp.compare_self
  obtain ⟨-, hstale, hrequeue⟩ := h.of_steady (of_countP_eq (fun q _ => hsteady q) hsame hp hpsteady)
  have hpromises : e.step.queue.promises = e.queue.promises.erase p := by
    rw [hstep, promises_conclude, h.keeps.queue]
    rfl
  refine Prod.Lex.toLex_lt_toLex'.mpr ⟨?_, fun hsame => ?_⟩
  · simp only [hpromises]
    exact e.queue.promises.size_erase_le p
  have hnone : e.queue.promises.contains p = false := by
    rw [← Bool.not_eq_true]
    intro hpromised
    have hsize := SortedMap.size_erase_of_contains hpromised
    simp only [hpromises] at hsame
    omega
  have hbacklog := backlog_conclude (p := p) (e := e') (by rw [h.keeps.queue]; exact hnone) hstale hrequeue
  have hafter : e'.backlog + 1 = e.backlog := by
    rw [backlog, h.keeps.inFlight, h.keeps.queue, backlog, hin, List.length_cons]
    simp only [withJobs]
    omega
  rw [← hstep] at hbacklog
  show e.step.backlog < e.backlog
  omega

theorem rank_step_lt {files : List Path} {l : Queue.History} (hindex : e.index.Exact)
    (hkept : e.queue.Kept l) (hjobs : l.jobs.Perm (e.inFlight.map (·.1)))
    (hwithin : e.Within (· ∈ files)) (hbusy : e.inFlight ≠ []) :
    e.step.rank files < e.rank files := by
  obtain ⟨⟨p, t⟩, rest, hin⟩ := List.exists_cons_of_ne_nil hbusy
  obtain ⟨e', a, hanalyze, -, -, hstep⟩ := step_of_cons hin
  have hp : p ∈ files := hwithin.inFlight (p, t) (hin ▸ List.mem_cons_self)
  have hjob : p ∈ l.jobs := by
    rw [hjobs.mem_iff, hin]
    exact List.mem_cons_self
  have hcontent := contentWork_step hin hkept hjob
  cases t with
  | content => exact Prod.Lex.toLex_lt_toLex.mpr (Or.inl (Nat.lt_of_succ_le hcontent))
  | dependency =>
    have hrebinds := rebinds_analyzeFile (e.withJobs rest) p
    rw [hanalyze] at hrebinds
    exact rank_rebind_lt hindex hp hin hrebinds hstep hcontent

end Step

end Engine

namespace System

/-! ## Rest is reached -/

theorem Sane.exists_idle {e : Engine} {client : Client} (h : Sane ⟨e, [], client⟩) :
    ∃ n, (e.run n).isIdle = true := by
  obtain ⟨files, hwithin⟩ : ∃ files : List Path, e.Within (· ∈ files) := by
    refine ⟨e.queue.queue ++ e.inFlight.map (·.1) ++ e.index.entries.map (·.path), ?_, ?_, ?_⟩
    · intro p hp
      simp only [List.mem_append]
      exact Or.inl (Or.inl hp)
    · intro job hjob
      simp only [List.mem_append]
      exact Or.inl (Or.inr (List.mem_map_of_mem hjob))
    · intro x hx
      simp only [List.mem_append]
      exact Or.inr (List.mem_map_of_mem hx)
  induction hrank : e.rank files using WellFoundedLT.induction generalizing e with
  | ind rank ih =>
    obtain ⟨l, hreached, hl⟩ := h.traced.history
    have hruns := Queue.runs_of_reached hreached
    simp only [jobs, List.map_nil, List.append_nil] at hl
    cases hin : e.inFlight with
    | nil =>
      rw [hin] at hl
      exact ⟨0, hruns.isIdle_of_jobs (Nat.le_max_right _ _) hl.eq_nil⟩
    | cons job rest =>
      have hbusy : e.inFlight ≠ [] := by simp [hin]
      have hlt := Engine.rank_step_lt h.traced.exact hruns.kept hl hwithin hbusy
      obtain ⟨n, hn⟩ := ih (e.step.rank files) (hrank ▸ hlt) (h.run (run_step e [] client))
        (hwithin.step h.traced.exact) rfl
      refine ⟨n + 1, ?_⟩
      rw [Engine.run, if_neg (by simp [hin])]
      exact hn

/-- Whatever was asked of an engine and however its workers were interleaved, between two analyses it
is finitely many analyses away from rest, if nothing more is asked of it. -/
theorem exists_idle_of_run {config : EngineConfig} {world : World} {e : Engine} {client : Client}
    (hrun : Run (start config world) ⟨e, [], client⟩) : ∃ n, (e.run n).isIdle = true :=
  (sane_of_run hrun).exists_idle

/-- Two files that extend each other, both opened before a worker gets to them. -/
def entangled : Engine :=
  let e := Engine.ofConfig {} {}
  let e := { e with
    registry := (e.registry.openFile ⟨"/a.java"⟩ "class A extends B {}").1 }.drainChanges.1
  { e with registry := (e.registry.openFile ⟨"/b.java"⟩ "class B extends A {}").1 }.drainChanges.1

theorem exists_idle_entangled :
    entangled.isIdle = false ∧ ∃ n, (entangled.run n).isIdle = true := by
  have hsource : Path.extension? ⟨"/a.java"⟩ = some sourceExtension ∧
      Path.extension? ⟨"/b.java"⟩ = some sourceExtension := by decide +kernel
  have hfirst := run_call (Call.run_openFile_of_source hsource.1 (.ofConfig {} {})
    "class A extends B {}") []
  have hrun := hfirst.trans (run_call (Call.run_openFile_of_source hsource.2 _ "class B extends A {}") [])
  exact ⟨by decide +kernel, exists_idle_of_run hrun⟩

end System

end JavaAtlas
