import JavaAtlas.Proofs.Engine.Dangling
import JavaAtlas.Proofs.Engine.SearchMemo
import JavaAtlas.Proofs.Engine.Traced

/-!
# Analyses that are overtaken

A file is bound against the index as it was when its analysis began. Whatever other workers publish
before it is published itself cannot ask for it, as it does not yet show the names it failed on. So
it is its own analysis that compares the two indexes. Main statement: a file that is overtaken by a
name it failed on is asked for again when its analysis ends.
-/

namespace JavaAtlas

set_option autoImplicit false

open Std (ReflCmp)

def Stage.seen? : Stage → Option Snapshot
  | .viewed before | .missing before => some before
  | .found before _ | .dropped before _ | .evicted before _ => some before
  | .bound before _ _ _ | .published before _ _ _ | .recorded before _ _ _ => some before
  | .judged _ | .released _ _ | .done _ => none

namespace Engine

variable {e : Engine} {p : Path} {t : Trigger}

theorem seen?_of_advance {stage : Stage} {before : Snapshot}
    (h : (e.advance p t stage).2.seen? = some before) : stage.seen? = some before := by
  cases stage with
  | viewed seen =>
    rcases hfile : e.registry.file p with ⟨registry, _ | file⟩ <;>
    · rw [advance, hfile] at h
      exact h
  | found seen file =>
    rw [advance] at h
    split at h
    · simp [Stage.seen?] at h
    · exact h
  | bound seen file symbols fromCache => exact h
  | published seen file outcome fromCache => exact h
  | recorded seen file outcome fromCache => simp [advance, Stage.seen?] at h
  | missing seen => exact h
  | dropped seen removed => exact h
  | evicted seen removed => simp [advance, Stage.seen?] at h
  | judged a => simp [advance, Stage.seen?] at h
  | released a promised => simp [advance, Stage.seen?] at h
  | done a => simp [advance, Stage.seen?] at h

/-- A publication that other workers have preceded, and after which a name can be resolved that the
file failed on and that was not there when its analysis began. -/
theorem bindingsMoved_of_overtaken {before after : Snapshot} {outcome : UpsertOutcome}
    (hovertaken : before.generation + 1 < outcome.generation) {x : FileEntry}
    (hx : after.file? p = some x) {name : String} (hname : name ∈ x.symbols.unresolved)
    (hbefore : before.canResolve name = false) (hafter : after.canResolve name = true) :
    e.bindingsMoved p outcome before after = true := by
  simp only [bindingsMoved, hx, Bool.or_eq_true, Bool.and_eq_true, decide_eq_true_eq]
  refine Or.inl ⟨hovertaken, List.any_eq_true.mpr ⟨name, hname, ?_⟩⟩
  rw [hbefore, hafter]
  rfl

end Engine

namespace System

variable {config : EngineConfig} {world : World} {s : System}

/-- What an analysis has looked at is the index, or the index has moved on since. -/
theorem seen_of_run (hrun : Run (start config world) s) {job : Job} (hjob : job ∈ s.active)
    {before : Snapshot} (hseen : job.stage.seen? = some before) :
    s.engine.index = before ∨ before.generation < s.engine.index.generation := by
  induction hrun generalizing job with
  | refl => simp [start] at hjob
  | @tail a b _ hstep ih =>
    have hlater := (unsearched_step hstep).index.later
    have hold {other : Job} (hother : other ∈ a.active) (hseen : other.stage.seen? = some before) :
        b.engine.index = before ∨ before.generation < b.engine.index.generation := by
      rcases ih hother hseen with rfl | hlt
      · exact hlater
      · rcases hlater with hsame | hlater
        · exact Or.inr (hsame ▸ hlt)
        · exact Or.inr (Nat.lt_trans hlt hlater)
    cases hstep with
    | start e active client left right path trigger hin =>
      rcases List.mem_cons.mp hjob with rfl | hjob
      · exact Or.inl (Option.some.inj hseen)
      · exact hold hjob hseen
    | advance e left right client other hstage =>
      rcases mem_middle_iff.mp hjob with rfl | hjob
      · exact hold (mem_middle_iff.mpr (Or.inl rfl)) (Engine.seen?_of_advance hseen)
      · exact hold (mem_middle_iff.mpr (Or.inr hjob)) hseen
    | finish e left right client path trigger a =>
      exact hold (mem_middle_iff.mpr (Or.inr hjob)) hseen
    | disk | change | adopt | keep | collect | order | enqueue => exact hold hjob hseen

/-- From the publication on an analysis goes on to its end, if it is let. Its file is asked for again
when what it is bound to has moved. -/
theorem run_bound {e : Engine} (left right : List Job) (client : Client) {p : Path} (t : Trigger)
    (before : Snapshot) {after : Snapshot} {outcome : UpsertOutcome} {file : SourceFile}
    {symbols : FileSymbols} (fromCache : Bool)
    (hupsert : e.index.upsert p file.fingerprint symbols = (after, outcome)) :
    ∃ (published released : Engine) (a : Analysis),
      a.requeue = (!outcome.unchanged && published.bindingsMoved p outcome before after) ∧
      Run ⟨e, left ++ ⟨p, t, .bound before file symbols fromCache⟩ :: right, client⟩
        ⟨released, left ++ ⟨p, t, .done a⟩ :: right, client⟩ := by
  let published : Engine := { e with
    index := after
    registry := e.registry.setLastAnalyzed p file.fingerprint file.version }
  let a : Analysis := {
    fromCache := fromCache
    stale := staleAfter p outcome before after
    requeue := !outcome.unchanged && published.bindingsMoved p outcome before after }
  have hpublish : Run ⟨e, left ++ ⟨p, t, .bound before file symbols fromCache⟩ :: right, client⟩
      ⟨{ e with index := after },
        left ++ ⟨p, t, .published before file outcome fromCache⟩ :: right, client⟩ := by
    have hstep := Step.advance e left right client ⟨p, t, .bound before file symbols fromCache⟩ (by simp)
    simp only [Engine.advance, hupsert] at hstep
    exact .single hstep
  have hrecord := hpublish.tail (.advance _ left right client _ (by simp))
  have hjudge := hrecord.tail (.advance published left right client
    ⟨p, t, .recorded before file outcome fromCache⟩ (by simp))
  have hrelease := hjudge.tail (.advance published left right client ⟨p, t, .judged a⟩ (by simp))
  exact ⟨published, _, published.verdict p a, rfl, hrelease.tail
    (.advance { published with queue := (published.queue.release p).1 } left right client
      ⟨p, t, .released a (published.queue.release p).2⟩ (by simp))⟩

/-- A file is bound, and other workers have changed the index since its analysis began. If a name it
failed on could not be resolved then and can be once the file is published, then the file is to be
bound anew when its analysis ends. -/
theorem due_of_overtaken {e : Engine} {left right : List Job} {client : Client} {p : Path} {t : Trigger}
    {before : Snapshot} {file : SourceFile} {symbols : FileSymbols} {fromCache : Bool} {name : String}
    (hrun : Run (start config world)
      ⟨e, left ++ ⟨p, t, .bound before file symbols fromCache⟩ :: right, client⟩)
    (hovertaken : e.index ≠ before) (hnew : e.index.holds p file.fingerprint symbols = false)
    (hname : name ∈ symbols.unresolved) (hbefore : before.canResolve name = false)
    (hafter : (e.index.upsert p file.fingerprint symbols).1.canResolve name = true) :
    ∃ e', Run ⟨e, left ++ ⟨p, t, .bound before file symbols fromCache⟩ :: right, client⟩
        ⟨e', left ++ right, client⟩ ∧ e'.Due p := by
  have hlt : before.generation < e.index.generation :=
    (seen_of_run hrun (mem_middle_iff.mpr (Or.inl rfl)) rfl).resolve_left hovertaken
  have hreport := Snapshot.upsert_of_not_holds hnew
  have hfile := Snapshot.file?_upsert hnew p
  rw [if_pos ReflCmp.compare_self] at hfile
  generalize hupsert : e.index.upsert p file.fingerprint symbols = r at hafter hreport hfile
  obtain ⟨after, outcome⟩ := r
  replace hreport : outcome = e.index.changeReport p symbols := hreport
  obtain ⟨published, released, a, hrequeue, hdone⟩ :=
    run_bound left right client t before fromCache hupsert
  have hasked : a.requeue = true := by
    have hmoved : published.bindingsMoved p outcome before after = true := by
      refine Engine.bindingsMoved_of_overtaken ?_ hfile hname hbefore hafter
      rw [hreport]
      exact Nat.succ_lt_succ hlt
    rw [hrequeue, hmoved, hreport]
    rfl
  have hinvariant := (sane_of_run (hrun.trans hdone)).invariant
  have hwell := hinvariant.queue.perm (perm_jobs released left right client ⟨p, t, .done a⟩)
  have hrebind : p.OneOf (Queue.asked p a) :=
    Engine.oneOf_asked_of_requeue hasked ReflCmp.compare_self
  have hdue := Queue.due_finish hwell (Or.inr hrebind) released.workers
  refine ⟨_, hdone.tail (.finish _ left right client p t _), hdue.imp_right ?_⟩
  rintro ⟨job, hjob, hp⟩
  exact ⟨job, List.mem_append_right _ hjob, hp⟩

end System

end JavaAtlas
