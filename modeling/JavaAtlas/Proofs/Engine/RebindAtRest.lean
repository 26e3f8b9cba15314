import JavaAtlas.Proofs.Engine.Drain

/-!
# Binding a file anew at rest

At rest the index need not be what binding every file anew would give. When one file is bound anew,
the queue is worked off and the index is as it was exactly if that file is steady and so is every
file that relied on what the record of that file promises and the file does not declare. Once all
files have been bound anew twice, every file is steady.
-/

namespace JavaAtlas

set_option autoImplicit false

open Std (TransCmp OrientedCmp ReflCmp)

namespace Engine

/-! ## Files at stake -/

/-- The file pends, or is to be asked for when the promises made for another one are taken back. -/
def AtStake (e : Engine) (q : Path) : Prop :=
  e.Pends q ∨ ∃ p, compare q p ≠ .eq ∧ q ∈ e.disappointed p (e.queue.release p).2

/-- The files listed, each in one spelling, are all that is to be analyzed now or later. -/
structure Stakes (e : Engine) (files : List Path) : Prop extends Rebinding e where
  spelled : ∀ p ∈ files, ∀ q ∈ files, compare p q = .eq → p = q
  queue : e.queue.Within (· ∈ files)
  inFlight : ∀ job ∈ e.inFlight, job.1 ∈ files
  promised : ∀ p q, compare q p ≠ .eq → q ∈ e.disappointed p (e.queue.release p).2 → q ∈ files

theorem disappointed_congr {e e' : Engine} (h : e'.index = e.index) {p q : Path}
    (hc : compare p q = .eq) (types : List String) :
    e'.disappointed p types = e.disappointed q types := by
  simp only [disappointed, h, Snapshot.file?_congr _ hc]

theorem not_mem_disappointed_nil (e : Engine) (p q : Path) : q ∉ e.disappointed p [] := by
  simp [disappointed]

theorem promises_step {e e' : Engine} {p : Path} {rest : List (Path × Trigger)} {a : Analysis}
    (hkeeps : Keeps (e.withJobs rest) e') (hstep : e.step = e'.conclude p a) :
    e.step.queue.promises = e.queue.promises.erase p := by
  rw [hstep, promises_conclude, hkeeps.queue, withJobs]

theorem release_step {e e' : Engine} {p : Path} {rest : List (Path × Trigger)} {a : Analysis}
    (hkeeps : Keeps (e.withJobs rest) e') (hstep : e.step = e'.conclude p a) (q : Path) :
    (e.step.queue.release q).2 = if compare q p = .eq then [] else (e.queue.release q).2 := by
  simp only [Queue.release, promises_step hkeeps hstep, SortedMap.get?_erase]
  split <;> rfl

theorem Rebinding.generation_step {e : Engine} (h : e.Rebinding) :
    e.index.generation ≤ e.step.index.generation := by
  cases hin : e.inFlight with
  | nil => rw [step_of_nil hin]
  | cons job rest =>
    obtain ⟨-, e', a, hrebinds, hstep⟩ := h.next hin
    rw [hstep, index_conclude, hrebinds.generation]
    exact Nat.le_add_right _ _

theorem Rebinding.generation_run {e : Engine} (h : e.Rebinding) (n : Nat) :
    e.index.generation ≤ (e.run n).index.generation := by
  have hrun : (e.run n).Rebinding ∧ e.index.generation ≤ (e.run n).index.generation := by
    refine run_of_step (P := fun after => after.Rebinding ∧
      e.index.generation ≤ after.index.generation) ?_ n ⟨h, Nat.le_refl _⟩
    rintro after ⟨hrebinding, hle⟩
    exact ⟨hrebinding.step, Nat.le_trans hle hrebinding.generation_step⟩
  exact hrun.2

theorem Rebinding.not_promised {e : Engine} (h : e.Rebinding) (hidle : e.isIdle = true) (p : Path) :
    e.queue.promises.contains p = false := by
  obtain ⟨client, hsane⟩ := h.sane
  rw [← Bool.not_eq_true]
  intro hp
  rcases hsane.backed.promised p hp with hp | hp | ⟨job, hjob, -⟩
  · exact h.not_pends hidle p (Or.inl hp)
  · exact h.not_pends hidle p (Or.inr hp)
  · simp at hjob

namespace Stakes

variable {e : Engine} {files : List Path} {p q : Path} {t : Trigger} {rest : List (Path × Trigger)}

theorem inFlight_head (h : e.Stakes files) (hin : e.inFlight = (p, t) :: rest) : p ∈ files :=
  h.inFlight (p, t) (hin ▸ List.mem_cons_self)

theorem not_atStake (h : e.Stakes files) (hidle : e.isIdle = true) (q : Path) : ¬ e.AtStake q := by
  rintro (hq | ⟨p, -, hq⟩)
  · exact h.not_pends hidle q hq
  · rw [Queue.release, SortedMap.get?_eq_none_iff.mpr (h.not_promised hidle p)] at hq
    exact not_mem_disappointed_nil e p q hq

/-- Binding a steady file anew leaves the index alone and asks for no file that is not listed. -/
theorem step (h : e.Stakes files) (hin : e.inFlight = (p, t) :: rest) (hsteady : e.steady p = true) :
    e.step.index = e.index ∧ e.step.Stakes files := by
  obtain ⟨-, e', a, hrebinds, hstep⟩ := h.next hin
  have hindex : e'.index = e.index := (hrebinds.of_steady hsteady).1
  have hstale : a.stale = ∅ := (hrebinds.of_steady hsteady).2.1
  have hsame : e.step.index = e.index := by rw [hstep, index_conclude, hindex]
  have hqueue : e'.queue = e.queue := hrebinds.keeps.queue
  have hasked : ∀ q ∈ SortedSet.toList (e'.verdict p a).stale, q ∈ files := by
    intro q hq
    obtain ⟨hq, hne⟩ := (SortedSet.mem_toList_erase_iff _ p q).mp hq
    rw [hstale, hqueue, disappointed_congr hindex ReflCmp.compare_self] at hq
    rcases SortedSet.mem_addAll hq with hq | hq
    · simp [SortedSet.toList, SortedMap.keys, EmptyCollection.emptyCollection] at hq
    · exact h.promised p q (fun hc => hne (OrientedCmp.eq_symm hc)) hq
  have hreleased : (e'.queue.release p).1.Within (· ∈ files) := by
    rw [hqueue]
    exact h.queue
  obtain ⟨hleft, hready⟩ := hreleased.finish (h.inFlight_head hin) hasked e'.workers
  refine ⟨hsame, h.toRebinding.step, h.spelled, ?_, fun job hjob => ?_, fun x q hne hq => ?_⟩
  · rw [hstep, queue_conclude]
    exact hleft
  · rw [hstep, inFlight_conclude, hrebinds.keeps.inFlight] at hjob
    rcases List.mem_append.mp hjob with hjob | hjob
    · exact h.inFlight job (hin ▸ List.mem_cons_of_mem _ hjob)
    · exact hready job hjob
  · rw [disappointed_congr hsame ReflCmp.compare_self, release_step hrebinds.keeps hstep] at hq
    split at hq
    · exact absurd hq (not_mem_disappointed_nil e x q)
    · exact h.promised x q hne hq

theorem steady_step (h : e.Stakes files) (hin : e.inFlight = (p, t) :: rest)
    (hsteady : e.steady p = true) (hq : q ∈ files) : e.step.steady q = e.steady q := by
  obtain ⟨-, e', a, hrebinds, hstep⟩ := h.next hin
  have hlookup : e'.index.lookup = e.index.lookup :=
    congrArg (·.lookup) (hrebinds.of_steady hsteady).1
  rw [hstep, steady_conclude]
  by_cases hc : compare q p = .eq
  · rw [hrebinds.steady_of_eq hlookup hc, h.spelled q hq p (h.inFlight_head hin) hc, hsteady]
  · exact hrebinds.beside.steady hlookup hc

/-- A file at stake is the next to be analyzed or stays at stake. -/
theorem atStake_step (h : e.Stakes files) (hin : e.inFlight = (p, t) :: rest)
    (hsteady : e.steady p = true) (hne : compare q p ≠ .eq) (hq : e.AtStake q) : e.step.AtStake q := by
  obtain ⟨-, e', a, hrebinds, hstep⟩ := h.next hin
  have hindex : e'.index = e.index := (hrebinds.of_steady hsteady).1
  rcases hq with hq | ⟨x, hx, hq⟩
  · exact Or.inl ((h.pends_step hin hq).resolve_left hne)
  by_cases hc : compare x p = .eq
  · -- the promises are taken back now, so whoever relied on them is asked for
    have hrelease : (e.queue.release x).2 = (e'.queue.release p).2 := by
      rw [hrebinds.keeps.queue]
      simp only [Queue.release, SortedMap.get?_congr _ hc, withJobs]
    rw [← disappointed_congr hindex (OrientedCmp.eq_symm hc), hrelease] at hq
    have hasked := oneOf_asked_of_verdict (a := a) (Or.inr (Path.oneOf_of_mem hq)) hne
    rw [hstep]
    exact Or.inl (pends_conclude (h.wellFormed_next hin hrebinds.keeps) a (Or.inr hasked))
  · refine Or.inr ⟨x, hx, ?_⟩
    have hsame : e.step.index = e.index := (h.step hin hsteady).1
    rw [disappointed_congr hsame ReflCmp.compare_self, release_step hrebinds.keeps hstep, if_neg hc]
    exact hq

theorem index_run (h : e.Stakes files) (hall : ∀ q ∈ files, e.steady q = true) (n : Nat) :
    (e.run n).index = e.index := by
  have hrun : (e.run n).Stakes files ∧ (∀ q ∈ files, (e.run n).steady q = true) ∧
      (e.run n).index = e.index := by
    refine run_of_step (P := fun after => after.Stakes files ∧
      (∀ q ∈ files, after.steady q = true) ∧ after.index = e.index) ?_ n ⟨h, hall, rfl⟩
    rintro after ⟨hstakes, hall, hindex⟩
    cases hin : after.inFlight with
    | nil =>
      rw [step_of_nil hin]
      exact ⟨hstakes, hall, hindex⟩
    | cons job rest =>
      have hsteady := hall job.1 (hstakes.inFlight_head hin)
      obtain ⟨hsame, hnext⟩ := hstakes.step hin hsteady
      refine ⟨hnext, ?_, hsame.trans hindex⟩
      intro q hq
      rw [hstakes.steady_step hin hsteady hq]
      exact hall q hq
  exact hrun.2.2

theorem generation_lt (h : e.Stakes files) {n : Nat} (hidle : (e.run n).isIdle = true)
    (hmem : q ∈ files) (hq : e.AtStake q) (hunsteady : e.steady q = false) :
    e.index.generation < (e.run n).index.generation := by
  induction n generalizing e with
  | zero => exact absurd hq (h.not_atStake hidle q)
  | succ n ih =>
    rw [run] at hidle ⊢
    split at hidle
    · exact absurd hq (h.not_atStake hidle q)
    next hbusy =>
      rw [if_neg hbusy]
      rw [List.isEmpty_iff] at hbusy
      obtain ⟨⟨p, t⟩, rest, hin⟩ := List.exists_cons_of_ne_nil hbusy
      cases hsteady : e.steady p with
      | true =>
        have hne : compare q p ≠ .eq := by
          intro hc
          rw [h.spelled q hmem p (h.inFlight_head hin) hc, hsteady] at hunsteady
          simp at hunsteady
        obtain ⟨hsame, hstakes⟩ := h.step hin hsteady
        rw [← hsame]
        exact ih hstakes hidle (h.atStake_step hin hsteady hne hq)
          ((h.steady_step hin hsteady hmem).trans hunsteady)
      | false =>
        have hlt : e.index.generation < e.step.index.generation := by
          obtain ⟨-, e', a, hrebinds, hstep⟩ := h.next hin
          have hmoved : e'.index.generation = e.index.generation + if e.steady p then 0 else 1 :=
            hrebinds.generation
          rw [hsteady] at hmoved
          rw [hstep, index_conclude, hmoved]
          exact Nat.lt_succ_self _
        exact Nat.lt_of_lt_of_le hlt (h.toRebinding.step.generation_run n)

theorem unchanged_iff (h : e.Stakes files) (hall : ∀ q ∈ files, e.AtStake q) {n : Nat}
    (hidle : (e.run n).isIdle = true) :
    ((e.run n).index = e.index ↔ ∀ q ∈ files, e.steady q = true) ∧
      ((e.run n).index.generation = e.index.generation ↔ ∀ q ∈ files, e.steady q = true) := by
  have hmoved (hsame : (e.run n).index.generation = e.index.generation) (q : Path) (hq : q ∈ files) :
      e.steady q = true := by
    rw [← Bool.not_eq_false]
    intro hunsteady
    have hlt := h.generation_lt hidle hq (hall q hq) hunsteady
    omega
  exact ⟨⟨fun hsame => hmoved (congrArg (·.generation) hsame), fun hsteady => h.index_run hsteady n⟩,
    hmoved, fun hsteady => congrArg (·.generation) (h.index_run hsteady n)⟩

end Stakes

/-! ## Files that were misled -/

/-- What the record of a file promises if it is for the content of the file. -/
def promisedBy (e : Engine) (p : Path) : List String :=
  match (e.loadRecord p).2 with
  | .miss _ => []
  | .hit print symbols =>
    if (e.registry.content? p).any fun content => content.2 == print then symbols.types.map (·.fqn)
    else []

/-- The other files that rely on a type that the record promises and the file does not declare. -/
def misled (e : Engine) (p : Path) : List Path :=
  (e.disappointed p (e.promisedBy p)).filter fun q => compare q p != .eq

theorem promises_orderBatch (e : Engine) (p : Path) :
    ((e.orderBatch [p]).2.2 = [] ∧ e.promisedBy p = []) ∨
      (e.orderBatch [p]).2.2 = [(p, e.promisedBy p)] := by
  have hsorted : SortedSet.toList (SortedSet.ofList [p]) = [p] := rfl
  rw [orderBatch, promisedBy, hsorted]
  cases hstore : e.store with
  | none => exact Or.inl ⟨rfl, by rw [loadRecord, hstore]⟩
  | some root =>
    have hregistry := (agrees_loadRecord e p).registry
    rcases hfound : e.loadRecord p with ⟨e₁, found⟩
    rw [hfound] at hregistry
    simp only [hintsFor, hfound]
    cases found with
    | miss reason => exact Or.inl ⟨rfl, rfl⟩
    | hit print symbols =>
      have hmatching : ((e₁.registry.file p).2.any fun f => f.fingerprint == print) =
          (e.registry.content? p).any fun content => content.2 == print := by
        rw [hregistry]
        cases hfile : (e.registry.file p).2 with
        | none => rw [content?_of_missing hfile]; rfl
        | some f => rw [content?_of_found hfile]; rfl
      simp only [hmatching]
      split
      · exact Or.inr rfl
      · exact Or.inl ⟨rfl, rfl⟩

namespace AtRest

variable {e : Engine} (h : e.AtRest)

include h

theorem release_schedule (p q : Path) :
    ((e.schedule [p] .dependency).queue.release q).2 =
      if compare q p = .eq then e.promisedBy p else [] := by
  have hnone : e.queue.promises.get? q = none :=
    SortedMap.get?_eq_none_iff.mpr (h.rebinding.not_promised h.idle q)
  have hreads := reads_orderBatch e [p]
  have hpromises := promises_orderBatch e p
  rw [schedule_eq]
  generalize e.orderBatch [p] = batch at *
  obtain ⟨e', order, promises⟩ := batch
  have hqueue : e'.queue = e.queue := hreads.queue
  rw [Queue.release, enqueueBatch]
  simp only [(Queue.samePromises_schedule _ _ _ _ _).promises, hqueue]
  rcases hpromises with ⟨hpromises, htypes⟩ | hpromises
  · simp only at hpromises
    rw [hpromises, List.foldl_nil, hnone, htypes]
    split <;> rfl
  · simp only at hpromises
    rw [hpromises, List.foldl_cons, List.foldl_nil, Queue.promise]
    simp only [Queue.release, SortedMap.get?_insert, SortedMap.get?_erase, hnone]
    split <;> rfl

/-- The file and those it misled are all that is at stake. -/
theorem stakes (p : Path) :
    (e.schedule [p] .dependency).Stakes (p :: e.misled p) ∧
      ∀ q ∈ p :: e.misled p, (e.schedule [p] .dependency).AtStake q := by
  have hindex := index_schedule e [p] .dependency
  have hwithin := h.within_schedule p .dependency
  have hother {q : Path} (hq : q ∈ e.misled p) :
      compare q p ≠ .eq ∧ q ∈ e.disappointed p (e.promisedBy p) := by
    obtain ⟨hq, hne⟩ := List.mem_filter.mp hq
    exact ⟨bne_iff_ne.mp hne, hq⟩
  refine ⟨⟨h.schedule [p], ?_, fun x hx => ?_, fun job hjob => ?_, fun x q hne hq => ?_⟩, ?_⟩
  · intro a ha b hb hc
    rcases List.mem_cons.mp ha with rfl | ha <;> rcases List.mem_cons.mp hb with rfl | hb
    · rfl
    · exact absurd (OrientedCmp.eq_symm hc) (hother hb).1
    · exact absurd hc (hother ha).1
    · obtain ⟨x, hx, rfl⟩ := mem_disappointed h.rebinding.exact (hother ha).2
      obtain ⟨y, hy, rfl⟩ := mem_disappointed h.rebinding.exact (hother hb).2
      rw [h.rebinding.exact.keyed.eq_of_compare_eq hx hy hc]
  · rw [hwithin.1 x hx]
    exact List.mem_cons_self
  · rw [hwithin.2 job hjob]
    exact List.mem_cons_self
  · rw [h.release_schedule] at hq
    split at hq
    next hc =>
      rw [disappointed_congr hindex hc] at hq
      rw [TransCmp.congr_right hc] at hne
      exact List.mem_cons_of_mem _ (List.mem_filter.mpr ⟨hq, bne_iff_ne.mpr hne⟩)
    next => exact absurd hq (not_mem_disappointed_nil _ x q)
  · intro q hq
    rcases List.mem_cons.mp hq with rfl | hq
    · exact Or.inl (pends_schedule h.rebinding.wellFormed .dependency
        (Or.inr (Path.oneOf_of_mem List.mem_cons_self)))
    · refine Or.inr ⟨p, (hother hq).1, ?_⟩
      rw [h.release_schedule, if_pos ReflCmp.compare_self,
        disappointed_congr hindex ReflCmp.compare_self]
      exact (hother hq).2

theorem unchanged_iff (p : Path) {n : Nat}
    (hidle : ((e.schedule [p] .dependency).run n).isIdle = true) :
    (((e.schedule [p] .dependency).run n).index = e.index ↔
        e.steady p = true ∧ ∀ q ∈ e.misled p, e.steady q = true) ∧
      (((e.schedule [p] .dependency).run n).index.generation = e.index.generation ↔
        e.steady p = true ∧ ∀ q ∈ e.misled p, e.steady q = true) := by
  obtain ⟨hstakes, hall⟩ := h.stakes p
  have hunchanged := hstakes.unchanged_iff hall hidle
  simp only [index_schedule, (bound_schedule h.sane.invariant.sound [p] .dependency _).2,
    List.forall_mem_cons] at hunchanged
  exact hunchanged

end AtRest

/-! ## Two passes -/

def rebindAll (e : Engine) : Engine := e.schedule e.registry.paths .dependency

namespace AtRest

variable {e : Engine} (h : e.AtRest)

include h

theorem anchored_or_pends (q : Path) : e.rebindAll.anchored q = true ∨ e.rebindAll.Pends q := by
  rcases h.known_or_absent q with hq | ⟨hcontent, hfile⟩
  · exact Or.inr (pends_schedule h.rebinding.wellFormed .dependency (Or.inr hq))
  · refine Or.inl ?_
    rw [rebindAll, (bound_schedule h.sane.invariant.sound _ _ q).1, anchored, hcontent, hfile]
    rfl

theorem steady_or_pends (q : Path) : e.rebindAll.steady q = true ∨ e.rebindAll.Pends q := by
  rcases h.known_or_absent q with hq | ⟨hcontent, hfile⟩
  · exact Or.inr (pends_schedule h.rebinding.wellFormed .dependency (Or.inr hq))
  · refine Or.inl ?_
    rw [rebindAll, (bound_schedule h.sane.invariant.sound _ _ q).2, steady, hcontent, hfile]
    rfl

theorem rebindAll {n : Nat} (hidle : (e.rebindAll.run n).isIdle = true) :
    (e.rebindAll.run n).AtRest :=
  ⟨(h.sane.schedule e.registry.paths .dependency).run (System.run_analyses _ [] .free n), hidle⟩

/-- Once all files have been bound anew twice, every file is steady. -/
theorem steady_of_rebindAll_twice {m n : Nat} (hfirst : (e.rebindAll.run m).isIdle = true)
    (hsecond : ((e.rebindAll.run m).rebindAll.run n).isIdle = true) (q : Path) :
    ((e.rebindAll.run m).rebindAll.run n).steady q = true := by
  have hrest := h.rebindAll hfirst
  have hanchored (q : Path) : (e.rebindAll.run m).anchored q = true :=
    ((h.schedule _).anchored_run hfirst (h.anchored_or_pends q)).2
  have hfirm : (e.rebindAll.run m).rebindAll.Firm := by
    refine ⟨hrest.schedule _, fun q => ?_⟩
    rw [Engine.rebindAll, (bound_schedule hrest.sane.invariant.sound _ _ q).1]
    exact hanchored q
  exact (hfirm.steady_run hsecond (hrest.steady_or_pends q)).2

end AtRest

end Engine

end JavaAtlas
