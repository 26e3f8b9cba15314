import JavaAtlas.Proofs.Queue.Waiting

/-!
# Promises and requests to bind anew

A type is counted as promised exactly as long as a promise of it stands, and a promise stands only
while its file waits or is being analyzed. A waiting file that is to be bound anew is handed to a
worker for that reason and no other.
-/

namespace JavaAtlas

set_option autoImplicit false

open Std (TransCmp OrientedCmp ReflCmp LawfulEqCmp)

namespace Queue

/-! ## Counting promises -/

/-- Every type that is promised, as often as it is promised. -/
def pledged (q : Queue) : List String := q.promises.entries.flatMap (·.2)

/-- How a count is kept: not at all when it is zero. -/
def tally (n : Nat) : Option Nat := if n = 0 then none else some n

/-- The counts are those of the promises that stand. -/
def Counted (q : Queue) : Prop := ∀ t, q.promised.get? t = tally (q.pledged.count t)

theorem get?_countPromise {promised : SortedMap String Nat} {t : String} {n : Nat}
    (h : promised.get? t = tally n) (fqn : String) :
    (countPromise promised fqn).get? t = tally (n + if fqn = t then 1 else 0) := by
  rw [countPromise, SortedMap.get?_alter]
  by_cases heq : fqn = t
  · subst heq
    rw [if_pos ReflCmp.compare_self, h]
    by_cases hn : n = 0 <;> simp [tally, hn]
  · rw [if_neg fun hc => heq (LawfulEqCmp.eq_of_compare hc).symm, h]
    simp [heq]

theorem get?_uncountPromise {promised : SortedMap String Nat} {t : String} {n : Nat}
    (h : promised.get? t = tally n) (fqn : String) :
    (uncountPromise promised fqn).get? t = tally (n - if fqn = t then 1 else 0) := by
  rw [uncountPromise, SortedMap.get?_alter]
  by_cases heq : fqn = t
  · subst heq
    rw [if_pos ReflCmp.compare_self, h]
    by_cases hn : n = 0 <;> simp [tally, hn]
  · rw [if_neg fun hc => heq (LawfulEqCmp.eq_of_compare hc).symm, h]
    simp [heq]

theorem get?_foldl_countPromise {promised : SortedMap String Nat} {t : String} {n : Nat}
    (h : promised.get? t = tally n) (types : List String) :
    (types.foldl countPromise promised).get? t = tally (n + types.count t) := by
  induction types generalizing promised n with
  | nil => exact h
  | cons fqn types ih =>
    rw [List.foldl_cons, ih (get?_countPromise h fqn), List.count_cons]
    simp only [beq_iff_eq]
    congr 1
    omega

theorem get?_foldl_uncountPromise {promised : SortedMap String Nat} {t : String} {n : Nat}
    (h : promised.get? t = tally n) (types : List String) :
    (types.foldl uncountPromise promised).get? t = tally (n - types.count t) := by
  induction types generalizing promised n with
  | nil => exact h
  | cons fqn types ih =>
    rw [List.foldl_cons, ih (get?_uncountPromise h fqn), List.count_cons]
    simp only [beq_iff_eq]
    congr 1
    omega

theorem pledged_release (q : Queue) (path : Path) :
    q.pledged.Perm ((q.release path).2 ++ (q.release path).1.pledged) := by
  cases hfound : q.promises.find? path with
  | none =>
    have hnone : q.promises.contains path = false := by rw [SortedMap.contains, hfound]; rfl
    simp only [pledged, release, SortedMap.get?, hfound, SortedMap.erase_of_not_contains hnone]
    exact List.Perm.refl _
  | some e =>
    have hperm := (SortedMap.perm_erase hfound).flatMap_right (·.2)
    have htypes : (q.release path).2 = e.2 := by simp only [release, SortedMap.get?, hfound]; rfl
    rw [htypes]
    exact hperm

theorem pledged_promise (q : Queue) (path : Path) (types : List String) :
    (q.promise path types).pledged.Perm (types ++ (q.release path).1.pledged) := by
  have hnone : (q.release path).1.promises.contains path = false := by
    have hself : compare path path = .eq := ReflCmp.compare_self
    rw [release, SortedMap.contains_erase, hself]
    rfl
  exact (SortedMap.perm_insert hnone types).flatMap_right (·.2)

theorem Counted.release {q : Queue} (h : q.Counted) (path : Path) : (q.release path).1.Counted := by
  intro t
  have hcount := (pledged_release q path).count_eq t
  have hget := get?_foldl_uncountPromise (h t) (q.release path).2
  rw [List.count_append] at hcount
  rw [hcount, Nat.add_sub_cancel_left] at hget
  exact hget

theorem Counted.promise {q : Queue} (h : q.Counted) (path : Path) (types : List String) :
    (q.promise path types).Counted := by
  intro t
  have hcount := (pledged_promise q path types).count_eq t
  have hget := get?_foldl_countPromise (h.release path t) types
  rw [List.count_append] at hcount
  rw [hcount, Nat.add_comm]
  exact hget

theorem Counted.contains_iff {q : Queue} (h : q.Counted) (t : String) :
    q.promised.contains t = true ↔ t ∈ q.pledged := by
  rw [SortedMap.contains_eq_isSome_get?, h t, tally]
  split
  next hzero => simp [List.count_eq_zero.mp hzero]
  next hpos => simpa using List.count_pos_iff.mp (Nat.pos_of_ne_zero hpos)

/-- A type whose promise is taken back may be promised by another file. -/
theorem Counted.contains_release {q : Queue} (h : q.Counted) (path : Path) {t : String}
    (ht : q.promised.contains t = true) :
    t ∈ (q.release path).2 ∨ (q.release path).1.promised.contains t = true := by
  rw [(h.release path).contains_iff, ← List.mem_append, ← (pledged_release q path).mem_iff]
  exact (h.contains_iff t).mp ht

/-! ## What leaves promises alone -/

/-- The promises and their counts are as they were. -/
structure SamePromises (q q' : Queue) : Prop where
  promises : q'.promises = q.promises
  promised : q'.promised = q.promised

namespace SamePromises

variable {a b c : Queue}

theorem refl (q : Queue) : SamePromises q q := ⟨rfl, rfl⟩

theorem trans (h : SamePromises a b) (h' : SamePromises b c) : SamePromises a c :=
  ⟨h'.promises.trans h.promises, h'.promised.trans h.promised⟩

theorem counted (h : SamePromises a b) (hcounted : a.Counted) : b.Counted := by
  intro t
  rw [pledged, h.promises, h.promised]
  exact hcounted t

end SamePromises

theorem samePromises_invalidate (q : Queue) (p : Path) (t : Trigger) :
    SamePromises q (q.invalidate p t) := by
  rw [invalidate]
  split
  · exact ⟨rfl, rfl⟩
  · exact ⟨promises_enqueue _ _, promised_enqueue _ _⟩

theorem samePromises_foldl_invalidate (q : Queue) (paths : List Path) (t : Trigger) :
    SamePromises q (paths.foldl (fun q p => q.invalidate p t) q) := by
  induction paths generalizing q with
  | nil => exact .refl q
  | cons p paths ih => exact (samePromises_invalidate q p t).trans (ih _)

theorem samePromises_takeMany (n : Nat) (q : Queue) : SamePromises q (takeMany n q).1 := by
  induction n generalizing q with
  | zero => exact .refl q
  | succ n ih =>
    rw [takeMany]
    split
    · exact .refl q
    · rename_i q' job htake
      obtain ⟨-, -, -, -, -, -, -, -, -, hpromises, hpromised⟩ := takeOne_eq_some htake
      exact SamePromises.trans ⟨hpromises, hpromised⟩ (ih q')

theorem samePromises_putDown (q : Queue) (path : Path) (again : Bool) (a : Analysis) :
    SamePromises q (q.putDown path again a) := by
  rw [putDown]
  split
  · exact ⟨promises_enqueue _ _, promised_enqueue _ _⟩
  · split <;> exact ⟨rfl, rfl⟩

theorem samePromises_reportFile (q : Queue) (path : Path) : SamePromises q (q.reportFile path) := by
  rw [reportFile]
  split <;> exact ⟨rfl, rfl⟩

theorem samePromises_closeIfIdle (q : Queue) : SamePromises q q.closeIfIdle := by
  rw [closeIfIdle]
  split
  · split <;> exact ⟨rfl, rfl⟩
  · exact ⟨rfl, rfl⟩

theorem samePromises_finish (q : Queue) (workers : Nat) (path : Path) (a : Analysis) :
    SamePromises q (q.finish workers path (some a)).1 := by
  have hleave : SamePromises q (q.leave path) := ⟨rfl, rfl⟩
  have hsettle : SamePromises q ((q.leave path).settleAnalysis path (q.rerun.contains path) a) := by
    rw [settleAnalysis_eq]
    exact (hleave.trans (samePromises_putDown _ _ _ _)).trans (samePromises_foldl_invalidate _ _ _)
  rw [finish_eq]
  exact ((hsettle.trans (samePromises_reportFile _ path)).trans (samePromises_takeMany _ _)).trans
    (samePromises_closeIfIdle _)

theorem contains_promises_foldl {q : Queue} {promises : List (Path × List String)} {x : Path}
    (h : (promises.foldl (fun q p => q.promise p.1 p.2) q).promises.contains x = true) :
    q.promises.contains x = true ∨ x.OneOf (promises.map (·.1)) := by
  induction promises generalizing q with
  | nil => exact Or.inl h
  | cons p promises ih =>
    rw [List.map_cons, Path.oneOf_cons_iff]
    rcases ih h with hx | hx
    · simp only [promise, release, SortedMap.contains_insert, SortedMap.contains_erase,
        Bool.or_eq_true, Bool.and_eq_true, beq_iff_eq] at hx
      rcases hx with hx | ⟨-, hx⟩
      · exact Or.inr (Or.inl hx)
      · exact Or.inl hx
    · exact Or.inr (Or.inr hx)

theorem counted_foldl_promise {q : Queue} (h : q.Counted) (promises : List (Path × List String)) :
    (promises.foldl (fun q p => q.promise p.1 p.2) q).Counted := by
  induction promises generalizing q with
  | nil => exact h
  | cons p promises ih => exact ih (h.promise p.1 p.2)

/-- Once the promises are made, asking for files leaves them alone. -/
theorem samePromises_schedule (q : Queue) (workers : Nat) (paths : List Path)
    (promises : List (Path × List String)) (t : Trigger) :
    SamePromises (promises.foldl (fun q p => q.promise p.1 p.2) q)
      (q.schedule workers paths promises t).1 :=
  (samePromises_foldl_invalidate _ paths t).trans (samePromises_takeMany _ _)

/-- Beyond the new promises nothing is promised. -/
theorem contains_promises_schedule {q : Queue} {workers : Nat} {paths : List Path}
    {promises : List (Path × List String)} {t : Trigger} {x : Path}
    (h : (q.schedule workers paths promises t).1.promises.contains x = true) :
    q.promises.contains x = true ∨ x.OneOf (promises.map (·.1)) := by
  rw [(samePromises_schedule q workers paths promises t).promises] at h
  exact contains_promises_foldl h

theorem counted_schedule {q : Queue} (h : q.Counted) (workers : Nat) (paths : List Path)
    (promises : List (Path × List String)) (t : Trigger) :
    (q.schedule workers paths promises t).1.Counted :=
  (samePromises_schedule q workers paths promises t).counted (counted_foldl_promise h promises)

/-! ## Requests to bind anew -/

def Due (q : Queue) (p : Path) : Prop := q.Awaits p ∧ q.triggers.get? p = some .dependency

/-- The file is among those handed to workers, to be bound anew. -/
def Handed (jobs : List (Path × Trigger)) (p : Path) : Prop :=
  ∃ job ∈ jobs, compare p job.1 = .eq ∧ job.2 = .dependency

theorem triggers_invalidate (q : Queue) (p : Path) (t : Trigger) :
    (q.invalidate p t).triggers = (q.raiseTrigger p t).triggers := by
  rw [invalidate]
  split
  · rfl
  · exact triggers_enqueue _ _

theorem triggers_putDown (q : Queue) (path : Path) (again : Bool) (a : Analysis) :
    (q.putDown path again a).triggers = q.triggers := by
  rw [putDown]
  split
  · exact triggers_enqueue _ _
  · split <;> rfl

theorem triggers_reportFile (q : Queue) (path : Path) : (q.reportFile path).triggers = q.triggers := by
  rw [reportFile]
  split <;> rfl

theorem triggers_closeIfIdle (q : Queue) : q.closeIfIdle.triggers = q.triggers := by
  rw [closeIfIdle]
  split
  · split <;> rfl
  · rfl

theorem Due.invalidate {q : Queue} {x : Path} (h : q.Due x) (p : Path) (t : Trigger) :
    (q.invalidate p t).Due x := by
  refine ⟨(awaits_invalidate_iff q p x t).mpr (Or.inr h.1), ?_⟩
  rw [triggers_invalidate, raiseTrigger, SortedMap.get?_alter]
  split
  next hc =>
    rw [← SortedMap.get?_congr _ hc, h.2]
    rfl
  next => exact h.2

theorem due_invalidate {q : Queue} {p x : Path} (hc : compare x p = .eq) :
    (q.invalidate p .dependency).Due x := by
  refine ⟨(awaits_invalidate_iff q p x .dependency).mpr (Or.inl hc), ?_⟩
  rw [triggers_invalidate, raiseTrigger, SortedMap.get?_alter, if_pos hc]
  cases q.triggers.get? p with
  | none => rfl
  | some t => cases t <;> rfl

theorem due_foldl_invalidate {q : Queue} {paths : List Path} {t : Trigger} {x : Path}
    (h : q.Due x ∨ (x.OneOf paths ∧ t = .dependency)) :
    (paths.foldl (fun q p => q.invalidate p t) q).Due x := by
  induction paths generalizing q with
  | nil => exact h.resolve_right fun hx => Path.not_oneOf_nil x hx.1
  | cons p paths ih =>
    rw [Path.oneOf_cons_iff] at h
    refine ih ?_
    rcases h with hx | ⟨hx | hx, rfl⟩
    · exact Or.inl (hx.invalidate p t)
    · exact Or.inl (due_invalidate hx)
    · exact Or.inr ⟨hx, rfl⟩

theorem Due.of_eq {q q' : Queue} {x : Path} (h : q.Due x) (hqueued : q'.queued = q.queued)
    (hrerun : q'.rerun = q.rerun) (htriggers : q'.triggers = q.triggers) : q'.Due x := by
  rw [Due, Awaits, hqueued, hrerun, htriggers]
  exact h

theorem Due.takeMany {q : Queue} {x : Path} (h : q.Due x) (n : Nat) :
    (takeMany n q).1.Due x ∨ Handed (takeMany n q).2 x := by
  induction n generalizing q with
  | zero => exact Or.inl h
  | succ n ih =>
    rw [Queue.takeMany]
    split
    · exact Or.inl h
    · rename_i q' job htake
      obtain ⟨rest, -, hjob, -, hqueued, htriggers, -, -, hrerun, -⟩ := takeOne_eq_some htake
      by_cases hc : compare x job.1 = .eq
      · refine Or.inr ⟨job, List.mem_cons_self, hc, ?_⟩
        rw [hjob, ← SortedMap.get?_congr _ hc, h.2]
        rfl
      · have hrest : q'.Due x := by
          rw [Due, Awaits, hqueued, hrerun, htriggers, SortedMap.contains_erase, SortedMap.get?_erase,
            if_neg hc]
          refine ⟨h.1.imp_left fun hx => ?_, h.2⟩
          rw [hx, Bool.and_true, bne_iff_ne]
          exact hc
        refine (ih hrest).imp_right ?_
        rintro ⟨other, hother, hx⟩
        exact ⟨other, List.mem_cons_of_mem _ hother, hx⟩

theorem due_schedule {q : Queue} {paths : List Path} {t : Trigger} {x : Path}
    (h : q.Due x ∨ (x.OneOf paths ∧ t = .dependency)) (workers : Nat)
    (promises : List (Path × List String)) :
    (q.schedule workers paths promises t).1.Due x ∨
      Handed (q.schedule workers paths promises t).2 x := by
  have hpromise : ∀ {q : Queue}, q.Due x → (promises.foldl (fun q p => q.promise p.1 p.2) q).Due x := by
    intro q hx
    induction promises generalizing q with
    | nil => exact hx
    | cons p promises ih => exact ih (hx.of_eq rfl rfl rfl)
  exact (due_foldl_invalidate (h.imp_left hpromise)).takeMany _

/-- Whatever an analysis asks for is to be bound anew. -/
theorem due_finish {q : Queue} {jobs : List Path} {path x : Path} (hwell : q.WellFormed (path :: jobs))
    {a : Analysis} (h : q.Due x ∨ x.OneOf (asked path a)) (workers : Nat) :
    (q.finish workers path (some a)).1.Due x ∨ Handed (q.finish workers path (some a)).2 x := by
  have hsettles : Settles q ((q.leave path).putDown path (q.rerun.contains path) a) jobs path a :=
    putDown_spec a hwell rfl rfl rfl rfl rfl
  have hput : q.Due x → ((q.leave path).putDown path (q.rerun.contains path) a).Due x := by
    intro hx
    refine ⟨hsettles.awaits x hx.1, ?_⟩
    rw [triggers_putDown]
    exact hx.2
  have hsettled : ((q.leave path).settleAnalysis path (q.rerun.contains path) a).Due x := by
    rw [settleAnalysis_eq]
    exact due_foldl_invalidate (h.imp hput fun hx => ⟨hx, rfl⟩)
  generalize hq' : (q.leave path).settleAnalysis path (q.rerun.contains path) a = q' at hsettled
  have hreported : (q'.reportFile path).Due x := by
    obtain ⟨-, -, hqueued, hrerun, -⟩ := reportFile_places q' path
    exact hsettled.of_eq hqueued hrerun (triggers_reportFile q' path)
  rw [finish_eq, hq']
  refine (hreported.takeMany (workers - (q'.reportFile path).running)).imp_left fun hx => ?_
  obtain ⟨-, -, hqueued, hrerun, -⟩ := closeIfIdle_places ((q'.reportFile path).takeReady workers).1
  exact hx.of_eq hqueued hrerun (triggers_closeIfIdle _)

end Queue

end JavaAtlas
