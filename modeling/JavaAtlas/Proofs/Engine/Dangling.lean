import JavaAtlas.Proofs.Engine.NoLostChange
import JavaAtlas.Proofs.Engine.Rebinding
import JavaAtlas.Proofs.Engine.WarmStart
import JavaAtlas.Proofs.Queue.Promises

/-!
# Types that files stay bound to

A promise stands in for a type until the promising file has been analyzed; if the type is not
declared then, every file that relied on it is analyzed again, save the promising file itself. So a
file can be left bound to a type that was promised for that very file and is no longer declared.
Main statement: at rest nothing else dangles, and nothing dangles at all exactly if every type that
files were left with in this way is declared by some file or held by the classpath.
-/

namespace JavaAtlas

set_option autoImplicit false

open Std (TransCmp OrientedCmp ReflCmp)

namespace Engine

def Declares (e : Engine) (t : String) : Prop := e.index.Declares t ∨ e.classpath.hasType t = true

def BoundTo (e : Engine) (p : Path) (t : String) : Prop :=
  ∃ x, e.index.file? p = some x ∧ t ∈ x.symbols.boundTargets

def Due (e : Engine) (p : Path) : Prop := e.queue.Due p ∨ Queue.Handed e.inFlight p

/-! ## What is kept track of -/

/-- The index is exact, its symbols and the stored ones were extracted, and promises stand only for
files on their way. -/
structure Tracked (e : Engine) : Prop where
  exact : e.index.Exact
  sound : ∀ x ∈ e.index.entries, x.symbols.Sound
  written : e.world.Written
  wellFormed : e.queue.WellFormed (e.inFlight.map (·.1))
  counted : e.queue.Counted
  backed : ∀ p, e.queue.promises.contains p = true →
    e.queue.Awaits p ∨ p.OneOf (e.inFlight.map (·.1))

theorem nothing_pending {e : Engine} (hwell : e.queue.WellFormed (e.inFlight.map (·.1)))
    (hidle : e.isIdle = true) : (∀ p, ¬ e.queue.Awaits p) ∧ e.inFlight = [] := by
  obtain ⟨hjobs, hawaits⟩ := hwell.of_isIdle hidle
  exact ⟨hawaits, List.map_eq_nil_iff.mp hjobs⟩

theorem not_due {e : Engine} (hwell : e.queue.WellFormed (e.inFlight.map (·.1)))
    (hidle : e.isIdle = true) (p : Path) : ¬ e.Due p := by
  obtain ⟨hawaits, hjobs⟩ := nothing_pending hwell hidle
  rintro (⟨hp, -⟩ | ⟨job, hjob, -⟩)
  · exact hawaits p hp
  · simp [hjobs] at hjob

namespace Tracked

variable {e : Engine}

theorem not_promised (h : e.Tracked) (hidle : e.isIdle = true) (t : String) :
    e.queue.promised.contains t = false := by
  obtain ⟨hawaits, hjobs⟩ := nothing_pending h.wellFormed hidle
  rw [← Bool.not_eq_true, h.counted.contains_iff, Queue.pledged, List.mem_flatMap]
  rintro ⟨⟨p, types⟩, hmem, -⟩
  rcases h.backed p (SortedMap.contains_iff.mpr ⟨_, hmem, ReflCmp.compare_self⟩) with hp | hp
  · exact hawaits p hp
  · rw [hjobs] at hp
    exact Path.not_oneOf_nil p hp

end Tracked

/-! ## Asking for files -/

/-- More files are asked for, and nothing that is asked for is dropped. -/
structure Asks (e e' : Engine) : Prop where
  index : e'.index = e.index
  classpath : e'.classpath = e.classpath
  tracked : e.Tracked → e'.Tracked
  due : ∀ p, e.Due p → e'.Due p

namespace Asks

variable {a b c : Engine}

theorem trans (h : Asks a b) (h' : Asks b c) : Asks a c :=
  ⟨h'.index.trans h.index, h'.classpath.trans h.classpath, fun ha => h'.tracked (h.tracked ha),
    fun p hp => h'.due p (h.due p hp)⟩

theorem declares_iff (h : Asks a b) (t : String) : b.Declares t ↔ a.Declares t := by
  rw [Declares, h.index, h.classpath, Declares]

theorem boundTo_iff (h : Asks a b) (p : Path) (t : String) : b.BoundTo p t ↔ a.BoundTo p t := by
  rw [BoundTo, h.index, BoundTo]

end Asks

theorem asks_registry (e : Engine) (registry : Registry) :
    Asks e { e with registry := registry } :=
  ⟨rfl, rfl, fun h => ⟨h.exact, h.sound, h.written, h.wellFormed, h.counted, h.backed⟩, fun _ => id⟩

theorem due_schedule (e : Engine) {paths : List Path} {trigger : Trigger} {p : Path}
    (h : e.Due p ∨ (p.OneOf paths ∧ trigger = .dependency)) :
    (e.schedule paths trigger).Due p := by
  have hreads := reads_orderBatch e paths
  have hordered (hp : p.OneOf paths) : p.OneOf (e.orderBatch paths).2.1 := oneOf_orderBatch e hp
  rw [schedule_eq]
  generalize e.orderBatch paths = batch at *
  obtain ⟨e', order, promises⟩ := batch
  have hqueue (hp : e.queue.Due p ∨ (p.OneOf order ∧ trigger = .dependency)) :
      (e'.enqueueBatch order promises trigger).Due p := by
    rw [← hreads.queue] at hp
    refine (Queue.due_schedule hp e'.workers promises).imp_right ?_
    rintro ⟨job, hjob, hc⟩
    exact ⟨job, List.mem_append_right _ hjob, hc⟩
  rcases h with (hp | ⟨job, hjob, hc⟩) | ⟨hp, htrigger⟩
  · exact hqueue (Or.inl hp)
  · refine Or.inr ⟨job, List.mem_append_left _ ?_, hc⟩
    rw [hreads.inFlight]
    exact hjob
  · exact hqueue (Or.inr ⟨hordered hp, htrigger⟩)

theorem tracked_schedule {e : Engine} (h : e.Tracked) (paths : List Path) (trigger : Trigger) :
    (e.schedule paths trigger).Tracked := by
  have hreads := reads_orderBatch e paths
  have hwritten := written_schedule h.written paths trigger
  have hpromised : ∀ p : Path, p.OneOf ((e.orderBatch paths).2.2.map (·.1)) →
      p.OneOf (e.orderBatch paths).2.1 := fun _ => oneOf_order_of_promised e
  rw [schedule_eq] at hwritten ⊢
  generalize e.orderBatch paths = batch at *
  obtain ⟨e', order, promises⟩ := batch
  simp only at hreads hwritten hpromised ⊢
  have hwell : e'.queue.WellFormed (e'.inFlight.map (·.1)) := by
    rw [hreads.queue, hreads.inFlight]
    exact h.wellFormed
  have hcounted : e'.queue.Counted := by
    rw [hreads.queue]
    exact h.counted
  obtain ⟨hwell', hcarries, hall⟩ :=
    Queue.schedule_spec hwell e'.workers order promises trigger
  have hcounted' := Queue.counted_schedule hcounted e'.workers order promises trigger
  have hindex : (e'.enqueueBatch order promises trigger).index = e'.index := rfl
  have hqueue : (e'.enqueueBatch order promises trigger).queue =
      (e'.queue.schedule e'.workers order promises trigger).1 := rfl
  have hin : (e'.enqueueBatch order promises trigger).inFlight =
      e'.inFlight ++ (e'.queue.schedule e'.workers order promises trigger).2 := rfl
  refine ⟨?_, ?_, hwritten, ?_, ?_, fun p hp => ?_⟩
  · rw [hindex, hreads.index]
    exact h.exact
  · rw [hindex, hreads.index]
    exact h.sound
  · rw [hqueue, hin, List.map_append]
    exact hwell'.perm List.perm_append_comm
  · rw [hqueue]
    exact hcounted'
  · rw [hqueue] at hp
    have hpending : (e'.queue.schedule e'.workers order promises trigger).1.Awaits p ∨
        p.OneOf (e'.inFlight.map (·.1)) ∨
        p.OneOf ((e'.queue.schedule e'.workers order promises trigger).2.map (·.1)) := by
      rcases Queue.contains_promises_schedule hp with hold | hp
      · rw [hreads.queue] at hold
        rcases h.backed p hold with hp | hp
        · rw [← hreads.queue] at hp
          exact (hcarries.awaits p hp).imp_right Or.inr
        · rw [← hreads.inFlight] at hp
          exact Or.inr (Or.inl hp)
      · exact (hall p (hpromised p hp)).imp_right Or.inr
    rw [hqueue, hin, List.map_append, Path.oneOf_append_iff]
    exact hpending

theorem asks_schedule (e : Engine) (paths : List Path) (trigger : Trigger) :
    Asks e (e.schedule paths trigger) := by
  have hreads := reads_orderBatch e paths
  refine ⟨?_, ?_, fun h => tracked_schedule h paths trigger, fun p hp => e.due_schedule (Or.inl hp)⟩
  · rw [schedule_eq]
    exact hreads.index
  · rw [schedule_eq]
    exact hreads.classpath

theorem asks_drainChanges (e : Engine) : Asks e e.drainChanges.1 := by
  rw [drainChanges]
  rcases e.registry.collect 0 with ⟨registry, events⟩
  simp only
  split
  · exact e.asks_registry registry
  · exact (e.asks_registry registry).trans (asks_schedule _ _ .content)

/-! ## What an analysis asks for -/

section Conclude

variable {e e' : Engine} {path : Path} {trigger : Trigger} {rest : List (Path × Trigger)}
  {a : Analysis} {x : Path}

theorem wellFormed_release (hwell : e.queue.WellFormed (e.inFlight.map (·.1)))
    (hin : e.inFlight = (path, trigger) :: rest) (hkeeps : Keeps (e.withJobs rest) e') :
    (e'.queue.release path).1.WellFormed (path :: rest.map (·.1)) := by
  rw [hin, List.map_cons] at hwell
  have hqueue : e'.queue = e.queue := hkeeps.queue
  rw [hqueue]
  exact hwell.of_eq rfl rfl rfl rfl rfl

theorem index_step (hstep : e.step = e'.conclude path a) : e.step.index = e'.index := by
  rw [hstep, index_conclude]

theorem classpath_step (hkeeps : Keeps (e.withJobs rest) e')
    (hstep : e.step = e'.conclude path a) : e.step.classpath = e.classpath := by
  rw [hstep, classpath_conclude]
  exact hkeeps.classpath

/-- What waits to be bound anew or is asked for is to be bound anew. -/
theorem due_of_asked (hwell : e.queue.WellFormed (e.inFlight.map (·.1)))
    (hin : e.inFlight = (path, trigger) :: rest) (hkeeps : Keeps (e.withJobs rest) e') (hstep : e.step = e'.conclude path a)
    (hx : e.queue.Due x ∨ x.OneOf (Queue.asked path (e'.verdict path a))) : e.step.Due x := by
  have hreleased := wellFormed_release hwell hin hkeeps
  have hqueue : e'.queue = e.queue := hkeeps.queue
  have hrelease : (e'.queue.release path).1.Due x ∨ x.OneOf (Queue.asked path (e'.verdict path a)) := by
    rw [hqueue]
    exact hx.imp_left fun hx => hx.of_eq rfl rfl rfl
  have hfinish := Queue.due_finish hreleased hrelease e'.workers
  rw [hstep, Due, queue_conclude, inFlight_conclude]
  generalize (e'.queue.release path).1.finish e'.workers path (some (e'.verdict path a)) = r at *
  refine hfinish.imp_right ?_
  rintro ⟨job, hjob, hc⟩
  exact ⟨job, List.mem_append_right _ hjob, hc⟩

/-- Whatever was to be bound anew still is, unless this analysis was to do it. -/
theorem due_step (hwell : e.queue.WellFormed (e.inFlight.map (·.1)))
    (hin : e.inFlight = (path, trigger) :: rest) (hkeeps : Keeps (e.withJobs rest) e') (hstep : e.step = e'.conclude path a) (hx : e.Due x) :
    e.step.Due x ∨ (compare x path = .eq ∧ trigger = .dependency) := by
  have hrest : e'.inFlight = rest := hkeeps.inFlight
  rcases hx with hx | ⟨job, hjob, hc, hdependency⟩
  · exact Or.inl (due_of_asked hwell hin hkeeps hstep (Or.inl hx))
  · rw [hin, List.mem_cons] at hjob
    rcases hjob with rfl | hjob
    · exact Or.inr ⟨hc, hdependency⟩
    · rw [hstep, Due, inFlight_conclude, hrest]
      exact Or.inl (Or.inr ⟨job, List.mem_append_left _ hjob, hc, hdependency⟩)

/-- A type that was promised is promised by another file, or was promised for this one. -/
theorem promised_step (hcounted : e.queue.Counted) (hkeeps : Keeps (e.withJobs rest) e')
    (hstep : e.step = e'.conclude path a) {t : String}
    (ht : e.queue.promised.contains t = true) :
    e.step.queue.promised.contains t = true ∨ t ∈ (e.queue.promises.get? path).getD [] := by
  have hqueue : e'.queue = e.queue := hkeeps.queue
  have hsame := Queue.samePromises_finish (e'.queue.release path).1 e'.workers path
    (e'.verdict path a)
  rw [hstep, queue_conclude, hsame.promised, hqueue]
  exact (hcounted.contains_release path ht).symm

end Conclude

/-- An analysis takes back the promises made for its file and makes none. -/
theorem counted_step {e : Engine} (h : e.queue.Counted) :
    e.step.queue.Counted ∧ e.step.queue.pledged ⊆ e.queue.pledged := by
  cases hin : e.inFlight with
  | nil =>
    rw [step_of_nil hin]
    exact ⟨h, List.Subset.refl _⟩
  | cons job rest =>
    obtain ⟨path, trigger⟩ := job
    obtain ⟨e', a, -, hkeeps, -, hstep⟩ := step_of_cons hin
    have hqueue : e'.queue = e.queue := hkeeps.queue
    have hsame := Queue.samePromises_finish (e'.queue.release path).1 e'.workers path
      (e'.verdict path a)
    have hpledged := (e.queue.pledged_release path).symm.subset
    rw [hstep, queue_conclude]
    rw [← hqueue] at h hpledged
    refine ⟨hsame.counted (h.release path), ?_⟩
    rw [Queue.pledged, hsame.promises, ← hqueue]
    exact fun t ht => hpledged (List.mem_append_right _ ht)

theorem tracked_step {e : Engine} (h : e.Tracked) : e.step.Tracked := by
  have hcounted := (counted_step h.counted).1
  cases hin : e.inFlight with
  | nil =>
    rw [step_of_nil hin]
    exact h
  | cons job rest =>
    obtain ⟨path, trigger⟩ := job
    obtain ⟨e', a, hanalyze, hkeeps, heffect, hstep⟩ := step_of_cons hin
    have hwritten := written_step h.written
    rw [hstep] at hwritten hcounted ⊢
    have hwell := wellFormed_release h.wellFormed hin hkeeps
    have hqueue : e'.queue = e.queue := hkeeps.queue
    have hrest : e'.inFlight = rest := hkeeps.inFlight
    have hsame := Queue.samePromises_finish (e'.queue.release path).1 e'.workers path
      (e'.verdict path a)
    obtain ⟨hwell', hawaits, -⟩ := Queue.finish_spec hwell e'.workers (e'.verdict path a)
    refine ⟨?_, ?_, hwritten, ?_, hcounted, ?_⟩
    · rw [index_conclude]
      exact heffect.exact h.exact
    · rw [index_conclude]
      exact fun x hx => heffect.sound h.exact h.written h.sound hx
    · rw [queue_conclude, inFlight_conclude, hrest, List.map_append]
      exact hwell'.perm List.perm_append_comm
    · intro p hp
      rw [queue_conclude, hsame.promises, hqueue, Queue.release, SortedMap.contains_erase,
        Bool.and_eq_true, bne_iff_ne] at hp
      rw [queue_conclude, inFlight_conclude, hrest, List.map_append, Path.oneOf_append_iff]
      rcases h.backed p hp.2 with hx | hx
      · refine (hawaits p (Or.inl ?_)).imp_right Or.inr
        rw [hqueue]
        exact hx
      · rw [hin, List.map_cons, Path.oneOf_cons_iff] at hx
        exact Or.inr (Or.inl (hx.resolve_left hp.1))

/-! ## Files left bound to a type -/

/-- For each file, types it is bound to. -/
abbrev Bindings := Path → String → Prop

/-- The next analysis is of this file and ends with nothing that declares the type, which was
promised for the file itself or is taken by the index for a type that it is not. -/
def Strands (e : Engine) (p : Path) (t : String) : Prop :=
  (∃ job, e.inFlight.head? = some job ∧ compare p job.1 = .eq) ∧ ¬ e.step.Declares t ∧
    (t ∈ (e.queue.promises.get? p).getD [] ∨ e.step.index.typeExists t = true)

/-- The types files were left with, as long as they are bound to them. -/
def stranded (e : Engine) (s : Bindings) : Bindings := fun p t =>
  e.step.BoundTo p t ∧ (s p t ∨ e.Strands p t)

/-- Whatever a file is bound to is declared, promised, to be bound anew, or what it was left with. -/
structure Covered (e : Engine) (s : Bindings) : Prop where
  tracked : e.Tracked
  bound : ∀ x ∈ e.index.entries, ∀ t ∈ x.symbols.boundTargets,
    e.Declares t ∨ e.queue.promised.contains t = true ∨ e.Due x.path ∨ s x.path t
  stranded : ∀ p t, s p t → e.BoundTo p t

/-- A file that lost a promise not made for it is to be bound anew. -/
theorem declares_or_disappointed {e : Engine} (hexact : e.index.Exact)
    (hsound : ∀ x ∈ e.index.entries, x.symbols.Sound) {x : FileEntry} (hx : x ∈ e.index.entries)
    {t : String} (ht : t ∈ x.symbols.boundTargets) (path : Path) {promised : List String}
    (hpromised : t ∈ promised) :
    e.index.Declares t ∨ x.path.OneOf (e.disappointed path promised) := by
  by_cases hdeclared : t ∈ ((e.index.file? path).map fun f => f.symbols.types.map (·.fqn)).getD []
  · cases hfile : e.index.file? path with
    | none => simp [hfile] at hdeclared
    | some y =>
      rw [hfile] at hdeclared
      exact Or.inl ⟨y, (hexact.file?_eq_some_iff.mp hfile).1, hdeclared⟩
  · have hreference := ((hsound x hx).mem_boundTargets_iff t).mp ht
    have husage := (hexact.mem_usages_iff t x.path).mpr ⟨x, hx, rfl, hreference⟩
    obtain ⟨usage, husage, hpath⟩ := List.mem_map.mp husage
    refine Or.inr (Path.oneOf_of_mem (List.mem_map.mpr ⟨usage, List.mem_flatMap.mpr ⟨t, ?_, husage⟩,
      hpath⟩))
    exact List.mem_filter.mpr ⟨hpromised, by simpa using hdeclared⟩

section Analyzed

variable {e e' : Engine} {s : Bindings} {path : Path} {trigger : Trigger}
  {rest : List (Path × Trigger)} {a : Analysis} {x : FileEntry} {t : String}

theorem stranded_of_strands (hin : e.inFlight = (path, trigger) :: rest)
    (hbound : e.step.BoundTo x.path t) (hc : compare x.path path = .eq)
    (hnot : ¬ e.step.Declares t)
    (hwhy : t ∈ (e.queue.promises.get? path).getD [] ∨ e.step.index.typeExists t = true) :
    e.stranded s x.path t := by
  refine ⟨hbound, Or.inr ⟨⟨(path, trigger), by rw [hin]; rfl, hc⟩, hnot, ?_⟩⟩
  rw [SortedMap.get?_congr _ hc]
  exact hwhy

/-- The analyzed file can be bound to what nothing declares only on a promise, or for its own. -/
theorem Covered.analyzed (h : e.Covered s) (hin : e.inFlight = (path, trigger) :: rest)
    (hkeeps : Keeps (e.withJobs rest) e')
    (heffect : Effect (e.withJobs rest) path trigger e'.index a)
    (hstep : e.step = e'.conclude path a) (hx : x ∈ e.step.index.entries)
    (ht : t ∈ x.symbols.boundTargets) (hc : compare x.path path = .eq)
    (hnot : ¬ e.step.Declares t) :
    e.step.queue.promised.contains t = true ∨ e.step.Due x.path ∨ e.stranded s x.path t := by
  have hindex := index_step hstep
  have hclasspath := classpath_step hkeeps hstep
  have hbound : e.step.BoundTo x.path t := ⟨x, (tracked_step h.tracked).exact.file?_of_mem hx, ht⟩
  have hentry : x ∈ e'.index.entries := hindex ▸ hx
  have hpromise (hp : e.queue.promised.contains t = true) :
      e.step.queue.promised.contains t = true ∨ e.step.Due x.path ∨ e.stranded s x.path t := by
    refine (promised_step h.tracked.counted hkeeps hstep hp).imp_right fun hown => Or.inr ?_
    exact stranded_of_strands hin hbound hc hnot (Or.inl hown)
  rcases heffect.bound h.tracked.exact hentry hc with ⟨hsame, rfl⟩ | hrequeue | hknown
  · have hold : x ∈ e.index.entries := hsame ▸ hentry
    have hbefore : ¬ e.Declares t := by
      rw [Declares, hindex, hsame, hclasspath] at hnot
      exact hnot
    rcases (h.bound x hold t ht).resolve_left hbefore with hp | hdue | hs
    · exact hpromise hp
    · have hdue := (due_step h.tracked.wellFormed hin hkeeps hstep hdue).resolve_right (by simp)
      exact Or.inr (Or.inl hdue)
    · exact Or.inr (Or.inr ⟨hbound, Or.inl hs⟩)
  · have hasked := oneOf_asked_of_requeue (a := e'.verdict path a) hrequeue hc
    exact Or.inr (Or.inl (due_of_asked h.tracked.wellFormed hin hkeeps hstep (Or.inr hasked)))
  · rcases hknown t ht with hown | hknown | hp
    · exact absurd (Or.inl ⟨x, hx, hown⟩) hnot
    · -- the classpath does not hold it, so the index takes it for a type
      have htype : e.step.index.typeExists t = true := by
        rw [hasType_contextOf, Bool.or_eq_true] at hknown
        rw [hindex]
        refine hknown.resolve_right fun hheld => hnot (Or.inr ?_)
        rw [hclasspath]
        exact hheld
      exact Or.inr (Or.inr (stranded_of_strands hin hbound hc hnot (Or.inr htype)))
    · exact hpromise hp

/-- Any other file that loses what it is bound to is to be bound anew. -/
theorem Covered.elsewhere (h : e.Covered s) (hin : e.inFlight = (path, trigger) :: rest)
    (hkeeps : Keeps (e.withJobs rest) e')
    (heffect : Effect (e.withJobs rest) path trigger e'.index a)
    (hstep : e.step = e'.conclude path a) (hx : x ∈ e.step.index.entries)
    (ht : t ∈ x.symbols.boundTargets) (hc : compare x.path path ≠ .eq)
    (hnot : ¬ e.step.Declares t) :
    e.step.queue.promised.contains t = true ∨ e.step.Due x.path ∨ e.stranded s x.path t := by
  have htracked := tracked_step h.tracked
  have hindex := index_step hstep
  have hclasspath := classpath_step hkeeps hstep
  have hbound : e.step.BoundTo x.path t := ⟨x, htracked.exact.file?_of_mem hx, ht⟩
  have hentry : x ∈ e'.index.entries := hindex ▸ hx
  have hold : x ∈ e.index.entries := (heffect.mem_entries h.tracked.exact hentry).resolve_right
    fun heq => hc (by rw [heq]; exact ReflCmp.compare_self)
  have hsound : ∀ y ∈ e'.index.entries, y.symbols.Sound := fun y hy =>
    htracked.sound y (hindex ▸ hy)
  have hundeclared : ¬ e'.index.Declares t := fun hd => hnot (Or.inl (hindex ▸ hd))
  have hasked (hx : x.path.OneOf (SortedSet.toList a.stale) ∨
      x.path.OneOf (e'.disappointed path (e'.queue.release path).2)) : e.step.Due x.path :=
    due_of_asked h.tracked.wellFormed hin hkeeps hstep (Or.inr (oneOf_asked_of_verdict hx hc))
  rcases h.bound x hold t ht with hd | hp | hdue | hs
  · have hdeclared : e.index.Declares t := hd.resolve_right fun hheld =>
      hnot (Or.inr (by rw [hclasspath]; exact hheld))
    have hstale := heffect.declares_or_stale h.tracked.exact h.tracked.sound hsound hold hc ht
      hdeclared
    exact Or.inr (Or.inl (hasked (Or.inl (hstale.resolve_left hundeclared))))
  · refine (promised_step h.tracked.counted hkeeps hstep hp).imp_right fun hown => Or.inl (hasked ?_)
    have hexact : e'.index.Exact := hindex ▸ htracked.exact
    have hqueue : e'.queue = e.queue := hkeeps.queue
    rw [← hqueue] at hown
    have hdisappointed := declares_or_disappointed hexact hsound hentry ht path hown
    exact Or.inr (hdisappointed.resolve_left hundeclared)
  · have hdue := due_step h.tracked.wellFormed hin hkeeps hstep hdue
    exact Or.inr (Or.inl (hdue.resolve_right fun hboth => hc hboth.1))
  · exact Or.inr (Or.inr ⟨hbound, Or.inl hs⟩)

end Analyzed

theorem Covered.step {e : Engine} {s : Bindings} (h : e.Covered s) :
    e.step.Covered (e.stranded s) := by
  have htracked := tracked_step h.tracked
  refine ⟨htracked, fun x hx t ht => ?_, fun p t hs => hs.1⟩
  by_cases hdeclares : e.step.Declares t
  · exact Or.inl hdeclares
  refine Or.inr ?_
  cases hin : e.inFlight with
  | nil =>
    have hbound : e.step.BoundTo x.path t := ⟨x, htracked.exact.file?_of_mem hx, ht⟩
    have hstep := step_of_nil hin
    rw [hstep] at hx hdeclares ⊢
    refine ((h.bound x hx t ht).resolve_left hdeclares).imp_right fun hrest => ?_
    exact hrest.imp_right fun hs => ⟨hbound, Or.inl hs⟩
  | cons job rest =>
    obtain ⟨path, trigger⟩ := job
    obtain ⟨e', a, -, hkeeps, heffect, hstep⟩ := step_of_cons hin
    by_cases hc : compare x.path path = .eq
    · exact h.analyzed hin hkeeps heffect hstep hx ht hc hdeclares
    · exact h.elsewhere hin hkeeps heffect hstep hx ht hc hdeclares

/-! ## Sessions -/

/-- An engine whose stores were written by earlier ones, after calls each made at rest and any number
of analyses; files on disk may change at any time. -/
inductive Session : Engine → Bindings → Prop
  | start (config : EngineConfig) (world : World) (hwritten : world.Written) :
    Session (.ofConfig config world) fun _ _ => False
  | disk {e : Engine} {s : Bindings} (h : Session e s) (disk : Disk) :
    Session { e with world := { e.world with disk := disk } } s
  | call {e e' : Engine} {s : Bindings} (h : Session e s) (hidle : e.isIdle = true) (call : Call)
    (hcall : call.run e = some e') : Session e' s
  | reload {e e' : Engine} {s : Bindings} (h : Session e s) (hidle : e.isIdle = true)
    (project : Project) (hreload : e.reload project = (e', none)) : Session e' s
  | work {e : Engine} {s : Bindings} (h : Session e s) : Session e.step (e.stranded s)

theorem Session.invariant {e : Engine} {s : Bindings} (h : Session e s) :
    System.Invariant ⟨e, [], .free⟩ := by
  induction h with
  | start config world hwritten => exact System.invariant_start config world
  | disk h disk ih => exact ih.step (.disk _ [] .free disk)
  | call h hidle call hcall ih => exact ih.run (System.run_call hcall [])
  | reload h hidle project hreload ih => exact ih.run (System.run_reload hreload [])
  | work h ih => exact ih.run (System.run_step _ [] .free)

theorem oneOf_paths_of_mem_entries {e : Engine} (h : System.Invariant ⟨e, [], .free⟩)
    (hexact : e.index.Exact) (hidle : e.isIdle = true) {x : FileEntry} (hx : x ∈ e.index.entries) :
    x.path.OneOf e.registry.paths := by
  obtain ⟨removed, hlanded, -⟩ := h.settled hidle x.path
  cases hknown : e.registry.known? x.path with
  | none =>
    have hnone := ((landed_of_unknown hknown removed).mp hlanded).2
    simp [hexact.file?_of_mem hx] at hnone
  | some f => exact Registry.oneOf_paths_of_known? hknown

theorem Covered.secured {e : Engine} {s : Bindings} (h : e.Covered s) (hidle : e.isIdle = true)
    {x : FileEntry} (hx : x ∈ e.index.entries) {t : String} (ht : t ∈ x.symbols.boundTargets) :
    e.Declares t ∨ s x.path t := by
  rcases h.bound x hx t ht with hd | hp | hdue | hs
  · exact Or.inl hd
  · rw [h.tracked.not_promised hidle] at hp
    simp at hp
  · exact absurd hdue (not_due h.tracked.wellFormed hidle x.path)
  · exact Or.inr hs

theorem Covered.asks {e e' : Engine} {s : Bindings} (h : e.Covered s) (hidle : e.isIdle = true)
    (hasks : Asks e e') : e'.Covered s := by
  refine ⟨hasks.tracked h.tracked, fun x hx t ht => ?_, fun p t hs => ?_⟩
  · rw [hasks.index] at hx
    rw [hasks.declares_iff]
    exact (h.secured hidle hx ht).imp_right fun hs => Or.inr (Or.inr hs)
  · rw [hasks.boundTo_iff]
    exact h.stranded p t hs

/-- A project changes settings and stores, which nothing that is kept track of depends on. -/
theorem tracked_adopt {e : Engine} (h : e.Tracked) (project : Project) :
    (e.adopt project).Tracked ∧ (e.adopt project).index = e.index ∧
      (e.adopt project).registry = e.registry := by
  have hagrees := agrees_openStore { e with
    parses := e.parses.setLanguageLevel project.languageLevel
    classpath := .buildLenient e.world.disk project.classpath } project
  have hindex : (e.adopt project).index = e.index := hagrees.index
  have hqueue : (e.adopt project).queue = e.queue := hagrees.queue
  have hin : (e.adopt project).inFlight = e.inFlight := hagrees.inFlight
  refine ⟨⟨?_, ?_, written_adopt h.written project, ?_, ?_, ?_⟩, hindex, hagrees.registry⟩
  · rw [hindex]
    exact h.exact
  · rw [hindex]
    exact h.sound
  · rw [hqueue, hin]
    exact h.wellFormed
  · rw [hqueue]
    exact h.counted
  · rw [hqueue, hin]
    exact h.backed

theorem asks_known {e e' : Engine} (h : e' = if e.registry.paths.isEmpty then e
      else e.schedule e.registry.paths .dependency) :
    Asks e e' ∧ ∀ p, p.OneOf e.registry.paths → e'.Due p := by
  subst h
  split
  next hnone =>
    rw [List.isEmpty_iff.mp hnone]
    exact ⟨e.asks_registry e.registry, fun p hp => absurd hp (Path.not_oneOf_nil p)⟩
  next => exact ⟨asks_schedule e _ _, fun p hp => e.due_schedule (Or.inr ⟨hp, rfl⟩)⟩

theorem Covered.reload {e e' : Engine} {s : Bindings} (h : e.Covered s)
    (hinvariant : System.Invariant ⟨e, [], .free⟩) (hidle : e.isIdle = true) {project : Project}
    (hreload : e.reload project = (e', none)) : e'.Covered s := by
  obtain ⟨htracked, hindex, hregistry⟩ := tracked_adopt h.tracked project
  have hknown (x : FileEntry) (hx : x ∈ e.index.entries) :
      x.path.OneOf (e.adopt project).registry.paths := by
    rw [hregistry]
    exact oneOf_paths_of_mem_entries hinvariant h.tracked.exact hidle hx
  rw [reload_eq] at hreload
  generalize e.adopt project = adopted at *
  generalize hfirst : (if adopted.registry.paths.isEmpty then adopted
    else adopted.schedule adopted.registry.paths .dependency) = queued at hreload
  obtain ⟨hasks, hdue⟩ := asks_known hfirst.symm
  split at hreload
  · simp at hreload
  · rename_i rooted hroots
    obtain ⟨registry, rfl, -⟩ := registerRoots_spec hroots
    obtain ⟨rfl, -⟩ := Prod.mk.inj hreload
    have hrest := (queued.asks_registry registry).trans (asks_drainChanges _)
    have hall := hasks.trans hrest
    generalize ({ queued with registry := registry } : Engine).drainChanges.1 = drained at *
    have hsame : drained.index = e.index := hall.index.trans hindex
    have hdrained := hall.tracked htracked
    refine ⟨⟨hdrained.exact, hdrained.sound, hdrained.written, hdrained.wellFormed, hdrained.counted,
      hdrained.backed⟩, fun x hx t ht => ?_, fun p t hs => ?_⟩
    · have hold : x ∈ e.index.entries := hsame ▸ hx
      exact Or.inr (Or.inr (Or.inl (hrest.due x.path (hdue x.path (hknown x hold)))))
    · have hbound := h.stranded p t hs
      rw [BoundTo, ← hsame] at hbound
      exact hbound

theorem covered_start (config : EngineConfig) {world : World} (h : world.Written) :
    (ofConfig config world).Covered fun _ _ => False where
  tracked := {
    exact := Snapshot.exact_of_empty 0
    sound := fun x hx => by simp [ofConfig, Snapshot.entries, SortedMap.values,
      EmptyCollection.emptyCollection] at hx
    written := h
    wellFormed := (System.invariant_start config world).queue
    counted := fun t => rfl
    backed := fun p hp => by
      simp [ofConfig, SortedMap.contains, SortedMap.find?, EmptyCollection.emptyCollection] at hp }
  bound x hx := by
    simp [ofConfig, Snapshot.entries, SortedMap.values, EmptyCollection.emptyCollection] at hx
  stranded p t hs := hs.elim

theorem Session.covered {e : Engine} {s : Bindings} (h : Session e s) : e.Covered s := by
  induction h with
  | start config world hwritten => exact covered_start config hwritten
  | disk h disk ih =>
    exact ⟨⟨ih.tracked.exact, ih.tracked.sound, ih.tracked.written, ih.tracked.wellFormed,
      ih.tracked.counted, ih.tracked.backed⟩, ih.bound, ih.stranded⟩
  | call h hidle call hcall ih =>
    rw [Call.run_eq] at hcall
    obtain ⟨registry, -, rfl⟩ := Option.map_eq_some_iff.mp hcall
    exact ih.asks hidle ((asks_registry _ registry).trans (asks_drainChanges _))
  | reload h hidle project hreload ih => exact ih.reload h.invariant hidle hreload
  | work h ih => exact ih.step

/-- The stores an engine leaves will do for the next one. -/
theorem Session.written {e : Engine} {s : Bindings} (h : Session e s) : e.world.Written :=
  h.covered.tracked.written

/-- At rest a file is bound to what is declared and to what it was left with; so everything it is
bound to is declared exactly if everything files were left with is. -/
theorem declared_iff_stranded_declared {e : Engine} {s : Bindings} (h : Session e s)
    (hidle : e.isIdle = true) :
    (∀ x ∈ e.index.entries, ∀ t ∈ x.symbols.boundTargets, e.Declares t ∨ s x.path t) ∧
      ((∀ x ∈ e.index.entries, ∀ t ∈ x.symbols.boundTargets, e.Declares t) ↔
        ∀ p t, s p t → e.Declares t) := by
  have hcovered := h.covered
  refine ⟨fun x hx t ht => hcovered.secured hidle hx ht, fun hall p t hs => ?_, fun hall x hx t ht => ?_⟩
  · obtain ⟨x, hfile, ht⟩ := hcovered.stranded p t hs
    exact hall x (hcovered.tracked.exact.file?_eq_some_iff.mp hfile).1 t ht
  · exact (hcovered.secured hidle hx ht).elim id (hall x.path t)

theorem written_onDisk (f : Path × String) (rest : List (Path × String)) :
    (onDisk (f :: rest)).Written := by
  apply every_onDisk
  · intro d hnone name bytes hnode
    simp [hnone] at hnode
  · intro d d' h hstore
    exact h.store ⟨_, Or.inr ⟨_, rfl⟩⟩ hstore

/-- The first analysis takes what is on record, the second brings the type, and the third binds it. -/
theorem pair_rests :
    let r := load cached (onDisk pair) oneRoot
    r.2.isNone = true ∧ r.1.step.queue.cacheHits = 1 ∧ r.1.step.step.step.isIdle = true ∧
      (r.1.step.step.step.index.entries.map fun x => (x.path, x.symbols.boundTargets)) =
        [(waiting.1, ["B", "B"]), (awaited.1, [])] := by
  decide +kernel

/-- A file is bound to the type of another, first from a record and then anew. -/
theorem declared_iff_stranded_declared_pair :
    let e := (load cached (onDisk pair) oneRoot).1
    let s := e.step.step.stranded (e.step.stranded (e.stranded fun _ _ => False))
    let e' := e.step.step.step
    Session e' s ∧ e'.isIdle = true ∧ e.step.queue.cacheHits = 1 ∧
      (∃ x ∈ e'.index.entries, x.symbols.boundTargets = ["B", "B"]) ∧
      ((∀ x ∈ e'.index.entries, ∀ t ∈ x.symbols.boundTargets, e'.Declares t) ↔
        ∀ p t, s p t → e'.Declares t) := by
  obtain ⟨hnone, hhit, hidle, hbound⟩ := pair_rests
  have hreload : (ofConfig cached (onDisk pair)).reload oneRoot = ((load cached (onDisk pair) oneRoot).1, none) :=
    load_eq_of_isNone hnone
  have hstart := Session.start cached (onDisk pair) (written_onDisk _ _)
  have hsession := (hstart.reload rfl oneRoot hreload).work.work.work
  generalize (load cached (onDisk pair) oneRoot).1 = e at *
  have hmem : (waiting.1, ["B", "B"]) ∈
      e.step.step.step.index.entries.map fun x => (x.path, x.symbols.boundTargets) := by simp [hbound]
  obtain ⟨x, hx, hpair⟩ := List.mem_map.mp hmem
  exact ⟨hsession, hidle, hhit, ⟨x, hx, (Prod.mk.inj hpair).2⟩,
    (declared_iff_stranded_declared hsession hidle).2⟩

end Engine

end JavaAtlas
