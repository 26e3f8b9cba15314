import JavaAtlas.Proofs.Engine.Extracted
import JavaAtlas.Proofs.Engine.Opening
import JavaAtlas.Proofs.Engine.Retries
import JavaAtlas.Proofs.Queue.Sessions

/-!
# Edits that keep what a file declares

A file is edited at rest, and after its analysis it declares to others what it did before. Its
dependents are then left alone, and it is not asked for again itself. Main statement: that analysis
is the only one exactly if no other file is woken, and a file is woken in three ways. It waits for
the package of the edited file while no other file is in that package, which then counts as new each
time; it waits for the simple name of a type that had another one under the same full name; or it
relied on a type that a record promised.
-/

namespace JavaAtlas

set_option autoImplicit false

open Std (TransCmp OrientedCmp ReflCmp)

namespace Engine

/-! ## One file with a worker -/

/-- A file is with a worker because of its text, and nothing else is left to do. -/
structure Sole (e : Engine) (p : Path) : Prop where
  sane : System.Sane ⟨e, [], .free⟩
  inFlight : e.inFlight = [(p, .content)]
  triggers : e.queue.triggers = ∅

theorem order_single (e : Engine) (p : Path) : (e.orderBatch [p]).2.1 = [p] := by
  have hordered (hints : BatchOrder.Hints) :
      (if hints.isEmpty then [p] else BatchOrder.byHints [p] hints) = [p] := by
    split
    · rfl
    · exact List.perm_singleton.mp (BatchOrder.byHints_perm [p] hints)
  rw [orderBatch, show SortedSet.toList (SortedSet.ofList [p]) = [p] from rfl]
  exact hordered _

/-- What an edit at rest leaves to be done. -/
structure Edits (e e' : Engine) (p : Path) (text : String) : Prop extends Sole e' p.normalize where
  index : e'.index = e.index
  completed : e'.queue.completed = e.queue.completed
  config : e'.config = e.config
  known : ∀ q, e'.registry.known? q = (e.registry.openFile p text).1.known? q

theorem AtRest.edit {e e' : Engine} (h : e.AtRest) {p : Path} {text : String} {version : Nat}
    (hedit : e.edit p text = (e', .ok version)) : Edits e e' p text := by
  have hcall := Call.run_edit hedit
  have hsane := h.sane.run (System.run_call hcall [])
  obtain ⟨registry, hdrained, hfiles⟩ := h.drainChanges_openFile p text
  have heq : e' = { e with registry := registry }.schedule [p.normalize] .content := by
    rw [Call.run_eq] at hcall
    obtain ⟨opened, hchange, rfl⟩ := Option.map_eq_some_iff.mp hcall
    obtain ⟨-, rfl⟩ := Call.change_edit_eq_some_iff.mp hchange
    exact hdrained
  obtain ⟨l, hreached, -⟩ := h.sane.traced.history
  have hkept := (Queue.runs_of_reached hreached).kept
  have hreads := reads_orderBatch { e with registry := registry } [p.normalize]
  have horder := order_single { e with registry := registry } p.normalize
  rw [schedule_eq] at heq
  generalize ({ e with registry := registry } : Engine).orderBatch [p.normalize] = batch at *
  obtain ⟨ordered, order, promises⟩ := batch
  obtain rfl : order = [p.normalize] := horder
  have hqueue : ordered.queue = e.queue := hreads.queue
  have hin : ordered.inFlight = [] := hreads.inFlight.trans h.empty.2
  have hworkers : 0 < ordered.workers := Nat.le_max_right _ _
  obtain ⟨hjob, hleft⟩ :=
    Queue.schedule_single hkept h.idle hworkers p.normalize promises .content
  subst heq
  refine ⟨⟨hsane, ?_, ?_⟩, hreads.index, ?_, hreads.config, fun q => ?_⟩
  · simp only [enqueueBatch, hin, List.nil_append, hqueue]
    exact hjob
  · simp only [enqueueBatch, hqueue]
    exact hleft
  · simp only [enqueueBatch, hqueue]
    exact Queue.completed_schedule _ _ _ _ _
  · refine (hreads.registry.known q).trans (Registry.known?_of_get? ?_)
    exact congrArg (·.get? q) hfiles

theorem completed_step {e : Engine} {job : Path × Trigger} {rest : List (Path × Trigger)}
    (hin : e.inFlight = job :: rest) : e.step.queue.completed = e.queue.completed + 1 := by
  obtain ⟨e', a, -, hkeeps, -, hstep⟩ := step_of_cons hin
  have hqueue : e'.queue = e.queue := hkeeps.queue
  rw [hstep, queue_conclude, Queue.completed_finish, hqueue]
  rfl

theorem completed_le_run (e : Engine) (n : Nat) : e.queue.completed ≤ (e.run n).queue.completed := by
  refine run_of_step (P := fun after => e.queue.completed ≤ after.queue.completed) ?_ n
    (Nat.le_refl _)
  intro after hle
  cases hin : after.inFlight with
  | nil => rwa [step_of_nil hin]
  | cons job rest =>
    rw [completed_step hin]
    exact Nat.le_succ_of_le hle

namespace Sole

variable {e e' : Engine} {p : Path} {a : Analysis} {x y z : FileEntry} {n : Nat}

theorem exact (h : Sole e p) : e.index.Exact := h.sane.traced.exact

theorem wellFormed (h : Sole e p) : e.queue.WellFormed [p] := by
  have hwell := h.sane.invariant.queue
  simpa [System.jobs, h.inFlight] using hwell

theorem not_awaits (h : Sole e p) (q : Path) : ¬ e.queue.Awaits q := by
  obtain ⟨l, hreached, -⟩ := h.sane.traced.history
  rw [← (Queue.runs_of_reached hreached).kept.triggers_iff, h.triggers]
  simp [SortedMap.contains, SortedMap.find?, EmptyCollection.emptyCollection]

theorem not_idle (h : Sole e p) : e.isIdle = false := by
  rw [← Bool.not_eq_true]
  intro hidle
  simpa using (h.wellFormed.of_isIdle hidle).1

/-- The engine is at rest after the analysis exactly if it asks for no file. -/
theorem isIdle_step_iff (h : Sole e p) (hkeeps : Keeps (e.withJobs []) e')
    (hstep : e.step = e'.conclude p a) :
    e.step.isIdle = true ↔ Queue.asked p (e'.verdict p a) = [] := by
  have hqueue : e'.queue = e.queue := hkeeps.queue
  have hin : e'.inFlight = [] := hkeeps.inFlight
  constructor
  · intro hidle
    have hwell : e'.queue.WellFormed (p :: e'.inFlight.map (·.1)) := by
      rw [hqueue, hin]
      exact h.wellFormed
    have hnone := (h.sane.run (System.run_step e [] .free)).invariant.queue.of_isIdle hidle
    rw [List.eq_nil_iff_forall_not_mem]
    intro q hq
    have hpends := pends_conclude hwell a (Or.inr (Path.oneOf_of_mem hq))
    rw [← hstep] at hpends
    rcases hpends with hawaits | hjob
    · exact hnone.2 q hawaits
    · have hjobs := hnone.1
      rw [System.jobs, List.map_nil, List.append_nil] at hjobs
      rw [hjobs] at hjob
      exact Path.not_oneOf_nil q hjob
  · intro hasked
    have hempty : (e'.queue.release p).1.queue = [] := by
      rw [hqueue, List.eq_nil_iff_forall_not_mem]
      intro q hq
      exact h.not_awaits q (Or.inl ((h.wellFormed.queued_iff q).mpr (Path.oneOf_of_mem hq)))
    have hrunning : (e'.queue.release p).1.running = 1 := by
      rw [hqueue]
      exact h.wellFormed.running_eq
    have hrerun : (e'.queue.release p).1.rerun.contains p = false := by
      rw [hqueue]
      exact Bool.eq_false_iff.mpr fun hflagged => h.not_awaits p (Or.inr hflagged)
    rw [hstep, isIdle, queue_conclude]
    exact Queue.isIdle_finish hempty hrunning hrerun hasked _

/-- Rest is reached with this analysis, or there are more. -/
theorem run_of_idle (h : Sole e p) (hidle : (e.run n).isIdle = true) :
    (e.step.isIdle = true ∧ e.run n = e.step) ∨
      (e.step.isIdle = false ∧ e.queue.completed + 2 ≤ (e.run n).queue.completed) := by
  cases n with
  | zero => exact absurd hidle (by simp [run, h.not_idle])
  | succ n =>
    have hrun : e.run (n + 1) = e.step.run n := by
      rw [run, h.inFlight]
      rfl
    rw [hrun] at hidle ⊢
    have hone := completed_step h.inFlight
    cases hnext : e.step.inFlight with
    | nil =>
      have hsame : e.step.run n = e.step := by
        cases n with
        | zero => rfl
        | succ n => rw [run, hnext]; rfl
      rw [hsame] at hidle ⊢
      exact Or.inl ⟨hidle, rfl⟩
    | cons job rest =>
      have hbusy : e.step.isIdle = false := by
        rw [← Bool.not_eq_true]
        intro hrest
        have hjobs := ((h.sane.run (System.run_step e [] .free)).invariant.queue.of_isIdle hrest).1
        simp [System.jobs, hnext] at hjobs
      refine Or.inr ⟨hbusy, ?_⟩
      cases n with
      | zero => exact absurd hidle (by simp [run, hbusy])
      | succ n =>
        have htwo := completed_step hnext
        have hle := completed_le_run e.step.step n
        rw [run, hnext]
        simp only [List.isEmpty_cons, Bool.false_eq_true, if_false]
        omega

end Sole

/-! ## What a publication asks for -/

/-- Nothing is left to be done once `y` is published for `p`, where `x` was: the file is bound to
what is there, no other file waits for a name that is announced, and none relied on a promise that is
not kept. -/
structure Unheard (e : Engine) (p : Path) (x y : FileEntry) : Prop where
  own : x ≠ y → e.unboundTarget? y.symbols e.step.index = none
  names : ∀ z ∈ e.index.entries, compare z.path p ≠ .eq → x ≠ y →
    ∀ name ∈ z.symbols.unresolved, ¬ e.index.Announces p y.symbols name
  promises : ∀ z ∈ e.index.entries, compare z.path p ≠ .eq → ∀ t ∈ (e.queue.release p).2,
    t ∈ z.symbols.references.map (·.target) → t ∈ y.symbols.types.map (·.fqn)

/-- The other file `z` is analyzed again although `y` declares what `x` did. -/
inductive Wakes (s : Snapshot) (p : Path) (promised : List String) (x y z : FileEntry) : Prop
  /-- It waits for the package of the file, and no other file is in that package. -/
  | package (name : String) (hnew : x ≠ y) (hpackage : y.symbols.package = some name)
    (halone : ¬ ∃ other ∈ s.entries, compare other.path p ≠ .eq ∧
      other.symbols.package = some name)
    (hwaits : name ∈ z.symbols.unresolved)
  /-- It waits for a simple name that no type of the file had before; a type has it now that had
  another one. -/
  | renamed (t old : Symbol) (hnew : x ≠ y) (ht : t ∈ y.symbols.types) (hold : old ∈ x.symbols.types)
    (hsame : t.fqn = old.fqn) (hname : t.name ∉ x.symbols.types.map (·.name))
    (hwaits : t.name ∈ z.symbols.unresolved)
  /-- It relied on a type that was promised and that the file does not declare. -/
  | promise (t : String) (hpromised : t ∈ promised) (hmissing : t ∉ y.symbols.types.map (·.fqn))
    (hrelies : t ∈ z.symbols.references.map (·.target))

structure Replaces (e : Engine) (p : Path) (y : FileEntry) (after : Snapshot) (a : Analysis) :
    Prop where
  holds : e.index.holds p y.fingerprint y.symbols = false
  index : after = (e.index.upsert p y.fingerprint y.symbols).1
  stale : a.stale = staleAfter p (e.index.changeReport p y.symbols) e.index after
  requeue : a.requeue = (e.unboundTarget? y.symbols after).isSome
  known : ∀ t ∈ y.symbols.boundTargets, t ∈ y.symbols.types.map (·.fqn) ∨
    (e.contextOf e.index).hasType t = true ∨ e.queue.promised.contains t = true

section Publication

variable {e : Engine} {p : Path} {t : Trigger} {after : Snapshot} {a : Analysis} {x y z : FileEntry}

theorem Effect.replaces (h : Effect e p t after a)
    (hx : e.index.file? p = some x) (hy : after.file? p = some y) :
    (x = y ∧ after = e.index ∧ a.requeue = false ∧ SortedSet.toList a.stale = []) ∨
      (x ≠ y ∧ Replaces e p y after a) := by
  cases h with
  | gone hfile => simp [file?_remove, ReflCmp.compare_self] at hy
  | passed file hfile htrigger =>
    exact Or.inl ⟨Option.some.inj (hx.symm.trans hy), rfl, rfl, rfl⟩
  | published file hfile symbols fromCache hsymbols after outcome hupsert =>
    obtain rfl : (e.index.upsert p file.fingerprint symbols).1 = after := by rw [hupsert]
    obtain rfl : (e.index.upsert p file.fingerprint symbols).2 = outcome := by rw [hupsert]
    cases hholds : e.index.holds p file.fingerprint symbols with
    | true =>
      rw [Snapshot.upsert_of_holds hholds] at hy ⊢
      exact Or.inl ⟨Option.some.inj (hx.symm.trans hy), rfl, rfl, rfl⟩
    | false =>
      obtain rfl : y = ⟨p, file.fingerprint, symbols⟩ := by
        rw [Snapshot.file?_upsert hholds, if_pos ReflCmp.compare_self] at hy
        exact (Option.some.inj hy).symm
      refine Or.inr ⟨?_, hholds, rfl, ?_, ?_, fun t ht => Effect.known_of_symbolsOf hsymbols ht⟩
      · rintro rfl
        simp [Snapshot.holds, hx] at hholds
      · simp only [Snapshot.upsert_of_not_holds hholds]
      · simp only [Snapshot.upsert_of_not_holds hholds, bindingsMoved, hy]
        simp [Snapshot.changeReport]

theorem Replaces.mem_entries_iff (h : Replaces e p y after a) (hindex : e.index.Exact)
    (hne : compare z.path p ≠ .eq) : z ∈ after.entries ↔ z ∈ e.index.entries := by
  rw [h.index, hindex.mem_entries_upsert_iff h.holds]
  constructor
  · rintro (rfl | ⟨hz, -⟩)
    · exact absurd ReflCmp.compare_self hne
    · exact hz
  · exact fun hz => Or.inr ⟨hz, hne⟩

theorem unheard_iff : e.Unheard p x y ↔
    (x ≠ y → e.unboundTarget? y.symbols e.step.index = none) ∧
      ∀ z ∈ e.index.entries, compare z.path p ≠ .eq →
        ¬ ((x ≠ y ∧ ∃ name ∈ z.symbols.unresolved, e.index.Announces p y.symbols name) ∨
          ∃ t ∈ (e.queue.release p).2, t ∈ z.symbols.references.map (·.target) ∧
            t ∉ y.symbols.types.map (·.fqn)) := by
  constructor
  · intro h
    refine ⟨h.own, fun z hz hne => ?_⟩
    rintro (⟨hnew, name, hwaits, hannounced⟩ | ⟨t, hpromised, hrelies, hmissing⟩)
    · exact h.names z hz hne hnew name hwaits hannounced
    · exact hmissing (h.promises z hz hne t hpromised hrelies)
  · rintro ⟨hown, hothers⟩
    refine ⟨hown, fun z hz hne hnew name hwaits hannounced => ?_, fun z hz hne t hpromised hrelies => ?_⟩
    · exact hothers z hz hne (Or.inl ⟨hnew, name, hwaits, hannounced⟩)
    · by_contra hmissing
      exact hothers z hz hne (Or.inr ⟨t, hpromised, hrelies, hmissing⟩)

/-- Where the same is declared, only a package or another name of an old type is announced. -/
theorem wakes_iff {s : Snapshot} {promised : List String} (hx : s.file? p = some x)
    (hsound : x.symbols.Sound) (hapi : x.symbols.api = y.symbols.api) :
    Wakes s p promised x y z ↔
      (x ≠ y ∧ ∃ name ∈ z.symbols.unresolved, s.Announces p y.symbols name) ∨
        ∃ t ∈ promised, t ∈ z.symbols.references.map (·.target) ∧
          t ∉ y.symbols.types.map (·.fqn) := by
  have hdeclares (name : String) :
      s.DeclaresIn p name ↔ name ∈ x.symbols.types.map (·.name) := by
    simp only [Snapshot.DeclaresIn, hx, Option.some.injEq, exists_eq_left']
  constructor
  · rintro (⟨name, hnew, hpackage, halone, hwaits⟩ | ⟨t, old, hnew, ht, -, -, hname, hwaits⟩ |
      ⟨t, hpromised, hmissing, hrelies⟩)
    · exact Or.inl ⟨hnew, name, hwaits, Or.inr ⟨hpackage, halone⟩⟩
    · refine Or.inl ⟨hnew, t.name, hwaits, Or.inl ⟨List.mem_map_of_mem ht, ?_⟩⟩
      exact fun hbefore => hname ((hdeclares t.name).mp hbefore)
    · exact Or.inr ⟨t, hpromised, hrelies, hmissing⟩
  · rintro (⟨hnew, name, hwaits, ⟨htype, hbefore⟩ | ⟨hpackage, halone⟩⟩ |
      ⟨t, hpromised, hrelies, hmissing⟩)
    · obtain ⟨t, ht, rfl⟩ := List.mem_map.mp htype
      obtain ⟨old, hold, hsame⟩ :=
        List.mem_map.mp (hsound.mem_types_of_api_eq hapi.symm (List.mem_map_of_mem ht))
      exact .renamed t old hnew ht hold hsame.symm (fun h => hbefore ((hdeclares t.name).mpr h)) hwaits
    · exact .package name hnew hpackage halone hwaits
    · exact .promise t hpromised hmissing hrelies

/-- Who is disappointed relied on a promised type that is missing. -/
theorem mem_disappointed_iff (hexact : e.index.Exact) (hy : e.index.file? p = some y)
    (promised : List String) (q : Path) :
    q ∈ e.disappointed p promised ↔ ∃ z ∈ e.index.entries, z.path = q ∧
      ∃ t ∈ promised, t ∈ z.symbols.references.map (·.target) ∧ t ∉ y.symbols.types.map (·.fqn) := by
  have husages (t : String) :
      (∃ u ∈ e.index.usages t, u.path = q) ↔
        ∃ z ∈ e.index.entries, z.path = q ∧ t ∈ z.symbols.references.map (·.target) := by
    rw [← hexact.mem_usages_iff, List.mem_map]
  rw [disappointed, hy, Option.map_some, Option.getD_some, List.mem_map]
  simp only [List.mem_flatMap, List.mem_filter, Bool.not_eq_true', List.contains_eq_mem,
    decide_eq_false_iff_not]
  constructor
  · rintro ⟨u, ⟨t, ⟨hpromised, hmissing⟩, hu⟩, hq⟩
    obtain ⟨z, hz, hpath, hrelies⟩ := (husages t).mp ⟨u, hu, hq⟩
    exact ⟨z, hz, hpath, t, hpromised, hrelies, hmissing⟩
  · rintro ⟨z, hz, hpath, t, hpromised, hrelies, hmissing⟩
    obtain ⟨u, hu, hq⟩ := (husages t).mpr ⟨z, hz, hpath, hrelies⟩
    exact ⟨u, ⟨t, ⟨hpromised, hmissing⟩, hu⟩, hq⟩

theorem Effect.mem_entries_iff_of_ne (h : Effect e p t after a) (hindex : e.index.Exact)
    (hx : e.index.file? p = some x) (hy : after.file? p = some y) (hne : compare z.path p ≠ .eq) :
    z ∈ after.entries ↔ z ∈ e.index.entries := by
  rcases h.replaces hx hy with ⟨-, rfl, -⟩ | ⟨-, hreplaces⟩
  · exact Iff.rfl
  · exact hreplaces.mem_entries_iff hindex hne

/-- Where the same is declared as before, the analysis finds nothing out of date but what waits for a
name that is announced. -/
theorem Effect.oneOf_stale_iff (h : Effect e p t after a) (hindex : e.index.Exact)
    (hx : e.index.file? p = some x) (hy : after.file? p = some y)
    (hapi : x.symbols.api = y.symbols.api) (hz : z ∈ e.index.entries)
    (hne : compare z.path p ≠ .eq) :
    z.path.OneOf (SortedSet.toList a.stale) ↔
      x ≠ y ∧ ∃ name ∈ z.symbols.unresolved, e.index.Announces p y.symbols name := by
  rcases h.replaces hx hy with ⟨hsame, -, -, hnone⟩ | ⟨hnew, hreplaces⟩
  · rw [hnone]
    exact iff_of_false (Path.not_oneOf_nil _) fun hboth => hboth.1 hsame
  · have hafter : z ∈ after.entries := (hreplaces.mem_entries_iff hindex hne).mpr hz
    have hquiet : ¬ e.index.Disturbs p y.symbols after z.path := by
      rintro ⟨old, hold, hchanged, -⟩
      obtain rfl := Option.some.inj (hx.symm.trans hold)
      rw [FileSymbols.api_bne_eq_false_iff.mpr hapi] at hchanged
      simp at hchanged
    rw [hreplaces.stale, hindex.oneOf_staleAfter_iff (h.exact hindex) hafter hne, or_iff_right hquiet,
      and_iff_right hnew]

/-- After an analysis that leaves the declarations of its file alone, no file is asked for exactly if
the file is bound to what is there and no other file is stale or disappointed. -/
theorem Effect.asked_eq_nil_iff {e' : Engine} (h : Effect e p t e'.index a) (hkeeps : Keeps e e')
    (hindex : e.index.Exact) (hx : e.index.file? p = some x) (hy : e'.index.file? p = some y)
    (hapi : x.symbols.api = y.symbols.api) :
    Queue.asked p (e'.verdict p a) = [] ↔
      (x ≠ y → e.unboundTarget? y.symbols e'.index = none) ∧
        ∀ z ∈ e.index.entries, compare z.path p ≠ .eq →
          ¬ ((x ≠ y ∧ ∃ name ∈ z.symbols.unresolved, e.index.Announces p y.symbols name) ∨
            ∃ t ∈ (e.queue.release p).2, t ∈ z.symbols.references.map (·.target) ∧
              t ∉ y.symbols.types.map (·.fqn)) := by
  have hafter := h.exact hindex
  have hqueue : e'.queue = e.queue := hkeeps.queue
  constructor
  · intro hnone
    refine ⟨fun hnew => ?_, fun z hz hne hwakes => ?_⟩
    · rcases h.replaces hx hy with ⟨hsame, -⟩ | ⟨-, hreplaces⟩
      · exact absurd hsame hnew
      rw [← Option.isNone_iff_eq_none, ← Option.isSome_eq_false_iff, ← hreplaces.requeue,
        ← Bool.not_eq_true]
      intro hrequeue
      have hasked := oneOf_asked_of_requeue (a := e'.verdict p a) hrequeue
        (ReflCmp.compare_self (a := p))
      rw [hnone] at hasked
      exact Path.not_oneOf_nil p hasked
    · have hasked : z.path.OneOf (SortedSet.toList a.stale) ∨
          z.path.OneOf (e'.disappointed p (e'.queue.release p).2) := by
        refine hwakes.imp (h.oneOf_stale_iff hindex hx hy hapi hz hne).mpr fun hrelied => ?_
        rw [hqueue]
        refine Path.oneOf_of_mem ((mem_disappointed_iff hafter hy _ _).mpr ⟨z, ?_, rfl, hrelied⟩)
        exact (h.mem_entries_iff_of_ne hindex hx hy hne).mpr hz
      replace hasked := oneOf_asked_of_verdict hasked hne
      rw [hnone] at hasked
      exact Path.not_oneOf_nil _ hasked
  · rintro ⟨hown, hothers⟩
    have hrequeue : (e'.verdict p a).requeue = false := by
      rcases h.replaces hx hy with ⟨-, -, hrequeue, -⟩ | ⟨hnew, hreplaces⟩
      · exact hrequeue
      · rw [verdict, hreplaces.requeue, hown hnew]
        rfl
    have hstale : SortedSet.toList (e'.verdict p a).stale = [] := by
      rw [List.eq_nil_iff_forall_not_mem]
      intro q hq
      obtain ⟨hq, hne⟩ := (SortedSet.mem_toList_erase_iff _ p q).mp hq
      replace hne : compare q p ≠ .eq := fun hc => hne (OrientedCmp.eq_symm hc)
      rcases SortedSet.mem_addAll hq with hq | hq
      · obtain ⟨z, hz, rfl⟩ := h.mem_stale hindex hq
        replace hz := hz.elim id (h.mem_entries_iff_of_ne hindex hx hy hne).mp
        have hstale := (h.oneOf_stale_iff hindex hx hy hapi hz hne).mp (Path.oneOf_of_mem hq)
        exact hothers z hz hne (Or.inl hstale)
      · obtain ⟨z, hz, rfl, hrelied⟩ := (mem_disappointed_iff hafter hy _ q).mp hq
        rw [hqueue] at hrelied
        replace hz := (h.mem_entries_iff_of_ne hindex hx hy hne).mp hz
        exact hothers z hz hne (Or.inr hrelied)
    rw [Queue.asked, hrequeue, hstale]
    rfl

theorem Effect.bound_of_api_eq (h : Effect e p t after a) (hindex : e.index.Exact)
    (hx : e.index.file? p = some x) (hy : after.file? p = some y)
    (hapi : x.symbols.api = y.symbols.api) (hnew : x ≠ y)
    (hxsound : x.symbols.Sound) (hysound : y.symbols.Sound)
    (hfew : x.symbols.symbols.length ≤ 4294967296) : e.unboundTarget? y.symbols after = none := by
  obtain ⟨-, hreplaces⟩ := (h.replaces hx hy).resolve_left fun hsame => hnew hsame.1
  rw [unboundTarget?_eq_none_iff]
  intro target htarget
  rcases hreplaces.known target htarget with hown | hknown | hpromised
  · exact Or.inl hown
  · rw [hasType_contextOf, Bool.or_eq_true, hindex.typeExists_iff] at hknown
    rw [hasType_contextOf, Bool.or_eq_true, (h.exact hindex).typeExists_iff]
    rcases hknown with ⟨z, hz, hfinds⟩ | hclasspath
    · by_cases hc : compare z.path p = .eq
      · -- what the file itself declared, it still declares
        obtain rfl : z = x := by
          have hfile := hindex.file?_eq_some_iff.mpr ⟨hz, OrientedCmp.eq_symm hc⟩
          exact Option.some.inj (hfile.symm.trans hx)
        exact Or.inl (hysound.mem_types_of_api_eq hapi (hxsound.mem_types_of_finds hfew hfinds))
      · exact Or.inr (Or.inl (Or.inl ⟨z, h.kept hindex hz hc, hfinds⟩))
    · exact Or.inr (Or.inl (Or.inr hclasspath))
  · exact Or.inr (Or.inr hpromised)

end Publication

/-! ## Edits at rest -/

/-- A file is edited at rest and declares to others what it did before. When the queue has been
worked off again, its analysis was the only one exactly if the publication is unheard, and then no
other entry has changed. Over stores that only engines have written to, as long as a file has no more
declarations than there are numbers for them, that is so exactly if no other file is woken. -/
theorem edit_analyzed_alone_iff {config : EngineConfig} {world : World} {e e' : Engine} {p : Path}
    {text : String} {version : Nat} {x y : FileEntry}
    (hrun : System.Run (System.start config world) ⟨e, [], .free⟩) (hidle : e.isIdle = true)
    (hedit : e.edit p text = (e', .ok version)) (hx : e.index.file? p.normalize = some x)
    (hy : e'.step.index.file? p.normalize = some y)
    (hapi : x.symbols.api = y.symbols.api) :
    (∃ n, (e'.run n).isIdle = true) ∧
      (∀ n, (e'.run n).isIdle = true →
        ((e'.run n).queue.completed = e.queue.completed + 1 ↔ e'.Unheard p.normalize x y) ∧
        ((e'.run n).queue.completed = e.queue.completed + 1 →
          ∀ q, compare q p.normalize ≠ .eq → (e'.run n).index.file? q = e.index.file? q)) ∧
      (world.Written → x.symbols.symbols.length ≤ 4294967296 →
        (e'.Unheard p.normalize x y ↔
          ∀ z ∈ e.index.entries, compare z.path p.normalize ≠ .eq →
            ¬ Wakes e.index p.normalize (e'.queue.release p.normalize).2 x y z)) := by
  have hrest : e.AtRest := ⟨System.sane_of_run hrun, hidle⟩
  obtain ⟨hsole, hindex, hcompleted, -, -⟩ := hrest.edit hedit
  obtain ⟨after, a, -, hkeeps, heffect, hstep⟩ := step_of_cons hsole.inFlight
  have hsame : e'.step.index = after.index := by rw [hstep, index_conclude]
  have hbefore : e'.index.file? p.normalize = some x := hindex ▸ hx
  have hlater : after.index.file? p.normalize = some y := hsame ▸ hy
  have hunheard : e'.step.isIdle = true ↔ e'.Unheard p.normalize x y := by
    rw [hsole.isIdle_step_iff hkeeps hstep,
      heffect.asked_eq_nil_iff hkeeps hsole.exact hbefore hlater hapi, ← hsame]
    exact unheard_iff.symm
  refine ⟨hsole.sane.exists_idle, fun n hn => ?_, fun hworld hfew => ?_⟩
  · rcases hsole.run_of_idle hn with ⟨hrested, hlast⟩ | ⟨hbusy, hmore⟩
    · have hone := completed_step hsole.inFlight
      rw [hlast, hone, hcompleted, iff_true_left rfl]
      refine ⟨hunheard.mp hrested, fun _ q hne => ?_⟩
      rw [hsame, heffect.file?_of_ne hne]
      exact congrArg (·.file? q) hindex
    · have hmany : (e'.run n).queue.completed ≠ e.queue.completed + 1 := by omega
      refine ⟨iff_of_false hmany fun h => ?_, fun hone => absurd hone hmany⟩
      rw [hunheard.mpr h] at hbusy
      simp at hbusy
  · have hedited := hrun.trans (System.run_call (Call.run_edit hedit) [])
    have hanalyzed := System.genuine_of_run (hedited.trans (System.run_step e' [] .free)) hworld
    have hyin : y ∈ e'.step.index.entries := by
      rw [hsame]
      exact ((heffect.exact hsole.exact).file?_eq_some_iff.mp hlater).1
    have hxin : x ∈ e'.index.entries := (hsole.exact.file?_eq_some_iff.mp hbefore).1
    have hysound := (hanalyzed.indexed y hyin).sound
    have hxsound := ((System.genuine_of_run hedited hworld).indexed x hxin).sound
    have hown (hnew : x ≠ y) : e'.unboundTarget? y.symbols e'.step.index = none := by
      rw [hsame]
      exact heffect.bound_of_api_eq hsole.exact hbefore hlater hapi hnew hxsound hysound hfew
    rw [unheard_iff, and_iff_right hown, ← hindex]
    refine forall₃_congr fun z hz hne => not_congr ?_
    exact (wakes_iff hbefore hxsound hapi).symm

/-- Two files were opened, the second bound to the type of the first. -/
def dependent : Engine :=
  let e := Engine.ofConfig {} { parser := Java.terse }
  let e := { e with registry := (e.registry.openFile ⟨"/a.java"⟩ "class A {}").1 }.drainChanges.1.step
  { e with registry := (e.registry.openFile ⟨"/b.java"⟩ "class B extends A {}").1 }.drainChanges.1.step

/-- The body of the first has changed. -/
def rebodied : Engine :=
  { dependent with
    registry := (dependent.registry.openFile ⟨"/a.java"⟩ "class A { }").1 }.drainChanges.1

theorem run_dependent :
    System.Run (System.start {} { parser := Java.terse }) ⟨dependent, [], .free⟩ := by
  have hsource : Path.extension? ⟨"/a.java"⟩ = some sourceExtension ∧
      Path.extension? ⟨"/b.java"⟩ = some sourceExtension := by decide +kernel
  have hfirst := (System.run_call (Call.run_openFile_of_source hsource.1
    (.ofConfig {} { parser := Java.terse }) "class A {}") []).trans (System.run_step _ [] .free)
  exact (hfirst.trans (System.run_call (Call.run_openFile_of_source hsource.2 _
    "class B extends A {}") [])).trans (System.run_step _ [] .free)

/-- The first file shows other symbols after one analysis, and they declare the same. -/
theorem rebodied_step_spec :
    let before := dependent.index.file? (Path.normalize ⟨"/a.java"⟩)
    let later := rebodied.step.index.file? (Path.normalize ⟨"/a.java"⟩)
    dependent.registry.files.contains (Path.normalize ⟨"/a.java"⟩) = true ∧ dependent.isIdle = true ∧
      (dependent.index.entries.map fun x => (x.path, x.symbols.boundTargets)) =
        [(⟨"/a.java"⟩, []), (⟨"/b.java"⟩, ["A", "A"])] ∧
      before.isSome = true ∧ (before.map (·.symbols) == later.map (·.symbols)) = false ∧
      before.map (·.symbols.api.entries) = later.map (·.symbols.api.entries) ∧
      (rebodied.run 1).isIdle = true ∧
      (rebodied.run 1).queue.completed = dependent.queue.completed + 1 := by
  decide +kernel

theorem edit_analyzed_alone_iff_rebodied :
    (dependent.index.entries.map fun x => (x.path, x.symbols.boundTargets)) =
        [(⟨"/a.java"⟩, []), (⟨"/b.java"⟩, ["A", "A"])] ∧
    (∃ n, (rebodied.run n).isIdle = true) ∧
    ∀ n, (rebodied.run n).isIdle = true →
      (rebodied.run n).queue.completed = dependent.queue.completed + 1 ∧
      (rebodied.run n).index.file? ⟨"/b.java"⟩ = dependent.index.file? ⟨"/b.java"⟩ := by
  obtain ⟨hthere, hidle, hbound, hbefore, -, hapi, hrests, hone⟩ := rebodied_step_spec
  have hother : compare (Path.mk "/b.java") (Path.normalize ⟨"/a.java"⟩) ≠ .eq := by decide +kernel
  have hedit : dependent.edit ⟨"/a.java"⟩ "class A { }" =
      (rebodied, .ok (dependent.registry.openFile ⟨"/a.java"⟩ "class A { }").2) := by
    rw [Engine.edit, Registry.edit, if_pos hthere]
    rfl
  have hrun := run_dependent
  generalize dependent = e at *
  generalize rebodied = e' at *
  obtain ⟨x, hx⟩ := Option.isSome_iff_exists.mp hbefore
  rw [hx, Option.map_some] at hapi
  obtain ⟨y, hy, hsame⟩ := Option.map_eq_some_iff.mp hapi.symm
  obtain ⟨hends, hunheard, -⟩ := edit_analyzed_alone_iff hrun hidle hedit hx hy (SortedMap.ext hsame.symm)
  refine ⟨hbound, hends, fun n hn => ?_⟩
  have hlone : (e'.run n).queue.completed = e.queue.completed + 1 :=
    (hunheard n hn).1.mpr ((hunheard 1 hrests).1.mp hone)
  exact ⟨hlone, (hunheard n hn).2 hlone _ hother⟩

end Engine

end JavaAtlas
