import JavaAtlas.Proofs.Engine.RecordsKept
import JavaAtlas.Proofs.Engine.Spelling
import JavaAtlas.Proofs.Engine.Steady

/-!
# Store and index agree at rest

An analysis has its symbols on record before it publishes them, and its record is removed after the
file has left the index. In between, and after a project has brought another store, the record of a
file may not fit its entry; then an analysis that puts this right is under way or asked for. So at
rest each registered file has its indexed symbols on record, and a removed file has no record.
-/

namespace JavaAtlas

set_option autoImplicit false

open Std (TransCmp OrientedCmp ReflCmp)

/-! ## Analyses that put records right -/

/-- The client has still to ask that the file be bound anew. -/
def Client.Rebinds (p : Path) : Client → Prop
  | .holding paths trigger => trigger = .dependency ∧ p.OneOf paths
  | .ordered order _ trigger => trigger = .dependency ∧ p.OneOf order
  | _ => False

/-- The analysis will publish symbols that it has put on record. -/
def Job.Renews (job : Job) : Prop :=
  match job.stage with
  | .viewed _ | .found _ _ | .missing _ => job.trigger = .dependency
  | .bound _ _ _ _ => True
  | _ => False

/-- The analysis will find out whether the file is there, or has still to remove its record. -/
def Stage.Drops : Stage → Prop
  | .viewed _ | .missing _ | .dropped _ _ => True
  | _ => False

/-- The next moment writes to the store. -/
def Stage.Writes : Stage → Prop
  | .found _ _ | .dropped _ _ => True
  | _ => False

/-- Symbols to be published are on record, and a record to be removed is that of no indexed file. -/
def Stage.Filed (e : Engine) (p : Path) : Stage → Prop
  | .bound _ file symbols _ => e.Recorded p file.fingerprint symbols
  | .dropped _ _ => e.index.file? p = none
  | _ => True

/-- The file is not indexed, or what is on record for it is what is indexed. -/
def Engine.Agreed (e : Engine) (p : Path) : Prop :=
  ∀ x, e.index.file? p = some x →
    ∃ symbols, e.Recorded p x.fingerprint symbols ∧ (x.symbols == symbols) = true

namespace System

def Requested (s : System) (p : Path) : Prop :=
  s.client.Rebinds p ∨ s.engine.queue.Due p ∨ Queue.Handed s.engine.inFlight p

/-- An analysis is under way or asked for after which the record of the file fits its entry. -/
def Renews (s : System) (p : Path) : Prop :=
  s.Requested p ∨ ∃ job ∈ s.active, compare p job.path = .eq ∧ job.Renews

/-- An analysis is under way or asked for that removes the record if the file is gone. -/
def Drops (s : System) (p : Path) : Prop :=
  s.Owes p ∨ ∃ job ∈ s.active, compare p job.path = .eq ∧ job.stage.Drops

theorem Requested.of_eq {e e' : Engine} {active active' : List Job} {client client' : Client}
    {p : Path} (h : Requested ⟨e, active, client⟩ p)
    (hclient : client.Rebinds p → client'.Rebinds p) (hqueue : e.queue.Due p → e'.queue.Due p)
    (hin : e'.inFlight = e.inFlight) : Requested ⟨e', active', client'⟩ p := by
  simp only [Requested, hin] at h ⊢
  exact h.imp hclient (Or.imp_left hqueue)

/-- A request to bind a file anew stands until an analysis takes it up. -/
theorem renews_of_requested {s s' : System} (hinvariant : s.Invariant) (hstep : Step s s') {p : Path}
    (h : s.Requested p) : s'.Renews p := by
  cases hstep with
  | disk e active client disk => exact Or.inl (h.of_eq id id rfl)
  | change e active client call registry hclient hcall =>
    refine Or.inl (h.of_eq (fun hp => ?_) id rfl)
    rcases hclient with rfl | rfl <;> exact absurd hp id
  | adopt e active project =>
    obtain ⟨hagrees, -⟩ := e.adopt_spec project
    exact Or.inl (h.of_eq (fun hp => absurd hp id) (hagrees.queue ▸ id) hagrees.inFlight)
  | keep e active project => exact Or.inl (h.of_eq id id rfl)
  | collect e active => exact Or.inl (h.of_eq (fun hp => absurd hp id) id rfl)
  | order e active paths trigger =>
    have hreads := e.reads_orderBatch paths
    exact Or.inl (h.of_eq (fun hp => ⟨hp.1, e.oneOf_orderBatch hp.2⟩) (hreads.queue ▸ id)
      hreads.inFlight)
  | enqueue e active order promises trigger =>
    have hdue (hp : e.queue.Due p ∨ (p.OneOf order ∧ trigger = .dependency)) :
        Requested ⟨e.enqueueBatch order promises trigger, active, .afterBatch trigger⟩ p := by
      rcases Queue.due_schedule hp e.workers promises with hp | ⟨job, hjob, hp⟩
      · exact Or.inr (Or.inl hp)
      · exact Or.inr (Or.inr ⟨job, List.mem_append_right _ hjob, hp⟩)
    rcases h with hp | hp | ⟨job, hjob, hp⟩
    · exact Or.inl (hdue (Or.inr ⟨hp.2, hp.1⟩))
    · exact Or.inl (hdue (Or.inl hp))
    · exact Or.inl (Or.inr (Or.inr ⟨job, List.mem_append_left _ hjob, hp⟩))
  | start e active client left right path trigger hin =>
    rcases h with hp | hp | ⟨job, hjob, hc, hp⟩
    · exact Or.inl (Or.inl hp)
    · exact Or.inl (Or.inr (Or.inl hp))
    · rw [hin, List.mem_append, List.mem_cons] at hjob
      rcases hjob with hjob | rfl | hjob
      · exact Or.inl (Or.inr (Or.inr ⟨job, List.mem_append_left _ hjob, hc, hp⟩))
      · exact Or.inr ⟨_, List.mem_cons_self, hc, hp⟩
      · exact Or.inl (Or.inr (Or.inr ⟨job, List.mem_append_right _ hjob, hc, hp⟩))
  | advance e left right client job hstage =>
    obtain ⟨-, -, hqueue, hin⟩ := spec_advance e job.path job.trigger job.stage
    refine Or.inl (h.of_eq id (fun hp => ?_) hin)
    rcases hqueue with hqueue | hqueue
    · rw [hqueue]
      exact hp
    · rw [hqueue]
      exact hp.of_eq rfl rfl rfl
  | finish e left right client path trigger a =>
    have hwell := hinvariant.queue.perm (perm_jobs e left right client ⟨path, trigger, .done a⟩)
    rcases h with hp | hp | ⟨job, hjob, hp⟩
    · exact Or.inl (Or.inl hp)
    · rcases Queue.due_finish hwell (a := a) (Or.inl hp) e.workers with hp | ⟨job, hjob, hp⟩
      · exact Or.inl (Or.inr (Or.inl hp))
      · exact Or.inl (Or.inr (Or.inr ⟨job, List.mem_append_right _ hjob, hp⟩))
    · exact Or.inl (Or.inr (Or.inr ⟨job, List.mem_append_left _ hjob, hp⟩))

/-- A file that is owed an analysis is owed one until that has begun. -/
theorem drops_of_owes {s s' : System} (hinvariant : s.Invariant) (hstep : Step s s') {p : Path}
    (h : s.Owes p) : s'.Drops p := by
  cases hstep with
  | disk e active client disk => exact Or.inl h
  | keep e active project => exact Or.inl h
  | change e active client call registry hclient hcall =>
    obtain ⟨changed, hreports⟩ := reports_change hcall
    exact Or.inl (h.reports hclient hreports)
  | adopt e active project =>
    obtain ⟨hagrees, -⟩ := e.adopt_spec project
    refine Or.inl (h.of_memoizes ?_ hagrees.queue hagrees.inFlight fun hp => absurd hp id)
    rw [show (e.adopt project).registry = e.registry from hagrees.registry]
    exact .refl _
  | collect e active => exact Or.inl h.collect
  | order e active paths trigger =>
    have hreads := e.reads_orderBatch paths
    exact Or.inl (h.of_memoizes hreads.registry hreads.queue hreads.inFlight e.oneOf_orderBatch)
  | enqueue e active order promises trigger =>
    exact Or.inl (h.enqueueBatch hinvariant.queue order promises trigger Or.inl)
  | start e active client left right path trigger hin =>
    rcases h.start hin with hc | h
    · exact Or.inr ⟨_, List.mem_cons_self, hc, trivial⟩
    · exact Or.inl h
  | advance e left right client job hstage => exact Or.inl (h.advance job.path job.trigger job.stage)
  | finish e left right client path trigger a => exact Or.inl (h.finish hinvariant)

end System

/-! ## One moment of an analysis -/

namespace Engine

variable {e e' : Engine} {path p : Path} {trigger : Trigger} {stage : Stage} {kept : Path → Prop}

theorem KeepsRecords.agreed (h : e.KeepsRecords e' kept) (hp : kept p)
    (hfile : e'.index.file? p = e.index.file? p) (hagreed : e.Agreed p) : e'.Agreed p := by
  intro x hx
  obtain ⟨symbols, hrecorded, hsame⟩ := hagreed x (hfile ▸ hx)
  exact ⟨symbols, h.recorded hp hrecorded, hsame⟩

theorem agreed_of_none (h : e.index.file? p = none) : e.Agreed p := by
  intro x hx
  simp [h] at hx

theorem KeepsRecords.filed (h : e.KeepsRecords e' kept) (hp : kept p)
    (hfile : e'.index.file? p = e.index.file? p) (hfiled : stage.Filed e p) : stage.Filed e' p := by
  cases stage with
  | bound before file symbols fromCache => exact h.recorded hp hfiled
  | dropped before removed => exact hfile.trans hfiled
  | _ => exact trivial

theorem keepsRecords_advance
    (h : stage.Writes → ∀ p, kept p → recordName p ≠ recordName path) :
    e.KeepsRecords (e.advance path trigger stage).1 kept := by
  cases stage with
  | viewed before =>
    rcases hfile : e.registry.file path with ⟨registry, _ | file⟩ <;> rw [advance, hfile]
    · exact .refl e kept
    · exact .of_stores_eq rfl rfl
  | found before file =>
    rw [advance]
    split
    · exact .refl e kept
    · exact .symbolsAgainst (h trivial) before trigger file
  | dropped before removed =>
    have hevicted (e : Engine) (parses : ParseCache) :
        e.KeepsRecords { e with parses := parses } kept := .of_stores_eq rfl rfl
    exact .trans (.removeRecord (h trivial)) (hevicted _ _)
  | _ => exact .of_stores_eq rfl rfl

theorem filed_advance (hstores : ∀ before file symbols, stage = .found before file →
      (e.advance path trigger stage).2 = .bound before file symbols false →
        e.Stores path file.fingerprint symbols) :
    (e.advance path trigger stage).2.Filed (e.advance path trigger stage).1 path := by
  cases stage with
  | viewed before =>
    rcases hfile : e.registry.file path with ⟨registry, _ | file⟩ <;> rw [advance, hfile] <;>
      exact trivial
  | found before file =>
    rw [advance] at hstores ⊢
    split
    · exact trivial
    · rename_i hskip
      refine recorded_symbolsAgainst fun hcomputed => hstores before file _ rfl ?_
      rw [if_neg hskip, ← hcomputed]
  | missing before => exact (file?_remove e.index path path).trans (if_pos ReflCmp.compare_self)
  | _ => exact trivial

/-- An analysis that leaves a record that does not fit the entry goes on to put that right. -/
theorem agreed_advance (trigger : Trigger) (hfiled : stage.Filed e path)
    (h : e.Agreed path ∨ Job.Renews ⟨path, trigger, stage⟩) :
    (e.advance path trigger stage).1.Agreed path ∨
      Job.Renews ⟨path, trigger, (e.advance path trigger stage).2⟩ := by
  have hsame {e' : Engine} (hstore : e'.store = e.store) (hstores : e'.world.stores = e.world.stores)
      (hindex : e'.index = e.index) (hagreed : e.Agreed path) : e'.Agreed path :=
    (KeepsRecords.of_stores_eq hstore hstores : e.KeepsRecords e' fun _ => True).agreed trivial
      (by rw [hindex]) hagreed
  cases stage with
  | viewed before =>
    rcases hfile : e.registry.file path with ⟨registry, _ | file⟩ <;> rw [advance, hfile]
    · exact h
    · exact h.imp_left (hsame rfl rfl rfl)
  | found before file =>
    rw [advance]
    split
    · rename_i hskip
      refine Or.inl (h.resolve_right fun hrenews => ?_)
      rw [skips, Bool.and_eq_true, decide_eq_true_eq] at hskip
      rw [show trigger = .dependency from hrenews] at hskip
      simp at hskip
    · exact Or.inr trivial
  | bound before file symbols fromCache =>
    refine Or.inl fun x hx => ⟨symbols, ?_⟩
    have hentry : (e.index.upsert path file.fingerprint symbols).1.file? path = some x := hx
    have hholds := e.index.holds_upsert path file.fingerprint symbols
    rw [Snapshot.holds, hentry, Option.any_some, Bool.and_eq_true, beq_iff_eq] at hholds
    rw [hholds.1]
    exact ⟨hfiled, hholds.2⟩
  | missing before =>
    exact Or.inl (agreed_of_none ((file?_remove e.index path path).trans
      (if_pos ReflCmp.compare_self)))
  | dropped before removed =>
    have hindex := (agrees_removeRecord e path).index
    refine Or.inl (agreed_of_none ?_)
    rw [advance, hindex]
    exact hfiled
  | published before file outcome fromCache =>
    exact Or.inl (hsame rfl rfl rfl (h.resolve_right id))
  | recorded before file outcome fromCache => exact Or.inl (h.resolve_right id)
  | evicted before removed => exact Or.inl (hsame rfl rfl rfl (h.resolve_right id))
  | judged a => exact Or.inl (hsame rfl rfl rfl (h.resolve_right id))
  | released a promised => exact Or.inl (h.resolve_right id)
  | done a => exact Or.inl (h.resolve_right id)

/-- An analysis of a file that is gone removes its record, if it has not read the file before. -/
theorem unrecorded_advance (trigger : Trigger) (hfree : e.StoreFree)
    (hgone : e.registry.contains path = false)
    (h : stage.Drops ∨ (e.Unrecorded path ∧ ∀ before file, stage ≠ .found before file)) :
    (e.advance path trigger stage).1.Unrecorded path ∨ (e.advance path trigger stage).2.Drops := by
  have hsame {e' : Engine} (hstore : e'.store = e.store) (hstores : e'.world.stores = e.world.stores)
      (hno : e.Unrecorded path) : e'.Unrecorded path :=
    (KeepsRecords.of_stores_eq hstore hstores : e.KeepsRecords e' fun _ => True).unrecorded trivial hno
  cases stage with
  | viewed before =>
    have hfile : (e.registry.file path).2 = none := by
      rw [Registry.file, SortedMap.get?_eq_none_iff.mpr hgone]
      rfl
    rcases hfound : e.registry.file path with ⟨registry, found⟩
    rw [hfound] at hfile
    obtain rfl : found = none := hfile
    rw [advance, hfound]
    exact Or.inr trivial
  | found before file =>
    rcases h with h | h
    · exact absurd h id
    · exact absurd rfl (h.2 before file)
  | missing before => exact Or.inr trivial
  | dropped before removed =>
    refine Or.inl ?_
    have hremoved := unrecorded_removeRecord (p := path) hfree
    exact (KeepsRecords.of_stores_eq rfl rfl : (e.removeRecord path).KeepsRecords
      { e.removeRecord path with parses := (e.parses.evict path).1 } fun _ => True).unrecorded trivial
      hremoved
  | bound before file symbols fromCache =>
    exact Or.inl (hsame rfl rfl (h.resolve_left id).1)
  | published before file outcome fromCache =>
    exact Or.inl (hsame rfl rfl (h.resolve_left id).1)
  | recorded before file outcome fromCache => exact Or.inl (h.resolve_left id).1
  | evicted before removed => exact Or.inl (hsame rfl rfl (h.resolve_left id).1)
  | judged a => exact Or.inl (hsame rfl rfl (h.resolve_left id).1)
  | released a promised => exact Or.inl (h.resolve_left id).1
  | done a => exact Or.inl (h.resolve_left id).1

end Engine

/-! ## Every run -/

namespace System

/-- Every record fits its entry, and every removed file is without a record, or an analysis that
puts this right is coming. -/
structure Kept (kind : Path → Prop) (s : System) (removed : List Path) : Prop where
  within : s.Within kind
  free : s.engine.StoreFree
  stages : ∀ job ∈ s.active, job.stage.Filed s.engine job.path
  entries : ∀ p, kind p → s.engine.Agreed p ∨ s.Renews p
  removed : ∀ p ∈ removed, kind p ∧
    (s.engine.registry.contains p = false → s.engine.Unrecorded p ∨ s.Drops p)

variable {kind : Path → Prop}

/-- A step that is no moment of an analysis. -/
theorem Kept.quiet {s s' : System} {removed removed' : List Path} (h : s.Kept kind removed)
    (hinvariant : s.Invariant) (hstep : Step s s') (hwithin : s'.Within kind)
    (hindex : s'.engine.index = s.engine.index) (hrecords : s.engine.KeepsRecords s'.engine kind)
    (hold : ∀ job ∈ s.active, job ∈ s'.active ∨ ∃ a, job.stage = .done a)
    (hnew : ∀ job ∈ s'.active, job ∈ s.active ∨ ∃ before, job.stage = .viewed before)
    (hremoved : ∀ p ∈ removed', kind p ∧ (s'.engine.registry.contains p = false →
      (p ∈ removed ∧ s.engine.registry.contains p = false) ∨ s'.Drops p)) :
    s'.Kept kind removed' := by
  have hfile (p : Path) : s'.engine.index.file? p = s.engine.index.file? p := by rw [hindex]
  refine ⟨hwithin, hrecords.storeFree h.free, fun job hjob => ?_, fun p hp => ?_, fun p hp => ?_⟩
  · rcases hnew job hjob with hmem | ⟨before, hbefore⟩
    · exact hrecords.filed (h.within.jobs job hmem).1 (hfile _) (h.stages job hmem)
    · rw [hbefore]
      exact trivial
  · rcases h.entries p hp with hagreed | hrequested | ⟨job, hjob, hc, hrenews⟩
    · exact Or.inl (hrecords.agreed hp (hfile p) hagreed)
    · exact Or.inr (renews_of_requested hinvariant hstep hrequested)
    · rcases hold job hjob with hjob | ⟨a, ha⟩
      · exact Or.inr (Or.inr ⟨job, hjob, hc, hrenews⟩)
      · rw [Job.Renews, ha] at hrenews
        exact absurd hrenews id
  · refine ⟨(hremoved p hp).1, fun hgone => ?_⟩
    rcases (hremoved p hp).2 hgone with ⟨hmem, hgone⟩ | hdrops
    · rcases (h.removed p hmem).2 hgone with hno | howes | ⟨job, hjob, hc, hdrops⟩
      · exact Or.inl (hrecords.unrecorded (hremoved p hp).1 hno)
      · exact Or.inr (drops_of_owes hinvariant hstep howes)
      · rcases hold job hjob with hjob | ⟨a, ha⟩
        · exact Or.inr (Or.inr ⟨job, hjob, hc, hdrops⟩)
        · rw [ha] at hdrops
          exact absurd hdrops id
    · exact Or.inr hdrops

/-- A file that is gone, though an analysis has found it, is owed another one. -/
theorem Invariant.owes_of_found {e : Engine} {left right : List Job} {client : Client} {job : Job}
    (h : Invariant ⟨e, left ++ job :: right, client⟩) {before : Snapshot} {file : SourceFile}
    (hstage : job.stage = .found before file) (hgone : e.registry.contains job.path = false) :
    Owes ⟨e, left ++ job :: right, client⟩ job.path := by
  rcases h.files job.path with howes | ⟨other, hother, hc, hcurrent⟩ | hsettled
  · exact howes
  · rcases mem_middle_iff.mp hother with rfl | hother
    · rw [hstage, Stage.Current, Registry.known?_eq_none_iff.mpr
        (SortedMap.get?_eq_none_iff.mpr hgone)] at hcurrent
      simp at hcurrent
    · exact absurd (OrientedCmp.eq_symm hc) (h.other hother)
  · exact absurd hsettled (h.not_settled (mem_middle_iff.mpr (Or.inl rfl)))

section Advance

variable {e : Engine} {left right : List Job} {client : Client} {job : Job} {removed : List Path}
  {p : Path}

def next (e : Engine) (left right : List Job) (client : Client) (job : Job) : System :=
  ⟨(e.advance job.path job.trigger job.stage).1,
    left ++ { job with stage := (e.advance job.path job.trigger job.stage).2 } :: right, client⟩

theorem mem_next_self : { job with stage := (e.advance job.path job.trigger job.stage).2 } ∈
    (next e left right client job).active := mem_middle_iff.mpr (Or.inl rfl)

theorem mem_next {other : Job} (hother : other ∈ left ++ right) :
    other ∈ (next e left right client job).active := mem_middle_iff.mpr (Or.inr hother)

/-- Paths in use that compare equal are the same, so the record of every other file is kept. -/
theorem Kept.keepsRecords_next (h : Kept kind ⟨e, left ++ job :: right, client⟩ removed)
    (hnames : ∀ p q, kind p → kind q → recordName p = recordName q → p = q) :
    e.KeepsRecords (next e left right client job).engine fun p => kind p ∧ p ≠ job.path := by
  have hpath : kind job.path := (h.within.jobs job (mem_middle_iff.mpr (Or.inl rfl))).1
  exact Engine.keepsRecords_advance fun _ p hp hname => hp.2 (hnames p job.path hp.1 hpath hname)

theorem Kept.compare_ne (h : Kept kind ⟨e, left ++ job :: right, client⟩ removed)
    (hnormal : ∀ p, kind p → p.normalize = p) (hp : kind p) (hne : p ≠ job.path) :
    compare p job.path ≠ .eq := by
  have hpath : kind job.path := (h.within.jobs job (mem_middle_iff.mpr (Or.inl rfl))).1
  exact fun hc => hne (Path.eq_of_normal (hnormal p hp) (hnormal _ hpath) hc)

theorem Kept.entries_next (h : Kept kind ⟨e, left ++ job :: right, client⟩ removed)
    (hnormal : ∀ p, kind p → p.normalize = p)
    (hnames : ∀ p q, kind p → kind q → recordName p = recordName q → p = q)
    (hinvariant : Invariant ⟨e, left ++ job :: right, client⟩) (hstage : ∀ a, job.stage ≠ .done a)
    (hp : kind p) :
    (next e left right client job).engine.Agreed p ∨ (next e left right client job).Renews p := by
  have hstep : Step _ (next e left right client job) := .advance e left right client job hstage
  by_cases heq : p = job.path
  · subst heq
    have hown (hown : e.Agreed job.path ∨ job.Renews) :
        (next e left right client job).engine.Agreed job.path ∨
          (next e left right client job).Renews job.path := by
      have hfiled := h.stages job (mem_middle_iff.mpr (Or.inl rfl))
      refine (Engine.agreed_advance job.trigger hfiled hown).imp_right fun hrenews => ?_
      exact Or.inr ⟨_, mem_next_self, ReflCmp.compare_self, hrenews⟩
    rcases h.entries _ hp with hagreed | hrequested | ⟨other, hother, hc, hrenews⟩
    · exact hown (Or.inl hagreed)
    · exact Or.inr (renews_of_requested hinvariant hstep hrequested)
    · rcases mem_middle_iff.mp hother with rfl | hother
      · exact hown (Or.inr hrenews)
      · exact absurd (OrientedCmp.eq_symm hc) (hinvariant.other hother)
  · have hne := h.compare_ne hnormal hp heq
    have hfile := ((Engine.confined_advance e job.path job.trigger job.stage).same p hne).file
    rcases h.entries p hp with hagreed | hrequested | ⟨other, hother, hc, hrenews⟩
    · exact Or.inl ((h.keepsRecords_next hnames).agreed ⟨hp, heq⟩ hfile hagreed)
    · exact Or.inr (renews_of_requested hinvariant hstep hrequested)
    · rcases mem_middle_iff.mp hother with rfl | hother
      · exact absurd hc hne
      · exact Or.inr (Or.inr ⟨other, mem_next hother, hc, hrenews⟩)

theorem Kept.removed_next (h : Kept kind ⟨e, left ++ job :: right, client⟩ removed)
    (hnormal : ∀ p, kind p → p.normalize = p)
    (hnames : ∀ p q, kind p → kind q → recordName p = recordName q → p = q)
    (hinvariant : Invariant ⟨e, left ++ job :: right, client⟩) (hstage : ∀ a, job.stage ≠ .done a)
    (hp : p ∈ removed) (hgone : e.registry.contains p = false) :
    (next e left right client job).engine.Unrecorded p ∨ (next e left right client job).Drops p := by
  have hstep : Step _ (next e left right client job) := .advance e left right client job hstage
  obtain ⟨hkind, hremoved⟩ := h.removed p hp
  by_cases heq : p = job.path
  · subst heq
    have hown (hown : job.stage.Drops ∨ (e.Unrecorded job.path ∧
        ∀ before file, job.stage ≠ .found before file)) :
        (next e left right client job).engine.Unrecorded job.path ∨
          (next e left right client job).Drops job.path := by
      refine (Engine.unrecorded_advance job.trigger h.free hgone hown).imp_right fun hdrops => ?_
      exact Or.inr ⟨_, mem_next_self, ReflCmp.compare_self, hdrops⟩
    rcases hremoved hgone with hno | howes | ⟨other, hother, hc, hdrops⟩
    · -- an analysis that has found the file before it was removed may store a record of it yet
      by_cases hfound : ∃ before file, job.stage = .found before file
      · obtain ⟨before, file, hfound⟩ := hfound
        exact Or.inr (drops_of_owes hinvariant hstep (hinvariant.owes_of_found hfound hgone))
      · exact hown (Or.inr ⟨hno, fun before file hf => hfound ⟨before, file, hf⟩⟩)
    · exact Or.inr (drops_of_owes hinvariant hstep howes)
    · rcases mem_middle_iff.mp hother with rfl | hother
      · exact hown (Or.inl hdrops)
      · exact absurd (OrientedCmp.eq_symm hc) (hinvariant.other hother)
  · rcases hremoved hgone with hno | howes | ⟨other, hother, hc, hdrops⟩
    · exact Or.inl ((h.keepsRecords_next hnames).unrecorded ⟨hkind, heq⟩ hno)
    · exact Or.inr (drops_of_owes hinvariant hstep howes)
    · rcases mem_middle_iff.mp hother with rfl | hother
      · exact absurd hc (h.compare_ne hnormal hkind heq)
      · exact Or.inr (Or.inr ⟨other, mem_next hother, hc, hdrops⟩)

theorem Kept.next (h : Kept kind ⟨e, left ++ job :: right, client⟩ removed)
    (hnormal : ∀ p, kind p → p.normalize = p)
    (hnames : ∀ p q, kind p → kind q → recordName p = recordName q → p = q)
    (hinvariant : Invariant ⟨e, left ++ job :: right, client⟩) (hstage : ∀ a, job.stage ≠ .done a)
    (hwithin : (next e left right client job).Within kind)
    (hstores : ∀ before file symbols, job.stage = .found before file →
      (e.advance job.path job.trigger job.stage).2 = .bound before file symbols false →
        e.Stores job.path file.fingerprint symbols) :
    (next e left right client job).Kept kind removed := by
  refine ⟨hwithin, (h.keepsRecords_next hnames).storeFree h.free, fun other hother => ?_,
    fun p hp => h.entries_next hnormal hnames hinvariant hstage hp,
    fun p hp => ⟨(h.removed p hp).1, fun hgone => ?_⟩⟩
  · rcases mem_middle_iff.mp hother with rfl | hother
    · exact Engine.filed_advance hstores
    · have hne := hinvariant.other hother
      have hactive : other ∈ left ++ job :: right := mem_middle_iff.mpr (Or.inr hother)
      have hfile := ((Engine.confined_advance e job.path job.trigger job.stage).same _ hne).file
      refine (h.keepsRecords_next hnames).filed ⟨(h.within.jobs other hactive).1, fun heq => ?_⟩
        hfile (h.stages other hactive)
      rw [heq] at hne
      exact hne ReflCmp.compare_self
  · have hpaths := e.paths_advance job.path job.trigger job.stage
    exact h.removed_next hnormal hnames hinvariant hstage hp
      ((Registry.contains_congr hpaths p).symm.trans hgone)

end Advance

end System

end JavaAtlas
