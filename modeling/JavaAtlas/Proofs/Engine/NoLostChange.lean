import JavaAtlas.Proofs.Engine.Moments

/-!
# No change is lost

However the moments of the workers and of the client follow each other, a file whose latest text has
not reached the index is on its way: a report of it waits to be collected, the client holds it, it
waits in the queue or for a worker, or its analysis has not read the registry yet or has read what
is there now. So once nothing is on its way the index shows every text as it is.
-/

namespace JavaAtlas

set_option autoImplicit false

open Std (TransCmp OrientedCmp ReflCmp)

/-- The client has still to queue the file. -/
def Client.Holds (p : Path) : Client → Prop
  | .holding paths _ => p.OneOf paths
  | .ordered order _ _ => p.OneOf order
  | _ => False

theorem Client.holds_congr {p p' : Path} (h : compare p p' = .eq) (client : Client) :
    client.Holds p ↔ client.Holds p' := by
  cases client <;> simp only [Client.Holds, Path.oneOf_congr h]

theorem Queue.awaits_congr (q : Queue) {p p' : Path} (h : compare p p' = .eq) :
    q.Awaits p ↔ q.Awaits p' := by
  simp only [Queue.Awaits, SortedMap.contains_congr _ h]

theorem Registry.oneOf_paths_of_known? {r : Registry} {p : Path} {f : SourceFile}
    (h : r.known? p = some f) : p.OneOf r.paths := by
  have hcontains : r.files.contains p = true := by
    rw [← Bool.not_eq_false, ← SortedMap.get?_eq_none_iff]
    intro hnone
    rw [Registry.known?_eq_none_iff.mpr hnone] at h
    simp at h
  obtain ⟨entry, hentry, hc⟩ := SortedMap.contains_iff.mp hcontains
  exact ⟨entry.1, List.mem_map_of_mem hentry, hc⟩

namespace System

def jobs (s : System) : List Path := s.engine.inFlight.map (·.1) ++ s.active.map (·.path)

/-- A new analysis of the file is coming. -/
def Owes (s : System) (p : Path) : Prop :=
  (∃ paths, s.engine.registry.Told paths ∧ p.OneOf paths) ∨ s.client.Holds p ∨
    s.engine.queue.Awaits p ∨ p.OneOf (s.engine.inFlight.map (·.1))

/-- An analysis of the file as it is now is under way. -/
def Follows (s : System) (p : Path) : Prop :=
  ∃ job ∈ s.active, compare p job.path = .eq ∧ job.stage.Current s.engine p

/-- Every file is owed an analysis, followed by one, or done with. -/
structure Invariant (s : System) : Prop where
  told : ∃ paths, s.engine.registry.Told paths ∧ (s.client ≠ .changed → paths = [])
  sound : s.engine.registry.Sound
  queue : s.engine.queue.WellFormed s.jobs
  stages : ∀ job ∈ s.active, job.stage.Sound s.engine job.path
  files : ∀ p, s.Owes p ∨ s.Follows p ∨ s.engine.Settled p

theorem owes_congr (s : System) {p p' : Path} (h : compare p p' = .eq) : s.Owes p ↔ s.Owes p' := by
  simp only [Owes, Path.oneOf_congr h, Client.holds_congr h, s.engine.queue.awaits_congr h]

theorem follows_congr (s : System) {p p' : Path} (h : compare p p' = .eq) :
    s.Follows p ↔ s.Follows p' := by
  simp only [Follows, TransCmp.congr_left h, Stage.current_congr s.engine h]

theorem invariant_start (config : EngineConfig) (world : World) :
    (start config world).Invariant where
  told := ⟨[], ⟨[], rfl, rfl⟩, fun _ => rfl⟩
  sound p f hf := by simp [start, Engine.ofConfig, EmptyCollection.emptyCollection] at hf
  queue := {
    queued_iff := fun p => by
      simp [start, Engine.ofConfig, Path.not_oneOf_nil, SortedMap.contains, SortedMap.find?,
        EmptyCollection.emptyCollection]
    queue_distinct := List.Pairwise.nil
    stale_of_queued := fun p hp => absurd hp (Path.not_oneOf_nil p)
    running_eq := rfl
    jobs_distinct := List.Pairwise.nil
    analyzing_iff := fun p => by
      simp [start, Engine.ofConfig, Path.not_oneOf_nil, EmptyCollection.emptyCollection, jobs]
    rerun_job := fun p hp => by
      simp [start, Engine.ofConfig, SortedMap.contains, SortedMap.find?,
        EmptyCollection.emptyCollection] at hp
    queued_of_stale := fun p hp => by
      simp [start, Engine.ofConfig, EmptyCollection.emptyCollection] at hp }
  stages job hjob := by simp [start] at hjob
  files p := Or.inr (Or.inr ⟨true, (Engine.landed_of_unknown rfl true).mpr ⟨rfl, rfl⟩, rfl⟩)

theorem Owes.of_told {s : System} {p : Path} {paths : List Path}
    (htold : s.engine.registry.Told paths) (h : p.OneOf paths) : s.Owes p := Or.inl ⟨paths, htold, h⟩

theorem Owes.of_holds {s : System} {p : Path} (h : s.client.Holds p) : s.Owes p := Or.inr (Or.inl h)

theorem Owes.of_awaits {s : System} {p : Path} (h : s.engine.queue.Awaits p) : s.Owes p :=
  Or.inr (Or.inr (Or.inl h))

theorem Owes.of_inFlight {s : System} {p : Path} (h : p.OneOf (s.engine.inFlight.map (·.1))) :
    s.Owes p := Or.inr (Or.inr (Or.inr h))

/-- A step that leaves queue and workers alone. -/
theorem Owes.of_eq {e e' : Engine} {active active' : List Job} {client client' : Client} {p : Path}
    (h : Owes ⟨e, active, client⟩ p)
    (htold : ∀ paths, e.registry.Told paths → p.OneOf paths → Owes ⟨e', active', client'⟩ p)
    (hclient : client.Holds p → Owes ⟨e', active', client'⟩ p)
    (hqueued : e'.queue.queued = e.queue.queued) (hrerun : e'.queue.rerun = e.queue.rerun)
    (hin : e'.inFlight = e.inFlight) : Owes ⟨e', active', client'⟩ p := by
  rcases h with ⟨paths, hpaths, hp⟩ | hp | hp | hp
  · exact htold paths hpaths hp
  · exact hclient hp
  · refine .of_awaits ?_
    simp only [Queue.Awaits, hqueued, hrerun]
    exact hp
  · refine .of_inFlight ?_
    simp only [hin]
    exact hp

/-- More is handed to workers, and what awaits an analysis still does or is handed to one now. -/
theorem Owes.of_handed {e : Engine} {queue : Queue} {ready : List (Path × Trigger)}
    {active : List Job} {client : Client} {p : Path}
    (h : queue.Awaits p ∨ p.OneOf (ready.map (·.1)) ∨ p.OneOf (e.inFlight.map (·.1))) :
    Owes ⟨{ e with queue := queue, inFlight := e.inFlight ++ ready }, active, client⟩ p := by
  rcases h with hp | hp
  · exact .of_awaits hp
  · refine .of_inFlight ?_
    simp only [List.map_append]
    exact (Path.oneOf_append_iff _ _ _).mpr hp.symm

/-! ## The client -/

/-- A step that leaves queue, index and workers alone. -/
theorem Invariant.of_registry {e e' : Engine} {active : List Job} {client client' : Client}
    (h : Invariant ⟨e, active, client⟩)
    (htold : ∃ paths, e'.registry.Told paths ∧ (client' ≠ .changed → paths = []))
    (hsound : e'.registry.Sound)
    (hadmits : ∀ x v, e.registry.Admits x v → e'.registry.Admits x v)
    (hindex : e'.index = e.index) (hqueue : e'.queue = e.queue) (hin : e'.inFlight = e.inFlight)
    (howes : ∀ x, Owes ⟨e, active, client⟩ x → Owes ⟨e', active, client'⟩ x)
    (hknown : ∀ x, e'.registry.known? x = e.registry.known? x ∨ Owes ⟨e', active, client'⟩ x) :
    Invariant ⟨e', active, client'⟩ where
  told := htold
  sound := hsound
  queue := by
    simp only [jobs, hqueue, hin]
    exact h.queue
  stages job hjob :=
    (h.stages job hjob).congr (by rw [hindex]) (hadmits job.path)
  files x := by
    rcases hknown x with hx | hx
    · have hsame : SameAt e e' x := ⟨hx, by rw [hindex]⟩
      rcases h.files x with howed | ⟨job, hjob, hc, hcurrent⟩ | hsettled
      · exact Or.inl (howes x howed)
      · exact Or.inr (Or.inl ⟨job, hjob, hc, hsame.current hcurrent⟩)
      · exact Or.inr (Or.inr (hsame.settled hsettled (by rw [hqueue])))
    · exact Or.inl hx

theorem Owes.of_memoizes {e e' : Engine} {active active' : List Job} {client client' : Client}
    {p : Path} (h : Owes ⟨e, active, client⟩ p) (hregistry : Registry.Memoizes e.registry e'.registry)
    (hqueue : e'.queue = e.queue) (hin : e'.inFlight = e.inFlight)
    (hholds : client.Holds p → client'.Holds p) : Owes ⟨e', active', client'⟩ p :=
  h.of_eq (fun _ htold => .of_told (htold.of_mailboxes_eq hregistry.mailboxes))
    (fun hp => .of_holds (hholds hp)) (by rw [hqueue]) (by rw [hqueue]) hin

/-- A step that only reads, while the client goes on holding what it holds. -/
theorem Invariant.of_memoizes {e e' : Engine} {active : List Job} {client client' : Client}
    (h : Invariant ⟨e, active, client⟩) (hregistry : Registry.Memoizes e.registry e'.registry)
    (hindex : e'.index = e.index) (hqueue : e'.queue = e.queue) (hin : e'.inFlight = e.inFlight)
    (hchanged : client' ≠ .changed → client ≠ .changed)
    (hholds : ∀ x, client.Holds x → client'.Holds x) : Invariant ⟨e', active, client'⟩ := by
  obtain ⟨paths, htold, hpaths⟩ := h.told
  exact h.of_registry
    ⟨paths, htold.of_mailboxes_eq hregistry.mailboxes, fun hne => hpaths (hchanged hne)⟩
    (hregistry.sound h.sound) (fun x v => (hregistry.admits_iff x v).mpr) hindex hqueue hin
    (fun x hx => hx.of_memoizes hregistry hqueue hin (hholds x)) fun x => Or.inl (hregistry.known x)

theorem reports_change {e : Engine} {call : Call} {registry : Registry}
    (h : call.change e = some registry) : ∃ changed, Registry.Reports e.registry registry changed := by
  cases call with
  | openFile path text =>
    simp only [Call.change] at h
    split at h
    · rw [← Option.some.inj h]
      exact ⟨_, e.registry.reports_openFile path text⟩
    · simp at h
  | edit path text =>
    obtain ⟨-, rfl⟩ := Call.change_edit_eq_some_iff.mp h
    exact ⟨_, e.registry.reports_openFile path text⟩
  | remove path =>
    rw [← Option.some.inj h]
    exact e.registry.reports_remove path
  | registerRoot root =>
    obtain ⟨paths, hroot⟩ := Call.change_registerRoot_eq_some_iff.mp h
    exact ⟨_, Registry.reports_registerRoot hroot⟩

theorem Owes.reports {e : Engine} {active : List Job} {client : Client} {p : Path}
    (h : Owes ⟨e, active, client⟩ p) (hclient : client = .free ∨ client = .changed)
    {registry : Registry} {changed : List Path}
    (hreports : Registry.Reports e.registry registry changed) :
    Owes ⟨{ e with registry := registry }, active, .changed⟩ p := by
  refine h.of_eq (fun paths htold hp => ?_) (fun hp => ?_) rfl rfl rfl
  · exact .of_told (hreports.told paths htold) ((Path.oneOf_append_iff _ _ _).mpr (Or.inl hp))
  · rcases hclient with rfl | rfl <;> exact absurd hp id

/-- A change of the registry that is reported. -/
theorem Invariant.reports {e : Engine} {active : List Job} {client : Client}
    (h : Invariant ⟨e, active, client⟩) (hclient : client = .free ∨ client = .changed)
    {registry : Registry} {changed : List Path}
    (hreports : Registry.Reports e.registry registry changed) :
    Invariant ⟨{ e with registry := registry }, active, .changed⟩ := by
  obtain ⟨paths, htold, -⟩ := h.told
  refine h.of_registry ⟨_, hreports.told paths htold, fun hne => absurd rfl hne⟩
    (hreports.sound h.sound) hreports.admits rfl rfl rfl (fun x hx => hx.reports hclient hreports)
    fun x => ?_
  by_cases hx : x.OneOf changed
  · exact Or.inr (.of_told (hreports.told paths htold)
      ((Path.oneOf_append_iff x paths changed).mpr (Or.inr hx)))
  · exact Or.inl (Registry.known?_of_get? (hreports.files x hx))

theorem Invariant.change {e : Engine} {active : List Job} {client : Client}
    (h : Invariant ⟨e, active, client⟩) {call : Call} {registry : Registry}
    (hclient : client = .free ∨ client = .changed) (hcall : call.change e = some registry) :
    Invariant ⟨{ e with registry := registry }, active, .changed⟩ := by
  obtain ⟨changed, hreports⟩ := reports_change hcall
  exact h.reports hclient hreports

theorem Invariant.adopt {e : Engine} {active : List Job} (h : Invariant ⟨e, active, .free⟩)
    (project : Project) :
    Invariant ⟨e.adopt project, active,
      if (e.adopt project).registry.paths.isEmpty then .changed
      else .holding (e.adopt project).registry.paths .dependency⟩ := by
  have hagrees := Engine.agrees_openStore { e with
    parses := e.parses.setLanguageLevel project.languageLevel
    classpath := .buildLenient e.world.disk project.classpath } project
  have hregistry : (e.adopt project).registry = e.registry := hagrees.registry
  refine h.of_memoizes ?_ hagrees.index hagrees.queue hagrees.inFlight (fun _ => by simp)
    fun x hx => absurd hx id
  rw [hregistry]
  exact .refl _

theorem collect_of_told {r : Registry} {paths : List Path} (h : r.Told paths) :
    (r.collect 0).2.map (·.path) = paths ∧ (r.collect 0).1.Told [] ∧
      (r.collect 0).1.files = r.files ∧ (r.collect 0).1.tombstones = r.tombstones := by
  obtain ⟨events, hevents, rfl⟩ := h
  have hcollect : r.collect 0 = ({ r with mailboxes := r.mailboxes.set 0 (some []) }, events) := by
    rw [Registry.collect, hevents]
  have hlength : 0 < r.mailboxes.length := (List.getElem?_eq_some_iff.mp hevents).1
  rw [hcollect]
  exact ⟨rfl, ⟨[], by simp [hlength], rfl⟩, rfl, rfl⟩

theorem Owes.collect {e : Engine} {active : List Job} {p : Path} (h : Owes ⟨e, active, .changed⟩ p) :
    Owes ⟨{ e with registry := (e.registry.collect 0).1 }, active,
      if (e.registry.collect 0).2.isEmpty then .free
      else .holding ((e.registry.collect 0).2.map (·.path)) .content⟩ p := by
  refine h.of_eq (fun paths htold hp => ?_) (fun hp => absurd hp id) rfl rfl rfl
  rw [← (collect_of_told htold).1] at hp
  refine .of_holds ?_
  split
  next hnil => simp [List.isEmpty_iff.mp hnil, Path.not_oneOf_nil] at hp
  next => exact hp

theorem Invariant.collect {e : Engine} {active : List Job} (h : Invariant ⟨e, active, .changed⟩) :
    Invariant ⟨{ e with registry := (e.registry.collect 0).1 }, active,
      if (e.registry.collect 0).2.isEmpty then .free
      else .holding ((e.registry.collect 0).2.map (·.path)) .content⟩ := by
  obtain ⟨paths, htold, -⟩ := h.told
  obtain ⟨hpaths, hempty, hfiles, htombs⟩ := collect_of_told htold
  have hsame := Registry.Changes.of_files_eq hfiles htombs
  exact h.of_registry ⟨[], hempty, fun _ => rfl⟩ (hsame.sound h.sound) hsame.admits rfl rfl rfl
    (fun x hx => hx.collect) fun x => Or.inl (Registry.known?_of_get? (by rw [hfiles]))

theorem Invariant.order {e : Engine} {active : List Job} {paths : List Path} {trigger : Trigger}
    (h : Invariant ⟨e, active, .holding paths trigger⟩) :
    Invariant ⟨(e.orderBatch paths).1, active,
      .ordered (e.orderBatch paths).2.1 (e.orderBatch paths).2.2 trigger⟩ := by
  have hreads := Engine.reads_orderBatch e paths
  exact h.of_memoizes hreads.registry hreads.index hreads.queue hreads.inFlight (fun _ => by simp)
    fun x hx => Engine.oneOf_orderBatch e hx

theorem Owes.enqueueBatch {e : Engine} {active : List Job} {client client' : Client} {p : Path}
    (h : Owes ⟨e, active, client⟩ p) (hwell : e.queue.WellFormed (jobs ⟨e, active, client⟩))
    (order : List Path) (promises : List (Path × List String)) (trigger : Trigger)
    (hholds : client.Holds p → p.OneOf order ∨ client'.Holds p) :
    Owes ⟨e.enqueueBatch order promises trigger, active, client'⟩ p := by
  obtain ⟨-, hcarries, hall⟩ := Queue.schedule_spec hwell e.workers order promises trigger
  rcases h with ⟨paths, htold, hp⟩ | hp | hp | hp
  · exact .of_told htold hp
  · rcases hholds hp with hp | hp
    · exact .of_handed ((hall p hp).imp_right Or.inl)
    · exact .of_holds hp
  · exact .of_handed ((hcarries.awaits p hp).imp_right Or.inl)
  · exact .of_handed (Or.inr (Or.inr hp))

theorem Invariant.enqueueBatch {e : Engine} {active : List Job} {client client' : Client}
    (h : Invariant ⟨e, active, client⟩) (order : List Path) (promises : List (Path × List String))
    (trigger : Trigger) (hchanged : client' ≠ .changed → client ≠ .changed)
    (hholds : ∀ x, client.Holds x → x.OneOf order ∨ client'.Holds x) :
    Invariant ⟨e.enqueueBatch order promises trigger, active, client'⟩ := by
  obtain ⟨paths, htold, hnone⟩ := h.told
  obtain ⟨hwell, hcarries, -⟩ :=
    Queue.schedule_spec h.queue e.workers order promises trigger
  refine ⟨⟨paths, htold, fun hne => hnone (hchanged hne)⟩, h.sound, ?_, h.stages, fun x => ?_⟩
  · refine hwell.perm ?_
    simp only [jobs, Engine.enqueueBatch, List.map_append, List.append_assoc]
    exact List.perm_append_comm_assoc _ _ _
  · rcases h.files x with howed | hfollows | hsettled
    · exact Or.inl (howed.enqueueBatch h.queue order promises trigger (hholds x))
    · exact Or.inr (Or.inl hfollows)
    · rcases hcarries.phase x with hx | hx | hx
      · exact Or.inl (.of_handed (Or.inl hx))
      · exact Or.inl (.of_handed (Or.inr (Or.inl hx)))
      · have hsame : SameAt e (e.enqueueBatch order promises trigger) x := ⟨rfl, rfl⟩
        exact Or.inr (Or.inr (hsame.settled hsettled hx))

theorem Invariant.enqueue {e : Engine} {active : List Job} {order : List Path}
    {promises : List (Path × List String)} {trigger : Trigger}
    (h : Invariant ⟨e, active, .ordered order promises trigger⟩) :
    Invariant ⟨e.enqueueBatch order promises trigger, active, .afterBatch trigger⟩ :=
  h.enqueueBatch order promises trigger (fun _ => by simp) fun _ hx => Or.inl hx

/-! ## The workers -/

/-- The file whose analysis begins is no longer owed one. -/
theorem Owes.start {e : Engine} {active active' : List Job} {client : Client} {p : Path}
    (h : Owes ⟨e, active, client⟩ p) {left right : List (Path × Trigger)} {path : Path}
    {trigger : Trigger} (hin : e.inFlight = left ++ (path, trigger) :: right) :
    compare p path = .eq ∨ Owes ⟨{ e with inFlight := left ++ right }, active', client⟩ p := by
  rcases h with ⟨paths, htold, hp⟩ | hp | hp | hp
  · exact Or.inr (.of_told htold hp)
  · exact Or.inr (.of_holds hp)
  · exact Or.inr (.of_awaits hp)
  · simp only [hin, List.map_append, List.map_cons] at hp
    rw [Path.oneOf_append_iff, Path.oneOf_cons_iff] at hp
    have hrest (hp : p.OneOf (left.map (·.1)) ∨ p.OneOf (right.map (·.1))) :
        p.OneOf ((left ++ right).map (·.1)) := by
      rw [List.map_append]
      exact (Path.oneOf_append_iff _ _ _).mpr hp
    rcases hp with hp | hp | hp
    · exact Or.inr (.of_inFlight (hrest (Or.inl hp)))
    · exact Or.inl hp
    · exact Or.inr (.of_inFlight (hrest (Or.inr hp)))

theorem Invariant.start {e : Engine} {active : List Job} {client : Client}
    (h : Invariant ⟨e, active, client⟩) {left right : List (Path × Trigger)} {path : Path}
    {trigger : Trigger} (hin : e.inFlight = left ++ (path, trigger) :: right) :
    Invariant ⟨{ e with inFlight := left ++ right }, ⟨path, trigger, .viewed e.index⟩ :: active,
      client⟩ := by
  refine ⟨h.told, h.sound, h.queue.perm ?_, fun job hjob => ?_, fun x => ?_⟩
  · simp only [jobs, hin, List.map_append, List.map_cons, List.append_assoc, List.cons_append]
    refine List.Perm.append_left _ ?_
    exact List.perm_middle.symm
  · rcases List.mem_cons.mp hjob with rfl | hjob
    · exact rfl
    · exact (h.stages job hjob).congr rfl fun v hv => hv
  · rcases h.files x with howed | ⟨job, hjob, hc, hcurrent⟩ | hsettled
    · rcases howed.start hin with hc | howed
      · exact Or.inr (Or.inl ⟨_, List.mem_cons_self, hc, trivial⟩)
      · exact Or.inl howed
    · have hsame : SameAt e { e with inFlight := left ++ right } x := ⟨rfl, rfl⟩
      exact Or.inr (Or.inl ⟨job, List.mem_cons_of_mem _ hjob, hc, hsame.current hcurrent⟩)
    · exact Or.inr (Or.inr hsettled)

theorem perm_jobs (e : Engine) (left right : List Job) (client : Client) (job : Job) :
    (jobs ⟨e, left ++ job :: right, client⟩).Perm
      (job.path :: (e.inFlight.map (·.1) ++ (left ++ right).map (·.path))) := by
  simp only [jobs, List.map_append, List.map_cons, ← List.append_assoc]
  exact List.perm_middle

theorem Invariant.other {e : Engine} {left right : List Job} {client : Client} {job other : Job}
    (h : Invariant ⟨e, left ++ job :: right, client⟩) (hother : other ∈ left ++ right) :
    compare other.path job.path ≠ .eq := by
  have hdistinct := (h.queue.perm (perm_jobs e left right client job)).jobs_distinct
  have hnot := Path.not_oneOf_of_pairwise hdistinct
  intro hc
  refine hnot ((Path.oneOf_append_iff _ _ _).mpr (Or.inr ⟨other.path, ?_, OrientedCmp.eq_symm hc⟩))
  exact List.mem_map.mpr ⟨other, hother, rfl⟩

theorem mem_middle_iff {left right : List Job} {job x : Job} :
    x ∈ left ++ job :: right ↔ x = job ∨ x ∈ left ++ right := by
  simp only [List.mem_append, List.mem_cons]
  grind

/-- A file that is being analyzed is not at rest. -/
theorem Invariant.not_settled {e : Engine} {active : List Job} {client : Client}
    (h : Invariant ⟨e, active, client⟩) {job : Job} (hjob : job ∈ active) :
    ¬ e.Settled job.path := by
  rintro ⟨removed, -, hphase⟩
  have hin : job.path.OneOf (jobs ⟨e, active, client⟩) :=
    (Path.oneOf_append_iff _ _ _).mpr (Or.inr (Path.oneOf_of_mem (List.mem_map_of_mem hjob)))
  rw [(h.queue.analyzing_iff job.path).mpr hin] at hphase
  cases removed <;> simp at hphase

theorem Owes.advance {e : Engine} {active active' : List Job} {client : Client} {p : Path}
    (h : Owes ⟨e, active, client⟩ p) (path : Path) (trigger : Trigger) (stage : Stage) :
    Owes ⟨(e.advance path trigger stage).1, active', client⟩ p := by
  have hconfined := Engine.confined_advance e path trigger stage
  exact h.of_eq (fun _ htold => .of_told (htold.of_mailboxes_eq hconfined.mailboxes))
    (fun hp => .of_holds hp) hconfined.queued hconfined.rerun hconfined.inFlight

theorem Invariant.advance {e : Engine} {left right : List Job} {client : Client} {job : Job}
    (h : Invariant ⟨e, left ++ job :: right, client⟩) :
    Invariant ⟨(e.advance job.path job.trigger job.stage).1,
      left ++ { job with stage := (e.advance job.path job.trigger job.stage).2 } :: right,
      client⟩ := by
  have hmem : job ∈ left ++ job :: right := mem_middle_iff.mpr (Or.inl rfl)
  have hstage : job.stage.Sound e job.path := h.stages job hmem
  have hconfined := Engine.confined_advance e job.path job.trigger job.stage
  have hsound := Engine.sound_registry_advance job.trigger h.sound hstage
  have hsound' := Engine.stage_sound_advance job.trigger h.sound hstage
  have hcurrent' := Engine.stage_current_advance job.trigger hstage
  have howes (x : Path) (hx : Owes ⟨e, left ++ job :: right, client⟩ x) :
      Owes ⟨(e.advance job.path job.trigger job.stage).1, left ++
        { job with stage := (e.advance job.path job.trigger job.stage).2 } :: right, client⟩ x :=
    hx.advance job.path job.trigger job.stage
  rcases hnext : e.advance job.path job.trigger job.stage with ⟨e', stage'⟩
  simp only [hnext] at hconfined hsound hsound' hcurrent' howes ⊢
  refine ⟨?_, hsound, ?_, fun other hother => ?_, fun x => ?_⟩
  · obtain ⟨paths, htold, hpaths⟩ := h.told
    exact ⟨paths, htold.of_mailboxes_eq hconfined.mailboxes, hpaths⟩
  · have hjobs : jobs ⟨e', left ++ { job with stage := stage' } :: right, client⟩ =
        jobs ⟨e, left ++ job :: right, client⟩ := by
      simp [jobs, hconfined.inFlight]
    rw [hjobs]
    exact h.queue.of_eq hconfined.phases hconfined.queue hconfined.queued hconfined.rerun
      hconfined.running
  · rcases mem_middle_iff.mp hother with rfl | hother
    · exact hsound'
    · have hne := h.other hother
      exact (h.stages other (mem_middle_iff.mpr (Or.inr hother))).congr
        (hconfined.same _ hne).file (hconfined.admits _ hne)
  · by_cases hc : compare x job.path = .eq
    · rw [owes_congr _ hc, follows_congr _ hc, Engine.settled_congr _ hc]
      rcases h.files job.path with howed | ⟨other, hother, hcother, hcurrent⟩ | hsettled
      · exact Or.inl (howes job.path howed)
      · rcases mem_middle_iff.mp hother with rfl | hother
        · exact Or.inr (Or.inl ⟨_, mem_middle_iff.mpr (Or.inl rfl), ReflCmp.compare_self,
            hcurrent' hcurrent⟩)
        · exact absurd (OrientedCmp.eq_symm hcother) (h.other hother)
      · exact absurd hsettled (h.not_settled hmem)
    · have hsame := hconfined.same x hc
      rcases h.files x with howed | ⟨other, hother, hcother, hcurrent⟩ | hsettled
      · exact Or.inl (howes x howed)
      · rcases mem_middle_iff.mp hother with rfl | hother
        · exact absurd hcother hc
        · exact Or.inr (Or.inl ⟨other, mem_middle_iff.mpr (Or.inr hother), hcother,
            hsame.current hcurrent⟩)
      · exact Or.inr (Or.inr (hsame.settled hsettled (by rw [hconfined.phases])))

theorem Owes.finish {e : Engine} {left right : List Job} {client : Client} {path p : Path}
    {trigger : Trigger} {a : Analysis}
    (h : Owes ⟨e, left ++ ⟨path, trigger, .done a⟩ :: right, client⟩ p)
    (hinvariant : Invariant ⟨e, left ++ ⟨path, trigger, .done a⟩ :: right, client⟩) :
    Owes ⟨{ e with
        queue := (e.queue.finish e.workers path (some a)).1
        inFlight := e.inFlight ++ (e.queue.finish e.workers path (some a)).2 },
      left ++ right, client⟩ p := by
  have hwell := hinvariant.queue.perm (perm_jobs e left right client ⟨path, trigger, .done a⟩)
  obtain ⟨-, hawaits, -⟩ := Queue.finish_spec hwell e.workers a
  rcases h with ⟨paths, htold, hp⟩ | hp | hp | hp
  · exact .of_told htold hp
  · exact .of_holds hp
  · exact .of_handed ((hawaits p (Or.inl hp)).imp_right Or.inl)
  · exact .of_handed (Or.inr (Or.inr hp))

theorem Invariant.finish {e : Engine} {left right : List Job} {client : Client} {path : Path}
    {trigger : Trigger} {a : Analysis}
    (h : Invariant ⟨e, left ++ ⟨path, trigger, .done a⟩ :: right, client⟩) :
    Invariant ⟨{ e with
        queue := (e.queue.finish e.workers path (some a)).1
        inFlight := e.inFlight ++ (e.queue.finish e.workers path (some a)).2 },
      left ++ right, client⟩ := by
  have hmem : (⟨path, trigger, .done a⟩ : Job) ∈ left ++ ⟨path, trigger, .done a⟩ :: right :=
    mem_middle_iff.mpr (Or.inl rfl)
  have hp := perm_jobs e left right client ⟨path, trigger, .done a⟩
  obtain ⟨hwell, -, hphase⟩ := Queue.finish_spec (h.queue.perm hp) e.workers a
  have howes (x : Path) (hx : Owes ⟨e, left ++ ⟨path, trigger, .done a⟩ :: right, client⟩ x) := hx.finish h
  generalize e.queue.finish e.workers path (some a) = next at *
  obtain ⟨queue, ready⟩ := next
  refine ⟨h.told, h.sound, hwell.perm ?_, fun other hother => ?_, fun x => ?_⟩
  · simp only [jobs, List.map_append, List.append_assoc]
    exact List.perm_append_comm_assoc _ _ _
  · exact (h.stages other (mem_middle_iff.mpr (Or.inr hother))).congr rfl fun v hv => hv
  · have hsame : SameAt e { e with queue := queue, inFlight := e.inFlight ++ ready } x := ⟨rfl, rfl⟩
    rcases h.files x with howed | ⟨other, hother, hcother, hcurrent⟩ | hsettled
    · exact Or.inl (howes x howed)
    · rcases mem_middle_iff.mp hother with rfl | hother
      · rcases hphase x with hx | hx | hx
        · exact Or.inl (.of_handed (Or.inl hx))
        · exact Or.inl (.of_handed (Or.inr (Or.inl hx)))
        · rw [if_pos hcother] at hx
          exact Or.inr (Or.inr ⟨a.removed, (hsame.landed_iff _).mpr hcurrent, hx⟩)
      · exact Or.inr (Or.inl ⟨other, hother, hcother, hsame.current hcurrent⟩)
    · have hne : compare x path ≠ .eq := by
        intro hc
        exact h.not_settled hmem ((Engine.settled_congr e hc).mp hsettled)
      rcases hphase x with hx | hx | hx
      · exact Or.inl (.of_handed (Or.inl hx))
      · exact Or.inl (.of_handed (Or.inr (Or.inl hx)))
      · rw [if_neg hne] at hx
        exact Or.inr (Or.inr (hsame.settled hsettled hx))

/-! ## Every run -/

theorem Invariant.step {s s' : System} (h : s.Invariant) (hstep : Step s s') : s'.Invariant := by
  cases hstep with
  | disk e active client disk => exact ⟨h.told, h.sound, h.queue, h.stages, h.files⟩
  | change e active client call registry hclient hcall => exact h.change hclient hcall
  | adopt e active project => exact h.adopt project
  | keep e active project => exact ⟨h.told, h.sound, h.queue, h.stages, h.files⟩
  | collect e active => exact h.collect
  | order e active paths trigger => exact h.order
  | enqueue e active order promises trigger => exact h.enqueue
  | start e active client left right path trigger hin => exact h.start hin
  | advance e left right client job hstage => exact h.advance
  | finish e left right client path trigger a => exact h.finish

theorem Invariant.run {s s' : System} (h : s.Invariant) (hrun : Run s s') : s'.Invariant := by
  induction hrun with
  | refl => exact h
  | tail _ hstep ih => exact ih.step hstep

/-- With nothing waiting and no worker busy, a file whose client is between calls is done with. -/
theorem Invariant.settled {e : Engine} {active : List Job} (h : Invariant ⟨e, active, .free⟩)
    (hidle : e.isIdle = true) (p : Path) : e.Settled p := by
  obtain ⟨hjobs, hawaits⟩ := h.queue.of_isIdle hidle
  have hnone : e.inFlight.map (·.1) = [] ∧ active.map (·.path) = [] :=
    List.append_eq_nil_iff.mp hjobs
  rcases h.files p with howed | ⟨job, hjob, -⟩ | hsettled
  · rcases howed with ⟨paths, htold, hp⟩ | hp | hp | hp
    · obtain ⟨paths', htold', hempty⟩ := h.told
      rw [← (collect_of_told htold).1, (collect_of_told htold').1, hempty (by simp)] at hp
      exact absurd hp (Path.not_oneOf_nil p)
    · exact absurd hp id
    · exact absurd hp (hawaits p)
    · simp only [hnone.1] at hp
      exact absurd hp (Path.not_oneOf_nil p)
  · rw [List.map_eq_nil_iff.mp hnone.2] at hjob
    simp at hjob
  · exact hsettled

/-- However calls and analyses were interleaved, once the engine is idle and the client between calls
the index holds exactly the registered files, each under the fingerprint of its current text, fresh
and recorded as analyzed; and no other file has a phase. -/
theorem nothing_lost_when_idle {config : EngineConfig} {world : World} {s : System}
    (hrun : Run (start config world) s) (hidle : s.engine.isIdle = true)
    (hclient : s.client = .free) :
    (∀ p, s.engine.index.files.contains p = s.engine.registry.contains p) ∧
    (∀ p f, s.engine.registry.files.get? p = some f →
      s.engine.index.fingerprint? p = some (.ofText f.text) ∧
      s.engine.queue.phases.get? p = some .fresh ∧
      f.lastAnalyzed.map (·.1) = some (.ofText f.text)) ∧
    ∀ p, s.engine.registry.contains p = false → s.engine.queue.phases.get? p = none := by
  obtain ⟨e, active, client⟩ := s
  obtain rfl : client = .free := hclient
  have hinvariant := (invariant_start config world).run hrun
  have hknown (p : Path) (f : SourceFile) (hf : e.registry.files.get? p = some f) :
      e.index.fingerprint? p = some (.ofText f.text) ∧ e.queue.phases.get? p = some .fresh ∧
        f.lastAnalyzed.map (·.1) = some (.ofText f.text) := by
    obtain ⟨removed, hlanded, hphase⟩ := hinvariant.settled hidle p
    obtain ⟨rfl, hprint, hrecord⟩ :=
      (Engine.landed_of_known? (Registry.known?_of_some hf) removed).mp hlanded
    exact ⟨hprint, hphase, hrecord⟩
  have hunknown (p : Path) (hnone : e.registry.contains p = false) :
      e.index.file? p = none ∧ e.queue.phases.get? p = none := by
    obtain ⟨removed, hlanded, hphase⟩ := hinvariant.settled hidle p
    have hget := Registry.known?_eq_none_iff.mpr (SortedMap.get?_eq_none_iff.mpr hnone)
    obtain ⟨rfl, hfile⟩ := (Engine.landed_of_unknown hget removed).mp hlanded
    exact ⟨hfile, hphase⟩
  refine ⟨fun p => ?_, hknown, fun p hnone => (hunknown p hnone).2⟩
  cases hc : e.registry.contains p with
  | false => exact SortedMap.get?_eq_none_iff.mp (hunknown p hc).1
  | true =>
    obtain ⟨f, hf⟩ := SortedMap.contains_iff_exists_get?.mp hc
    obtain ⟨entry, hentry, -⟩ := Option.map_eq_some_iff.mp (hknown p f hf).1
    exact SortedMap.contains_iff_exists_get?.mpr ⟨entry, hentry⟩

/-- A new engine in which one file was opened. -/
def opened : Engine :=
  let e := Engine.ofConfig {} {}
  { e with registry := (e.registry.openFile ⟨"/a.java"⟩ "class A {}").1 }.drainChanges.1

/-- The file is removed again before a worker gets to it, which flags it for a second analysis. -/
def openedAndRemoved : Engine := (opened.remove ⟨"/a.java"⟩).1.step.step

theorem nothing_lost_openedAndRemoved :
    openedAndRemoved.isIdle = true ∧ openedAndRemoved.queue.completed = 2 ∧
      openedAndRemoved.registry.contains ⟨"/a.java"⟩ = false ∧
      openedAndRemoved.queue.phases.get? ⟨"/a.java"⟩ = none := by
  have hopen : (Call.openFile ⟨"/a.java"⟩ "class A {}").run (.ofConfig {} {}) = some opened :=
    Call.run_openFile_of_source (by decide +kernel) _ _
  have hremove : (Call.remove ⟨"/a.java"⟩).run opened = some (opened.remove ⟨"/a.java"⟩).1 := rfl
  have hrun : Run (start {} {}) ⟨openedAndRemoved, [], .free⟩ :=
    (((run_call hopen []).trans (run_call hremove [])).trans (run_step _ [] .free)).trans
      (run_step (opened.remove ⟨"/a.java"⟩).1.step [] .free)
  have hidle : openedAndRemoved.isIdle = true := by decide +kernel
  have hgone : openedAndRemoved.registry.contains ⟨"/a.java"⟩ = false := by decide +kernel
  exact ⟨hidle, by decide +kernel, hgone, (nothing_lost_when_idle hrun hidle rfl).2.2 _ hgone⟩

end System

end JavaAtlas
