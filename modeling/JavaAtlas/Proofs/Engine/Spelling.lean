import JavaAtlas.Proofs.Engine.Traced
import JavaAtlas.Proofs.Path

/-!
# The paths a run deals with

A client may spell a path in any way, but the registry takes it in its normal form, and from there
on the parties only pass on what they were given. So if the normal paths of all files registered are
of some kind, then so is every path that is reported, queued, analyzed or indexed.
-/

namespace JavaAtlas

set_option autoImplicit false

open Std (TransCmp OrientedCmp ReflCmp)

/-! ## The registry -/

namespace Registry

/-- The files held, and those reported to the engine, are of a kind. -/
structure Within (r : Registry) (kind : Path → Prop) : Prop where
  held : ∀ p ∈ r.paths, kind p
  told : ∀ paths, r.Told paths → ∀ p ∈ paths, kind p

variable {r r' : Registry} {kind : Path → Prop}

theorem mem_paths_iff {p : Path} : p ∈ r.paths ↔ ∃ f, (p, f) ∈ r.files.entries :=
  SortedMap.mem_keys_iff r.files p

theorem contains_of_mem_paths {p : Path} (h : p ∈ r.paths) : r.contains p = true := by
  obtain ⟨f, hf⟩ := mem_paths_iff.mp h
  exact SortedMap.contains_iff.mpr ⟨_, hf, ReflCmp.compare_self⟩

theorem contains_iff_oneOf_paths (r : Registry) (p : Path) : r.contains p = true ↔ p.OneOf r.paths := by
  rw [contains, SortedMap.contains_iff]
  simp [Path.OneOf, paths, SortedMap.keys]

theorem contains_congr (h : r'.paths = r.paths) (p : Path) : r'.contains p = r.contains p := by
  rw [Bool.eq_iff_iff, contains_iff_oneOf_paths, contains_iff_oneOf_paths, h]

theorem paths_collect (r : Registry) (subscriber : Nat) : (r.collect subscriber).1.paths = r.paths := by
  rw [collect]
  split <;> rfl

theorem paths_file (r : Registry) (p : Path) : (r.file p).1.paths = r.paths :=
  SortedMap.keys_adjust _ _ _

theorem paths_setLastAnalyzed (r : Registry) (p : Path) (print : Fingerprint) (v : Nat) :
    (r.setLastAnalyzed p print v).paths = r.paths :=
  SortedMap.keys_adjust _ _ _

theorem paths_releaseTombstone (r : Registry) (p : Path) : (r.releaseTombstone p).paths = r.paths := by
  rw [paths, files_releaseTombstone, paths]

theorem mem_paths_setText {p q : Path} {text : String} (h : q ∈ (r.setText p text).1.paths) :
    q = p ∨ q ∈ r.paths := by
  obtain ⟨f, hf⟩ := mem_paths_iff.mp h
  have hinserted : ∃ g, (q, f) ∈ (r.files.insert p g).entries := by
    rw [setText] at hf
    split at hf
    · exact ⟨_, hf⟩
    · exact ⟨_, hf⟩
  obtain ⟨g, hg⟩ := hinserted
  rcases (SortedMap.mem_insert_iff _ _ _ _).mp hg with hg | ⟨hg, -⟩
  · exact Or.inl (Prod.mk.inj hg).1
  · exact Or.inr (mem_paths_iff.mpr ⟨f, hg⟩)

theorem contains_setText (r : Registry) (p q : Path) (text : String) :
    (r.setText p text).1.contains q = (r.contains q || compare q p == .eq) := by
  rw [setText]
  split <;> simp only [contains, SortedMap.contains_insert, Bool.or_comm]

namespace Within

theorem of_subset (h : r.Within kind) (hpaths : r'.paths ⊆ r.paths)
    (hmail : r'.mailboxes = r.mailboxes) : r'.Within kind where
  held p hp := h.held p (hpaths hp)
  told paths htold := h.told paths (htold.of_mailboxes_eq hmail.symm)

theorem of_paths_eq (h : r.Within kind) (hpaths : r'.paths = r.paths)
    (hmail : r'.mailboxes = r.mailboxes) : r'.Within kind :=
  h.of_subset (hpaths ▸ List.Subset.refl _) hmail

theorem setText (h : r.Within kind) {p : Path} (hp : kind p) (text : String) :
    (r.setText p text).1.Within kind where
  held q hq := by
    rcases mem_paths_setText hq with rfl | hq
    · exact hp
    · exact h.held q hq
  told paths htold := h.told paths (htold.of_mailboxes_eq (mailboxes_setText r p text).symm)

theorem emit (h : r.Within kind) {events : List ChangeEvent} (hevents : ∀ x ∈ events, kind x.path) :
    (r.emit events).Within kind where
  held := h.held
  told paths htold p hp := by
    obtain ⟨after, hafter, rfl⟩ := htold
    simp only [Registry.emit, List.getElem?_map, Option.map_eq_some_iff] at hafter
    obtain ⟨box, hbox, old, rfl, rfl⟩ := hafter
    rw [List.map_append, List.mem_append] at hp
    rcases hp with hp | hp
    · exact h.told _ ⟨old, hbox, rfl⟩ p hp
    · obtain ⟨x, hx, rfl⟩ := List.mem_map.mp hp
      exact hevents x hx

theorem openFile (h : r.Within kind) {p : Path} (hp : kind p.normalize) (text : String) :
    (r.openFile p text).1.Within kind := by
  have hevents : ∀ x ∈ [(r.setText p.normalize text).2], kind x.path := by
    intro x hx
    rw [List.mem_singleton.mp hx, path_setText]
    exact hp
  exact (h.setText hp text).emit hevents

theorem collect (h : r.Within kind) : (r.collect 0).1.Within kind ∧
    ∀ p ∈ (r.collect 0).2.map (·.path), kind p := by
  rw [Registry.collect]
  split
  · rename_i events hevents
    have hlength : 0 < r.mailboxes.length := (List.getElem?_eq_some_iff.mp hevents).1
    refine ⟨⟨h.held, fun paths htold p hp => ?_⟩, h.told _ ⟨events, hevents, rfl⟩⟩
    obtain ⟨left, hleft, rfl⟩ := htold
    simp only [List.getElem?_set_self hlength, Option.some.injEq] at hleft
    simp [← hleft] at hp
  · exact ⟨h, by simp⟩

end Within

theorem kind_of_contains (h : ∀ p ∈ r.paths, kind p) (hnormal : ∀ p, kind p → p.normalize = p)
    {p : Path} (hp : p.normalize = p) (hcontains : r.contains p = true) : kind p := by
  obtain ⟨entry, hentry, hc⟩ := SortedMap.contains_iff.mp hcontains
  have hkey : kind entry.1 := h _ (mem_paths_iff.mpr ⟨entry.2, hentry⟩)
  rwa [Path.eq_of_normal hp (hnormal _ hkey) hc]

/-! ## Reading a root -/

theorem contains_loadFile (state : Registry × List ChangeEvent) (source : Path × String) (p : Path) :
    (loadFile state source).1.contains p = (state.1.contains p || compare p source.1 == .eq) := by
  obtain ⟨r, events⟩ := state
  simp only [loadFile]
  split
  · rename_i hsame
    rw [Option.any_eq_true] at hsame
    obtain ⟨f, hf, -⟩ := hsame
    have hsource : r.contains source.1 = true := SortedMap.contains_iff_exists_get?.mpr ⟨f, hf⟩
    by_cases hc : compare p source.1 = .eq
    · rw [contains, SortedMap.contains_congr _ hc] at *
      simp [hsource]
    · simp [hc]
  · exact contains_setText r source.1 p source.2

theorem contains_foldl_loadFile (sources : List (Path × String))
    (state : Registry × List ChangeEvent) {p : Path}
    (h : state.1.contains p = true ∨ p ∈ sources.map (·.1)) :
    (sources.foldl loadFile state).1.contains p = true := by
  induction sources generalizing state with
  | nil => exact h.resolve_right (by simp)
  | cons source sources ih =>
    rw [List.foldl_cons]
    apply ih
    rw [contains_loadFile, Bool.or_eq_true, beq_iff_eq]
    rw [List.map_cons, List.mem_cons] at h
    rcases h with h | rfl | h
    · exact Or.inl (Or.inl h)
    · exact Or.inl (Or.inr ReflCmp.compare_self)
    · exact Or.inr h

theorem Within.foldl_loadFile (sources : List (Path × String))
    (state : Registry × List ChangeEvent) (h : state.1.Within kind) (hevents : ∀ x ∈ state.2, kind x.path)
    (hsources : ∀ p ∈ sources.map (·.1), kind p) :
    (sources.foldl loadFile state).1.Within kind ∧
      ∀ x ∈ (sources.foldl loadFile state).2, kind x.path := by
  induction sources generalizing state with
  | nil => exact ⟨h, hevents⟩
  | cons source sources ih =>
    have hsource : kind source.1 := hsources _ List.mem_cons_self
    have hrest : ∀ p ∈ sources.map (·.1), kind p :=
      fun p hp => hsources p (List.mem_cons_of_mem _ hp)
    rw [List.foldl_cons, loadFile]
    split
    · exact ih _ h hevents hrest
    · refine ih _ (h.setText hsource source.2) (fun x hx => ?_) hrest
      rcases List.mem_append.mp hx with hx | hx
      · exact hevents x hx
      · rw [List.mem_singleton.mp hx, path_setText]
        exact hsource

theorem normal_of_mem_readSources {root : Path} {entries : List (Path × DiskNode)}
    {sources : List (Path × String)} (h : readSources root entries = .ok sources) {p : Path}
    (hp : p ∈ sources.map (·.1)) : p.normalize = p := by
  induction entries generalizing sources with
  | nil =>
    cases h
    simp at hp
  | cons entry rest ih =>
    obtain ⟨path, node⟩ := entry
    cases node with
    | directory | archive => exact ih h hp
    | sealed => simp [readSources] at h
    | locked =>
      rw [readSources] at h
      split at h
      · simp at h
      · exact ih h hp
    | file bytes =>
      rw [readSources] at h
      split at h
      · cases hrest : readSources root rest with
        | error err => simp [hrest, bind, Except.bind] at h
        | ok later =>
          obtain rfl : (path.normalize, Text.decodeLossy bytes) :: later = sources := by
            simpa [hrest, bind, Except.bind, pure, Except.pure] using h
          obtain rfl | hlater := List.mem_cons.mp hp
          · exact Path.normalize_normalize path
          · exact ih hrest hlater
      · exact ih h hp

theorem contains_registerRoot {disk : Disk} {root p : Path} {changed : List Path}
    (h : r.registerRoot disk root = (r', .ok changed)) (hp : r.contains p = true) :
    r'.contains p = true := by
  obtain ⟨-, sources, -, rfl, -⟩ := registerRoot_eq_ok_iff.mp h
  obtain ⟨roots, hroots⟩ := r.withRoot_eq root.normalize
  refine contains_foldl_loadFile _ _ (Or.inl ?_)
  rw [hroots]
  exact hp

theorem Within.registerRoot (h : r.Within kind) {disk : Disk} {root : Path} {changed : List Path}
    (hroot : r.registerRoot disk root = (r', .ok changed))
    (hkind : ∀ p, p.normalize = p → r'.contains p = true → kind p) : r'.Within kind := by
  obtain ⟨-, sources, hread, rfl, -⟩ := registerRoot_eq_ok_iff.mp hroot
  obtain ⟨roots, hroots⟩ := r.withRoot_eq root.normalize
  have hwithin : (r.withRoot root.normalize).Within kind := by
    rw [hroots]
    exact h.of_paths_eq rfl rfl
  -- whatever is read from the disk is in the registry in the end, so it is of the kind
  have hsources : ∀ p ∈ sources.map (·.1), kind p := fun p hp =>
    hkind p (normal_of_mem_readSources hread hp)
      (contains_foldl_loadFile _ (r.withRoot root.normalize, []) (Or.inr hp))
  obtain ⟨hfiles, hevents⟩ :=
    Within.foldl_loadFile _ (r.withRoot root.normalize, []) hwithin (by simp) hsources
  exact hfiles.emit hevents

end Registry

theorem Call.within_change {e : Engine} {call : Call} {registry : Registry} {kind : Path → Prop}
    (h : e.registry.Within kind) (hnormal : ∀ p, kind p → p.normalize = p)
    (hcall : call.change e = some registry)
    (hkind : ∀ p, p.normalize = p → registry.contains p = true → kind p) :
    registry.Within kind := by
  have hopen (path : Path) (text : String) (hr : (e.registry.openFile path text).1 = registry) :
      registry.Within kind := by
    rw [← hr]
    refine h.openFile (hkind _ path.normalize_normalize ?_) text
    rw [← hr]
    exact (Registry.contains_setText e.registry _ _ text).trans (by simp)
  cases call with
  | openFile path text =>
    simp only [Call.change] at hcall
    split at hcall
    · exact hopen path text (Option.some.inj hcall)
    · simp at hcall
  | edit path text =>
    exact hopen path text (Call.change_edit_eq_some_iff.mp hcall).2
  | remove path =>
    rw [← Option.some.inj hcall, Registry.remove]
    split
    · exact h
    · rename_i file hfile
      have hpath : kind path.normalize := Registry.kind_of_contains h.held hnormal
        path.normalize_normalize (SortedMap.contains_iff_exists_get?.mpr ⟨file, hfile⟩)
      have hleft : ({ e.registry with
          files := e.registry.files.erase path.normalize
          tombstones := e.registry.tombstones.insert path.normalize file.version } :
            Registry).Within kind := by
        refine h.of_subset (fun p hp => ?_) rfl
        obtain ⟨f, hf⟩ := Registry.mem_paths_iff.mp hp
        exact Registry.mem_paths_iff.mpr ⟨f, ((SortedMap.mem_erase_iff _ _ _).mp hf).1⟩
      refine hleft.emit fun x hx => ?_
      rw [List.mem_singleton.mp hx]
      exact hpath
  | registerRoot root =>
    obtain ⟨paths, hroot⟩ := Call.change_registerRoot_eq_some_iff.mp hcall
    exact h.registerRoot hroot hkind

/-! ## All parties -/

/-- The files of the index seen, and those to be looked at again, are of a kind. -/
def Stage.Within (kind : Path → Prop) : Stage → Prop
  | .viewed before | .found before _ | .bound before _ _ _ | .published before _ _ _
  | .recorded before _ _ _ | .missing before | .dropped before _ | .evicted before _ =>
    before.Exact ∧ ∀ x ∈ before.entries, kind x.path
  | .judged a | .released a _ | .done a => ∀ p ∈ SortedSet.toList a.stale, kind p

def Client.Within (kind : Path → Prop) : Client → Prop
  | .free | .changed => True
  | .holding paths _ => ∀ p ∈ paths, kind p
  | .ordered order _ _ => ∀ p ∈ order, kind p

namespace Engine

variable {e : Engine} {kind : Path → Prop}

theorem Within.of_eq {e' : Engine} (h : e.Within kind) (hqueue : e'.queue = e.queue)
    (hin : e'.inFlight = e.inFlight) (hindex : e'.index = e.index) : e'.Within kind where
  queue := by
    rw [hqueue]
    exact h.queue
  inFlight := by
    rw [hin]
    exact h.inFlight
  indexed := by
    rw [hindex]
    exact h.indexed

theorem paths_orderBatch (e : Engine) (paths : List Path) :
    (e.orderBatch paths).1.registry.paths = e.registry.paths :=
  orderBatch_keeps (·.registry.paths)
    (fun e path => congrArg Registry.paths (agrees_loadRecord e path).registry)
    (fun e path => e.registry.paths_file path) e paths

theorem paths_advance (e : Engine) (path : Path) (trigger : Trigger) (stage : Stage) :
    (e.advance path trigger stage).1.registry.paths = e.registry.paths := by
  cases stage with
  | viewed before =>
    have hpaths := e.registry.paths_file path
    rcases hfile : e.registry.file path with ⟨registry, _ | file⟩ <;> rw [advance, hfile]
    rwa [hfile] at hpaths
  | found before file =>
    rw [advance]
    split
    · rfl
    · rw [(agrees_symbolsAgainst e before path trigger file).registry]
  | published before file outcome fromCache => exact e.registry.paths_setLastAnalyzed path _ _
  | dropped before removed => rw [advance, (agrees_removeRecord e path).registry]
  | evicted before removed => exact e.registry.paths_releaseTombstone path
  | _ => rfl

theorem indexed_upsert (h : e.Within kind) (hindex : e.index.Exact) {path : Path} (hpath : kind path)
    (print : Fingerprint) (symbols : FileSymbols) :
    ∀ x ∈ (e.index.upsert path print symbols).1.entries, kind x.path := by
  intro x hx
  rcases hindex.mem_or_eq_of_mem_upsert hx with hx | rfl
  · exact h.indexed x hx
  · exact hpath

/-- One moment of an analysis brings no other path than that of its file. -/
theorem within_advance (h : e.Within kind) (hindex : e.index.Exact) {path : Path}
    (hpath : kind path) (trigger : Trigger) {stage : Stage} (hstage : stage.Within kind) :
    (e.advance path trigger stage).1.Within kind ∧ (e.advance path trigger stage).2.Within kind := by
  have hnone : ∀ p ∈ SortedSet.toList (∅ : SortedSet Path), kind p := by
    simp [SortedSet.toList, SortedMap.keys, EmptyCollection.emptyCollection]
  cases stage with
  | viewed before =>
    rcases hfound : e.registry.file path with ⟨registry, _ | file⟩ <;> rw [advance, hfound]
    · exact ⟨h, hstage⟩
    · exact ⟨h.of_eq rfl rfl rfl, hstage⟩
  | found before file =>
    rw [advance]
    split
    · exact ⟨h, hnone⟩
    · have hagrees := agrees_symbolsAgainst e before path trigger file
      exact ⟨h.of_eq hagrees.queue hagrees.inFlight hagrees.index, hstage⟩
  | bound before file symbols fromCache =>
    exact ⟨⟨h.queue, h.inFlight, indexed_upsert h hindex hpath _ _⟩, hstage⟩
  | published before file outcome fromCache => exact ⟨h.of_eq rfl rfl rfl, hstage⟩
  | recorded before file outcome fromCache =>
    refine ⟨h, fun p hp => ?_⟩
    obtain ⟨x, hx | hx, rfl⟩ := mem_staleAfter hstage.1 hindex hp
    · exact hstage.2 x hx
    · exact h.indexed x hx
  | missing before =>
    refine ⟨⟨h.queue, h.inFlight, fun x hx => ?_⟩, hstage⟩
    exact h.indexed x (hindex.mem_of_mem_remove hx)
  | dropped before removed =>
    have hagrees := agrees_removeRecord e path
    exact ⟨h.of_eq hagrees.queue hagrees.inFlight hagrees.index, hstage⟩
  | evicted before removed =>
    refine ⟨h.of_eq rfl rfl rfl, fun p hp => ?_⟩
    simp only at hp
    split at hp
    · obtain ⟨x, hx, rfl⟩ :=
        hstage.1.mem_entries_of_mem_dependents (SortedSet.mem_of_mem_ofList hp)
      exact hstage.2 x hx
    · exact hnone p hp
  | judged a => exact ⟨⟨h.queue, h.inFlight, h.indexed⟩, hstage⟩
  | released a promised =>
    refine ⟨h, fun p hp => ?_⟩
    rcases SortedSet.mem_addAll ((SortedSet.mem_toList_erase_iff _ path p).mp hp).1 with hp | hp
    · exact hstage p hp
    · obtain ⟨x, hx, rfl⟩ := mem_disappointed hindex hp
      exact h.indexed x hx
  | done a => exact ⟨h, hstage⟩

end Engine

namespace System

/-- All files that any of the parties deals with are of a kind. -/
structure Within (s : System) (kind : Path → Prop) : Prop where
  registry : s.engine.registry.Within kind
  client : s.client.Within kind
  engine : s.engine.Within kind
  jobs : ∀ job ∈ s.active, kind job.path ∧ job.stage.Within kind

variable {kind : Path → Prop}

theorem within_start (config : EngineConfig) (world : World) (kind : Path → Prop) :
    (start config world).Within kind where
  registry := by
    refine ⟨fun p hp => ?_, fun paths htold p hp => ?_⟩
    · simp [start, Engine.ofConfig, Registry.paths, SortedMap.keys,
        EmptyCollection.emptyCollection] at hp
    · obtain ⟨events, hevents, rfl⟩ := htold
      simp only [start, Engine.ofConfig, List.getElem?_cons_zero, Option.some.injEq] at hevents
      simp [← hevents] at hp
  client := trivial
  engine := by
    refine ⟨fun p hp => ?_, fun job hjob => ?_, fun x hx => ?_⟩
    · simp [start, Engine.ofConfig] at hp
    · simp [start, Engine.ofConfig] at hjob
    · simp [start, Engine.ofConfig, Snapshot.entries, SortedMap.values,
        EmptyCollection.emptyCollection] at hx
  jobs job hjob := by simp [start] at hjob

/-- Only a change of the registry brings new paths, in normal form. -/
theorem Within.step {s s' : System} (h : s.Within kind) (hexact : s.engine.index.Exact)
    (hnormal : ∀ p, kind p → p.normalize = p) (hstep : Step s s')
    (hkind : ∀ p, p.normalize = p → s'.engine.registry.contains p = true → kind p) :
    s'.Within kind := by
  cases hstep with
  | disk e active client disk => exact ⟨h.registry, h.client, h.engine.of_eq rfl rfl rfl, h.jobs⟩
  | change e active client call registry hclient hcall =>
    exact ⟨Call.within_change h.registry hnormal hcall hkind, trivial, h.engine.of_eq rfl rfl rfl,
      h.jobs⟩
  | adopt e active project =>
    obtain ⟨hagrees, -⟩ := e.adopt_spec project
    have hregistry : (e.adopt project).registry = e.registry := hagrees.registry
    refine ⟨?_, ?_, h.engine.of_eq hagrees.queue hagrees.inFlight hagrees.index, h.jobs⟩
    · rw [hregistry]
      exact h.registry
    · rw [hregistry]
      split
      · exact trivial
      · exact h.registry.held
  | keep e active project => exact ⟨h.registry, trivial, h.engine.of_eq rfl rfl rfl, h.jobs⟩
  | collect e active =>
    obtain ⟨hregistry, hpaths⟩ := h.registry.collect
    refine ⟨hregistry, ?_, h.engine.of_eq rfl rfl rfl, h.jobs⟩
    split
    · exact trivial
    · exact hpaths
  | order e active paths trigger =>
    have hreads := e.reads_orderBatch paths
    refine ⟨h.registry.of_paths_eq (e.paths_orderBatch paths) hreads.registry.mailboxes,
      fun p hp => ?_, h.engine.of_eq hreads.queue hreads.inFlight hreads.index, h.jobs⟩
    exact h.client p (SortedSet.mem_of_mem_ofList (BatchOrder.mem_of_mem_ordered hp))
  | enqueue e active order promises trigger =>
    obtain ⟨hqueue, hready⟩ := h.engine.queue.schedule h.client e.workers promises trigger
    refine ⟨h.registry, ?_, ⟨hqueue, fun job hjob => ?_, h.engine.indexed⟩, h.jobs⟩
    · cases trigger <;> exact trivial
    · rcases List.mem_append.mp hjob with hjob | hjob
      · exact h.engine.inFlight job hjob
      · exact hready job hjob
  | start e active client left right path trigger hin =>
    have hin' : ∀ job ∈ left ++ (path, trigger) :: right, kind job.1 := hin ▸ h.engine.inFlight
    refine ⟨h.registry, h.client, ⟨h.engine.queue, fun job hjob => hin' job ?_, h.engine.indexed⟩,
      fun job hjob => ?_⟩
    · exact (List.Sublist.append_left (List.sublist_cons_self _ right) left).subset hjob
    · rcases List.mem_cons.mp hjob with rfl | hjob
      · exact ⟨hin' (path, trigger) (by simp), hexact, h.engine.indexed⟩
      · exact h.jobs job hjob
  | advance e left right client job hstage =>
    obtain ⟨hpath, hwithin⟩ := h.jobs job (mem_middle_iff.mpr (Or.inl rfl))
    obtain ⟨hengine, hnext⟩ :=
      Engine.within_advance h.engine hexact hpath job.trigger hwithin
    have hmail := (Engine.confined_advance e job.path job.trigger job.stage).mailboxes
    refine ⟨h.registry.of_paths_eq (e.paths_advance _ _ _) hmail, h.client, hengine,
      fun other hother => ?_⟩
    rcases mem_middle_iff.mp hother with rfl | hother
    · exact ⟨hpath, hnext⟩
    · exact h.jobs other (mem_middle_iff.mpr (Or.inr hother))
  | finish e left right client path trigger a =>
    obtain ⟨hpath, hstale⟩ := h.jobs _ (mem_middle_iff.mpr (Or.inl rfl))
    obtain ⟨hqueue, hready⟩ := h.engine.queue.finish hpath hstale e.workers
    refine ⟨h.registry, h.client, ⟨hqueue, fun job hjob => ?_, h.engine.indexed⟩, fun job hjob => ?_⟩
    · rcases List.mem_append.mp hjob with hjob | hjob
      · exact h.engine.inFlight job hjob
      · exact hready job hjob
    · exact h.jobs job (mem_middle_iff.mpr (Or.inr hjob))

theorem normal_of_run {config : EngineConfig} {world : World} {s : System}
    (hrun : Run (start config world) s) : s.Within fun p => p.normalize = p := by
  induction hrun with
  | refl => exact within_start config world _
  | tail hrun hstep ih =>
    exact ih.step (sane_of_run hrun).traced.exact (fun _ => id) hstep fun p hp _ => hp

end System

end JavaAtlas
