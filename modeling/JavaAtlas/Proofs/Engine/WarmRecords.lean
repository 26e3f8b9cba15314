import JavaAtlas.Proofs.Completion.Packages
import JavaAtlas.Proofs.Engine.Converging
import JavaAtlas.Proofs.Engine.Spelling
import JavaAtlas.Proofs.Engine.Undelivered

/-!
# Loading a project whose files are on record

Once a project is loaded, exactly its files wait to be analyzed, and what is promised for them is what
their texts declare. So with records and without, every file comes to be bound as among all files of
the project, unless it shows a record that deceives. Main statement: file by file, a load with records
ends as one without exactly where it does not show such a record.
-/

namespace JavaAtlas

set_option autoImplicit false

open Std (TransCmp OrientedCmp ReflCmp)

/-! ## The texts of a registry -/

namespace Registry

variable {r : Registry}

def texts (r : Registry) : List (Path × String) := r.files.entries.map fun e => (e.1, e.2.text)

theorem map_fst_texts (r : Registry) : r.texts.map (·.1) = r.paths := by
  rw [texts, List.map_map, paths, SortedMap.keys]
  rfl

theorem texts_of_files_eq {r' : Registry} (h : r'.files = r.files) : r'.texts = r.texts := by
  rw [texts, h, texts]

theorem texts_file (r : Registry) (p : Path) : (r.file p).1.texts = r.texts :=
  congrArg SortedMap.entries
    (SortedMap.map_adjust (f := SourceFile.text) (g := SourceFile.memoized) (fun _ => rfl) r.files p)

theorem distinct_texts (r : Registry) : r.texts.Pairwise fun a b => compare a.1 b.1 ≠ .eq := by
  rw [texts, List.pairwise_map]
  refine r.files.increasing.imp fun hlt heq => ?_
  rw [hlt] at heq
  simp at heq

theorem text?_of_mem_texts {f : Path × String} (hf : f ∈ r.texts) : r.text? f.1 = some f.2 := by
  obtain ⟨entry, hentry, rfl⟩ := List.mem_map.mp hf
  rw [text?, SortedMap.get?_of_mem hentry]
  rfl

theorem mem_texts_of_text? {p : Path} {text : String} (hp : p ∈ r.paths) (h : r.text? p = some text) :
    (p, text) ∈ r.texts := by
  rw [← map_fst_texts] at hp
  obtain ⟨f, hf, rfl⟩ := List.mem_map.mp hp
  rw [text?_of_mem_texts hf] at h
  rwa [← Option.some.inj h]

end Registry

/-! ## Promises -/

namespace Queue

variable {q : Queue} {t : String}

theorem mem_pledged_foldl {promises : List (Path × List String)}
    (ht : t ∈ (promises.foldl (fun q p => q.promise p.1 p.2) q).pledged) :
    t ∈ q.pledged ∨ ∃ p ∈ promises, t ∈ p.2 := by
  induction promises generalizing q with
  | nil => exact Or.inl ht
  | cons p promises ih =>
    rcases ih ht with ht | ⟨other, hother, ht⟩
    · rw [(q.pledged_promise p.1 p.2).mem_iff, List.mem_append] at ht
      rcases ht with ht | ht
      · exact Or.inr ⟨p, List.mem_cons_self, ht⟩
      · exact Or.inl ((q.pledged_release p.1).mem_iff.mpr (List.mem_append_right _ ht))
    · exact Or.inr ⟨other, List.mem_cons_of_mem _ hother, ht⟩

theorem mem_pledged_schedule {workers : Nat} {paths : List Path}
    {promises : List (Path × List String)} {trigger : Trigger}
    (ht : t ∈ (q.schedule workers paths promises trigger).1.pledged) :
    t ∈ q.pledged ∨ ∃ p ∈ promises, t ∈ p.2 := by
  apply mem_pledged_foldl
  rwa [pledged, ← (samePromises_schedule q workers paths promises trigger).promises]

end Queue

namespace Engine

variable {e : Engine}

/-- What is promised for a file are the types of a record for its text. -/
theorem recorded_of_mem_hintsFor {kind : Path → StoredRecord FileSymbols → Prop} {paths : List Path}
    (h : e.world.Every (StoreDirectory.Recorded kind)) {p : Path × List String}
    (hp : p ∈ (hintsFor paths e).2.2) :
    p.1 ∈ paths ∧ ∃ r text, kind p.1 r ∧ e.registry.content? p.1 = some (text, r.fingerprint) ∧
      p.2 = r.payload.types.map (·.fqn) := by
  induction paths generalizing e with
  | nil => simp [hintsFor] at hp
  | cons path rest ih =>
    have hload := every_loadRecord (StoreDirectory.lasts_recorded kind) h path
    have hregistry : (e.loadRecord path).1.registry = e.registry := (agrees_loadRecord e path).registry
    rcases hfound : e.loadRecord path with ⟨e₁, found⟩
    rw [hfound] at hload hregistry
    simp only at hregistry
    have hrest (hp : p ∈ (hintsFor rest { e₁ with registry := (e₁.registry.file path).1 }).2.2) :
        p.1 ∈ path :: rest ∧ ∃ r text, kind p.1 r ∧
          e.registry.content? p.1 = some (text, r.fingerprint) ∧ p.2 = r.payload.types.map (·.fqn) := by
      obtain ⟨hmem, r, text, hr, hcontent, htypes⟩ :=
        ih (e := { e₁ with registry := (e₁.registry.file path).1 }) hload hp
      rw [Registry.content?_file, hregistry] at hcontent
      exact ⟨List.mem_cons_of_mem _ hmem, r, text, hr, hcontent, htypes⟩
    simp only [hintsFor, hfound] at hp
    cases found with
    | miss reason => exact hrest hp
    | hit print symbols =>
      simp only at hp
      split at hp
      next hmatching =>
        rcases List.mem_cons.mp hp with rfl | hp
        · rw [Option.any_eq_true] at hmatching
          obtain ⟨file, hfile, hprint⟩ := hmatching
          obtain ⟨r, hr, rfl, rfl⟩ := recorded_of_loadRecord h (by rw [hfound])
          rw [hregistry] at hfile
          refine ⟨List.mem_cons_self, r, file.text, hr, ?_, rfl⟩
          rw [content?_of_found hfile, eq_of_beq hprint]
        · exact hrest hp
      next => exact hrest hp

theorem counted_schedule (h : e.queue.Counted) (paths : List Path) (t : Trigger) :
    (e.schedule paths t).queue.Counted := by
  rw [schedule_eq, enqueueBatch]
  have hcounted := (reads_orderBatch e paths).queue ▸ h
  exact Queue.counted_schedule hcounted _ _ _ t

/-- Queueing files promises what their records promise. -/
theorem recorded_of_mem_pledged {kind : Path → StoredRecord FileSymbols → Prop}
    (h : e.store ≠ none → e.world.Every (StoreDirectory.Recorded kind)) {paths : List Path} {t : Trigger}
    {fqn : String} (hfqn : fqn ∈ (e.schedule paths t).queue.pledged) :
    fqn ∈ e.queue.pledged ∨ ∃ p ∈ paths, ∃ r text, kind p r ∧
      e.registry.content? p = some (text, r.fingerprint) ∧ fqn ∈ r.payload.types.map (·.fqn) := by
  rw [schedule_eq, enqueueBatch] at hfqn
  rcases Queue.mem_pledged_schedule hfqn with hfqn | ⟨p, hp, hfqn⟩
  · rw [(reads_orderBatch e paths).queue] at hfqn
    exact Or.inl hfqn
  · right
    rw [orderBatch] at hp
    cases hstore : e.store with
    | none => simp [hstore] at hp
    | some root =>
      simp only [hstore] at hp
      obtain ⟨hmem, r, text, hr, hcontent, htypes⟩ :=
        recorded_of_mem_hintsFor (h (by simp [hstore])) hp
      exact ⟨p.1, SortedSet.mem_of_mem_ofList hmem, r, text, hr, hcontent, htypes ▸ hfqn⟩

/-! ## A project that has just been loaded -/

theorem drainChanges_cases (e : Engine) :
    e.drainChanges.1 = { e with registry := (e.registry.collect 0).1 } ∨
      e.drainChanges.1 = ({ e with registry := (e.registry.collect 0).1 } : Engine).schedule
        ((e.registry.collect 0).2.map (·.path)) .content := by
  rcases hcollect : e.registry.collect 0 with ⟨registry, events⟩
  simp only [drainChanges, hcollect]
  split
  · exact Or.inl rfl
  · exact Or.inr rfl

theorem texts_drainChanges (e : Engine) : e.drainChanges.1.registry.texts = e.registry.texts := by
  have hcollect : (e.registry.collect 0).1.texts = e.registry.texts :=
    Registry.texts_of_files_eq (files_collect e.registry 0)
  rcases e.drainChanges_cases with heq | heq
  · rw [heq, hcollect]
  · rw [heq, schedule_eq]
    have hordered := orderBatch_keeps (·.registry.texts)
      (fun e path => congrArg Registry.texts (agrees_loadRecord e path).registry)
      (fun e path => e.registry.texts_file path)
      { e with registry := (e.registry.collect 0).1 } ((e.registry.collect 0).2.map (·.path))
    exact hordered.trans hcollect

theorem store_drainChanges (e : Engine) : e.drainChanges.1.store = e.store := by
  rcases e.drainChanges_cases with heq | heq
  · rw [heq]
  · rw [heq, schedule_eq]
    exact (reads_orderBatch { e with registry := (e.registry.collect 0).1 } _).store

/-- Once the roots are read, just files that are there are reported. -/
theorem rooted_of_load {config : EngineConfig} {world : World} {project : Project}
    (hload : load config world project = (e, none)) :
    ∃ registry : Registry,
      e = { { (ofConfig config world).adopt project with registry := registry }.drainChanges.1 with
        project := project } ∧
      registry.Sound ∧ ∀ p ∈ (registry.collect 0).2.map (·.path), p ∈ registry.paths := by
  obtain ⟨registry, heq, hall⟩ := load_spec hload
  refine ⟨registry, heq, ?_⟩
  obtain ⟨hagrees, -, hdisk⟩ := (ofConfig config world).adopt_spec project
  have hadopt := System.Step.adopt (ofConfig config world) [] project
  generalize (ofConfig config world).adopt project = adopted at *
  have hroots := hall adopted hagrees.registry hdisk
  have hempty : adopted.registry.paths.isEmpty = true := by
    rw [hagrees.registry]
    rfl
  rw [if_pos hempty] at hadopt
  have hrun : System.Run (System.start config world) ⟨{ adopted with registry := registry }, [], .changed⟩ :=
    .head hadopt (System.run_registerRoots hroots [])
  refine ⟨(System.sane_of_run hrun).invariant.sound, ?_⟩
  have hnormal := (System.normal_of_run hrun).registry
  obtain ⟨registry', heq', hreports, -, hcontains⟩ := adopted.registerRoots_reports project.sourceRoots
  rw [hroots] at heq'
  obtain rfl : registry = registry' := congrArg (·.registry) heq'
  have htold : registry.Told ([] ++ adopted.changedBelow project.sourceRoots) := by
    apply hreports.told
    rw [hagrees.registry]
    exact ⟨[], rfl, rfl⟩
  rw [(System.collect_of_told htold).1]
  intro p hp
  have hmem : p.normalize = p := hnormal.told _ htold p hp
  exact Registry.kind_of_contains (fun _ hp => hp) hnormal.held hmem (hcontains p hp)

section Load

variable {config : EngineConfig} {world : World} {project : Project} {e : Engine}

theorem hosts_of_load (hload : load config world project = (e, none)) :
    e.Hosts e.registry.texts ∧ e.index.entries = [] := by
  have hsane := (System.sane_start config world).run (System.run_reload hload [])
  obtain ⟨hentries, hblank⟩ := blank_of_load hload
  refine ⟨⟨e.registry.distinct_texts, ?_, fun f hf => ?_, fun q print u hu => ?_, ?_⟩, hentries⟩
  · obtain ⟨registry, heq, -, hbatch⟩ := rooted_of_load hload
    obtain ⟨hagrees, -, -⟩ := (ofConfig config world).adopt_spec project
    generalize (ofConfig config world).adopt project = adopted at *
    obtain ⟨-, hwithin, -⟩ := drainChanges_spec (e := { adopted with registry := registry })
      (congrArg (·.queue) hagrees.queue) hagrees.inFlight (congrArg (·.entries) hagrees.index)
    have hpaths : e.registry.texts.map (·.1) = registry.paths := by
      rw [heq, ← Registry.map_fst_texts registry]
      exact congrArg (List.map (·.1)) (texts_drainChanges { adopted with registry := registry })
    have hkind {p : Path} (hp : p ∈ (reported registry).toList) : p ∈ e.registry.texts.map (·.1) := by
      rw [hpaths]
      exact hbatch p (SortedSet.mem_of_mem_ofList hp)
    subst heq
    exact ⟨fun p hp => hkind (hwithin.queue p hp), fun job hjob => hkind (hwithin.inFlight job hjob),
      fun x hx => hkind (hwithin.indexed x hx)⟩
  · have hsound : e.registry.Sound := hsane.invariant.sound
    rw [hsound.content?_eq, Registry.text?_of_mem_texts hf]
    rfl
  · rw [hblank] at hu
    simp at hu
  · simp [hentries]

/-- After the reports are collected nothing is queued or promised yet. -/
theorem collected_of_load {kind : Path → StoredRecord FileSymbols → Prop}
    (hload : load config world project = (e, none))
    (hrecords : e.store ≠ none → world.Every (StoreDirectory.Recorded kind)) :
    ∃ (collected : Engine) (paths : List Path),
      (e = { collected with project := project } ∨
        e = { collected.schedule paths .content with project := project }) ∧
      collected.queue.Counted ∧ collected.queue.pledged = [] ∧
      (collected.store ≠ none → collected.world.Every (StoreDirectory.Recorded kind)) ∧
      ∀ p ∈ paths, ∀ text print, collected.registry.content? p = some (text, print) →
        (p, text) ∈ e.registry.texts ∧ print = .ofText text := by
  obtain ⟨registry, rfl, hsound, hbatch⟩ := rooted_of_load hload
  obtain ⟨hagrees, -, -⟩ := (ofConfig config world).adopt_spec project
  have hadopted (h : world.Every (StoreDirectory.Recorded kind)) :
      ((ofConfig config world).adopt project).world.Every (StoreDirectory.Recorded kind) :=
    every_adopt (e := ofConfig config world) (StoreDirectory.lasts_recorded kind) h project
  generalize (ofConfig config world).adopt project = adopted at *
  have htexts := texts_drainChanges { adopted with registry := registry }
  have hqueue : adopted.queue = {} := hagrees.queue
  refine ⟨{ adopted with registry := (registry.collect 0).1 }, (registry.collect 0).2.map (·.path),
    ?_, ?_, ?_, fun hstore => hadopted (hrecords ?_), fun p hp text print hcontent => ?_⟩
  · exact (drainChanges_cases { adopted with registry := registry }).imp
      (congrArg fun e : Engine => { e with project := project })
      (congrArg fun e : Engine => { e with project := project })
  · rw [hqueue]
    exact fun t => rfl
  · rw [hqueue]
    rfl
  · rwa [store_drainChanges]
  · have hfiles := files_collect registry 0
    replace hcontent : registry.content? p = some (text, print) := by
      rw [Registry.content?, ← hfiles]
      exact hcontent
    rw [hsound.content?_eq, Option.map_eq_some_iff] at hcontent
    obtain ⟨text, htext, heq⟩ := hcontent
    obtain ⟨rfl, rfl⟩ := Prod.mk.inj heq
    have hmem := Registry.mem_texts_of_text? (hbatch p hp) htext
    exact ⟨htexts ▸ hmem, rfl⟩

/-- What the stores held of a kind, they hold after a load, and what is promised is what they held. -/
theorem recorded_of_load {kind : Path → StoredRecord FileSymbols → Prop}
    (hload : load config world project = (e, none))
    (hrecords : e.store ≠ none → world.Every (StoreDirectory.Recorded kind)) :
    e.queue.Counted ∧ (e.store ≠ none → e.world.Every (StoreDirectory.Recorded kind)) ∧
      ∀ fqn ∈ e.queue.pledged, ∃ f ∈ e.registry.texts, ∃ r, kind f.1 r ∧
        r.fingerprint = .ofText f.2 ∧ fqn ∈ r.payload.types.map (·.fqn) := by
  obtain ⟨collected, paths, hcases, hcounted, hpledged, hstored, hbatch⟩ :=
    collected_of_load hload hrecords
  rcases hcases with rfl | rfl
  · refine ⟨hcounted, hstored, fun fqn hfqn => ?_⟩
    simp [hpledged] at hfqn
  · refine ⟨counted_schedule hcounted paths .content, fun hstore => ?_, fun fqn hfqn => ?_⟩
    · have hkept : (collected.schedule paths .content).store = collected.store :=
        (reads_orderBatch collected paths).store
      exact every_schedule (StoreDirectory.lasts_recorded kind) (hstored (hkept ▸ hstore)) paths .content
    · rcases recorded_of_mem_pledged hstored hfqn with hfqn | ⟨p, hp, r, text, hr, htext, hfqn⟩
      · simp [hpledged] at hfqn
      · obtain ⟨hmem, hprint⟩ := hbatch p hp text r.fingerprint htext
        exact ⟨(p, text), hmem, r, hr, hprint, hfqn⟩

end Load

/-- Loads that differ in the cache alone read the same texts. -/
theorem texts_of_loads {config config' : EngineConfig} {world world' : World} {project : Project}
    {e e' : Engine} (h : load config world project = (e, none))
    (h' : load config' world' project = (e', none)) (hdisk : world'.disk = world.disk) :
    e'.registry.texts = e.registry.texts := by
  obtain ⟨registry, rfl, hall⟩ := load_spec h
  obtain ⟨registry', rfl, hall'⟩ := load_spec h'
  obtain rfl := registry_unique hdisk hall hall'
  have htexts (e : Engine) :
      ({ { e with registry := registry' }.drainChanges.1 with project := project } : Engine).registry.texts =
        registry'.texts := texts_drainChanges { e with registry := registry' }
  exact (htexts ((ofConfig config' world').adopt project)).trans
    (htexts ((ofConfig config world).adopt project)).symm

section Project

variable {base : Engine} {config : EngineConfig} {world : World} {project : Project}
  {records : Path × String → FileSymbols → Prop}

theorem converges_of_load (hload : load config world project = (e, none)) (hrules : SameRules base e)
    (hproject : base.Orderly e.registry.texts)
    (hrecords : e.store ≠ none → world.Every (StoreDirectory.Recorded fun p r =>
      ∀ f ∈ e.registry.texts, p = f.1 → r.fingerprint = .ofText f.2 →
        Trusted base e.registry.texts records f r.payload)) :
    Converges base e.registry.texts records e := by
  obtain ⟨hhosts, hentries⟩ := hosts_of_load hload
  obtain ⟨hcounted, hstored, hpledged⟩ := recorded_of_load hload hrecords
  have hsane := (System.sane_start config world).run (System.run_reload hload [])
  have hnone {p : Path} {x : FileEntry} : e.index.file? p ≠ some x := by
    intro hx
    have hmem := (hsane.traced.exact.file?_eq_some_iff.mp hx).1
    simp [hentries] at hmem
  refine ⟨⟨⟨hhosts, hsane.traced.exact, hrules, hproject.few, fun _ _ _ hx => absurd hx hnone⟩,
    hcounted, fun t ht => ?_, hstored⟩, hsane, fun _ _ _ hx => absurd hx hnone⟩
  obtain ⟨f, hf, r, htrusted, hprint, ht⟩ := hpledged t ht
  rw [(htrusted f hf rfl hprint).declares.types] at ht
  exact Or.inl ⟨f, hf, ht⟩

end Project

end Engine

/-- Some store has the symbols on record for the text of the file. -/
def World.OnRecord (w : World) (f : Path × String) (symbols : FileSymbols) : Prop :=
  ∃ root d r, w.stores.get? root = some d ∧ d.Holds symbolSchema Codec.fileSymbols f.1 r ∧
    r.fingerprint = .ofText f.2 ∧ r.payload = symbols

namespace Engine

variable {e : Engine} {config : EngineConfig} {world : World} {project : Project} {warm cold : Engine}

/-- With records each file ends bound as among all files, or with a record that deceives. -/
theorem converges_warm (hwarm : load config world project = (warm, none))
    (hproject : warm.Orderly warm.registry.texts)
    (hrecords : ∀ f ∈ warm.registry.texts, ∀ symbols, world.OnRecord f symbols →
      symbols.SameDeclarations (warm.bareEntry f).symbols) :
    Converges warm warm.registry.texts world.OnRecord warm := by
  apply converges_of_load hwarm ⟨rfl, rfl, rfl⟩ hproject
  rintro - root d hd p r hr f hf rfl hprint
  have hon : world.OnRecord f r.payload := ⟨root, d, r, hd, hr, hprint, rfl⟩
  exact ⟨hrecords f hf _ hon, Or.inl hon⟩

/-- A file ends with and without records as the same, unless what it shows is a record that deceives. -/
theorem Converges.symbols_eq_iff {files : List (Path × String)}
    {records : Path × String → FileSymbols → Prop} {base e e' : Engine}
    (h : Converges base files records e) (h' : Converges base files (fun _ _ => False) e')
    (hidle : e.isIdle = true) (hidle' : e'.isIdle = true) (p : Path) :
    (e.index.file? p).map (·.symbols) = (e'.index.file? p).map (·.symbols) ↔
      ¬ ∃ f ∈ files, compare p f.1 = .eq ∧ ∃ symbols, records f symbols ∧
        base.Deceives files f symbols ∧ e.Shows f.1 symbols := by
  by_cases hp : ∃ f ∈ files, compare p f.1 = .eq
  · obtain ⟨f, hf, hc⟩ := hp
    obtain ⟨x, hx, hends⟩ := h.at_rest hidle hf
    obtain ⟨y, hy, hends'⟩ := h'.at_rest hidle' hf
    have hright : y.symbols = base.boundAmong files f := hends'.resolve_right fun hfalse => hfalse.1
    rw [Snapshot.file?_congr _ hc, Snapshot.file?_congr _ hc, hx, hy, Option.map_some, Option.map_some,
      Option.some_inj, hright]
    constructor
    · rintro heq ⟨g, hg, hcg, symbols, -, hdeceives, z, hz, -, rfl⟩
      obtain rfl := h.eq_of_compare hf hg (TransCmp.eq_trans (OrientedCmp.eq_symm hc) hcg)
      obtain rfl := Option.some.inj (hx.symm.trans hz)
      exact hdeceives.wrong heq
    · intro hnone
      refine hends.resolve_right fun ⟨hrecord, hdeceives⟩ => ?_
      exact hnone ⟨f, hf, hc, x.symbols, hrecord, hdeceives, x, hx, h.path_eq h.exact hf hx, rfl⟩
  · have hnew {f : Path × String} (hf : f ∈ files) : compare f.1 p ≠ .eq := fun hc =>
      hp ⟨f, hf, OrientedCmp.eq_symm hc⟩
    rw [h.not_indexed h.exact fun f hf => hnew hf, h'.not_indexed h'.exact fun f hf => hnew hf]
    exact ⟨fun _ ⟨f, hf, hc, _⟩ => hp ⟨f, hf, hc⟩, fun _ => rfl⟩

theorem Orderly.congr {e e' : Engine} (hrules : SameRules e e') {files : List (Path × String)}
    (h : e.Orderly files) : e'.Orderly files where
  keys := h.keys
  few f hf := by
    rw [bareEntry_congr hrules]
    exact h.few f hf
  mends := (mends_congr hrules files).mpr h.mends

/-! ## A record from before a file was added -/

theorem eq_alone_of_onRecord {f g : Path × String} {rest : List (Path × String)} {symbols : FileSymbols}
    (h : (onDisk (f :: rest)).OnRecord g symbols) : pathKey g.1 = pathKey f.1 ∧ symbols = alone f := by
  have hrecorded : (onDisk (f :: rest)).Every (StoreDirectory.Recorded fun p r =>
      pathKey p = pathKey f.1 ∧ r.payload = alone f) := by
    apply every_onDisk
    · intro d hnone p r hr
      obtain ⟨bytes, hnode, -⟩ := hr.isRead
      simp [hnone] at hnode
    · intro d d' h hstore
      exact h.store (fun p r hkey _ hpayload => ⟨hkey, hpayload⟩) hstore
  obtain ⟨root, d, r, hd, hr, -, rfl⟩ := h
  exact hrecorded root d hd g.1 r hr

theorem orderly_pair : bare.Orderly pair where
  keys := by decide +kernel
  few := by decide +kernel
  mends := by
    have hclasspath : bare.classpath = .builtin := rfl
    apply mends_of_forall_sublists
    simp only [boundAmong, freshSymbols, contextOf, hclasspath, ClasspathIndex.lookup_builtin]
    decide +kernel

theorem sameDeclarations_alone : (alone waiting).SameDeclarations (bare.bareEntry waiting).symbols :=
  sameDeclarations_ofAttributed _ _

theorem wants_alone : bare.Wants pair [waiting] (alone waiting) := by decide +kernel

/-- A load with the record reads both files, and the record waits for what the second one brings. -/
theorem load_pair {warm : Engine} (hwarm : load cached (onDisk pair) oneRoot = (warm, none)) :
    warm.registry.texts = pair ∧ warm.Orderly warm.registry.texts ∧
      ∀ f ∈ warm.registry.texts, ∀ symbols, (onDisk pair).OnRecord f symbols →
        symbols.SameDeclarations (warm.bareEntry f).symbols ∧
          ¬ warm.Deceives warm.registry.texts f symbols := by
  have hcoldly : (load cached.cold (onDisk pair) oneRoot).2.isNone = true ∧
      (load cached.cold (onDisk pair) oneRoot).1.registry.texts = pair := by decide +kernel
  have htexts := (texts_of_loads (load_eq_of_isNone hcoldly.1) hwarm rfl).trans hcoldly.2
  have hload := rules_of_load hwarm
  have hrules : SameRules bare warm := ⟨hload.indexing, hload.classpath, hload.parse⟩
  rw [htexts]
  refine ⟨rfl, orderly_pair.congr hrules, fun f hf symbols hrecord => ?_⟩
  obtain ⟨hkey, rfl⟩ := eq_alone_of_onRecord hrecord
  obtain rfl := orderly_pair.keys f hf waiting List.mem_cons_self hkey
  rw [bareEntry_congr hrules]
  exact ⟨sameDeclarations_alone, fun hdeceives =>
    hdeceives.heard ((wants_congr hrules pair [waiting] (alone waiting)).mpr wants_alone)⟩

end Engine

end JavaAtlas
