import JavaAtlas.Engine.Api
import JavaAtlas.Proofs.Registry.Changes
import Mathlib.Logic.Relation

/-!
# Workers beside a client

An analysis reads and writes the shared state several times, and between any two of these moments
other workers and the client may go on. `advance` is one such moment, `System.Step` one moment of
any of the parties. Carried out alone, the moments of an analysis make up `Engine.analyze`, and those
of a call make up the call.
-/

namespace JavaAtlas

set_option autoImplicit false

/-- How far an analysis has come, and what it has seen so far. -/
inductive Stage
  /-- The index was looked at. -/
  | viewed (before : Snapshot)
  /-- The registry holds the file. -/
  | found (before : Snapshot) (file : SourceFile)
  | bound (before : Snapshot) (file : SourceFile) (symbols : FileSymbols) (fromCache : Bool)
  | published (before : Snapshot) (file : SourceFile) (outcome : UpsertOutcome) (fromCache : Bool)
  | recorded (before : Snapshot) (file : SourceFile) (outcome : UpsertOutcome) (fromCache : Bool)
  /-- The registry does not hold the file. -/
  | missing (before : Snapshot)
  | dropped (before : Snapshot) (removed : Bool)
  | evicted (before : Snapshot) (removed : Bool)
  | judged (a : Analysis)
  | released (a : Analysis) (promised : List String)
  | done (a : Analysis)

namespace Engine

/-- The symbols of a file, stored or computed, and whether they were stored. -/
def symbolsOf (e : Engine) (path : Path) (trigger : Trigger) (file : SourceFile) :
    Engine × FileSymbols × Bool :=
  match trigger with
  | .dependency => ((e.compute path file).1, (e.compute path file).2, false)
  | .content =>
    match e.cachedSymbols? path file with
    | (e, some symbols) => (e, symbols, true)
    | (e, none) => ((e.compute path file).1, (e.compute path file).2, false)

/-- As `symbolsOf`, against an index seen earlier. -/
def symbolsAgainst (e : Engine) (before : Snapshot) (path : Path) (trigger : Trigger)
    (file : SourceFile) : Engine × FileSymbols × Bool :=
  let r := { e with index := before }.symbolsOf path trigger file
  ({ r.1 with index := e.index }, r.2)

def skips (e : Engine) (before : Snapshot) (path : Path) (trigger : Trigger) (file : SourceFile) :
    Bool :=
  trigger = .content && (e.config.indexing.skipUnchangedFiles &&
    { e with index := before }.isUpToDate path file)

/-- The files bound to a promised type that `path` did not declare. -/
def disappointed (e : Engine) (path : Path) (promised : List String) : List Path :=
  let declared := ((e.index.file? path).map fun f => f.symbols.types.map (·.fqn)).getD []
  ((promised.filter fun fqn => !declared.contains fqn).flatMap e.index.usages).map (·.path)

def advance (e : Engine) (path : Path) (trigger : Trigger) : Stage → Engine × Stage
  | .viewed before =>
    match e.registry.file path with
    | (_, none) => (e, .missing before)
    | (registry, some file) => ({ e with registry := registry }, .found before file)
  | .found before file =>
    if e.skips before path trigger file then (e, .judged {})
    else
      let r := e.symbolsAgainst before path trigger file
      (r.1, .bound before file r.2.1 r.2.2)
  | .bound before file symbols fromCache =>
    let r := e.index.upsert path file.fingerprint symbols
    ({ e with index := r.1 }, .published before file r.2 fromCache)
  | .published before file outcome fromCache =>
    ({ e with registry := e.registry.setLastAnalyzed path file.fingerprint file.version },
      .recorded before file outcome fromCache)
  | .recorded before _ outcome fromCache =>
    (e, .judged {
      fromCache := fromCache
      stale := staleAfter path outcome before e.index
      requeue := !outcome.unchanged && e.bindingsMoved path outcome before e.index })
  | .missing before =>
    let r := e.index.remove path
    ({ e with index := r.1 }, .dropped before r.2)
  | .dropped before removed =>
    ({ e.removeRecord path with parses := (e.parses.evict path).1 }, .evicted before removed)
  | .evicted before removed =>
    ({ e with registry := e.registry.releaseTombstone path },
      .judged {
        removed := true
        stale := if removed then SortedSet.ofList (before.dependents path) else ∅ })
  | .judged a =>
    let r := e.queue.release path
    ({ e with queue := r.1 }, .released a r.2)
  | .released a promised =>
    (e, .done { a with stale := (SortedSet.addAll a.stale (e.disappointed path promised)).erase path })
  | .done a => (e, .done a)

/-! ## The moments of an analysis make up the analysis -/

/-- Everything but the parse cache and the world is as it was. -/
structure Agrees (e e' : Engine) : Prop where
  config : e'.config = e.config
  registry : e'.registry = e.registry
  index : e'.index = e.index
  classpath : e'.classpath = e.classpath
  store : e'.store = e.store
  queue : e'.queue = e.queue
  inFlight : e'.inFlight = e.inFlight
  project : e'.project = e.project
  search : e'.search = e.search

theorem Agrees.refl (e : Engine) : Agrees e e := ⟨rfl, rfl, rfl, rfl, rfl, rfl, rfl, rfl, rfl⟩

theorem Agrees.trans {a b c : Engine} (h : Agrees a b) (h' : Agrees b c) : Agrees a c :=
  ⟨h'.config.trans h.config, h'.registry.trans h.registry, h'.index.trans h.index,
    h'.classpath.trans h.classpath, h'.store.trans h.store, h'.queue.trans h.queue,
    h'.inFlight.trans h.inFlight, h'.project.trans h.project, h'.search.trans h.search⟩

theorem agrees_loadRecord (e : Engine) (path : Path) : Agrees e (e.loadRecord path).1 := by
  rw [loadRecord]
  split <;> exact ⟨rfl, rfl, rfl, rfl, rfl, rfl, rfl, rfl, rfl⟩

theorem agrees_loadMatching (e : Engine) (path : Path) (print : Fingerprint) :
    Agrees e (e.loadMatching path print).1 := by
  rw [loadMatching]
  split <;> exact ⟨rfl, rfl, rfl, rfl, rfl, rfl, rfl, rfl, rfl⟩

theorem agrees_storeRecord (e : Engine) (path : Path) (print : Fingerprint) (symbols : FileSymbols) :
    Agrees e (e.storeRecord path print symbols) := by
  rw [storeRecord]
  split
  · exact .refl e
  · split <;> exact ⟨rfl, rfl, rfl, rfl, rfl, rfl, rfl, rfl, rfl⟩

theorem agrees_removeRecord (e : Engine) (path : Path) : Agrees e (e.removeRecord path) := by
  rw [removeRecord]
  split <;> exact ⟨rfl, rfl, rfl, rfl, rfl, rfl, rfl, rfl, rfl⟩

/-- Either no store is opened, or the directory of the store was opened. -/
theorem openStore_cases (e : Engine) (project : Project) :
    e.openStore project = (e, none) ∨
      ∃ directory opened, (e.directoryAt directory).openFor symbolSchema = some opened ∧
        e.openStore project = (e.setDirectory directory opened.1, some directory) := by
  rw [openStore]
  split
  next e' directory hopened =>
    right
    simp only [Option.bind_eq_bind] at hopened
    split at hopened
    · simp at hopened
    · obtain ⟨root, -, hopened⟩ := Option.bind_eq_some_iff.mp hopened
      obtain ⟨location, -, hopened⟩ := Option.bind_eq_some_iff.mp hopened
      split at hopened
      · simp at hopened
      · obtain ⟨opened, hopen, hresult⟩ := Option.bind_eq_some_iff.mp hopened
        obtain ⟨rfl, rfl⟩ := Prod.mk.inj (Option.some.inj hresult)
        exact ⟨_, opened, hopen, rfl⟩
  next => exact Or.inl rfl

theorem agrees_openStore (e : Engine) (project : Project) : Agrees e (e.openStore project).1 := by
  rcases e.openStore_cases project with h | ⟨directory, opened, -, h⟩
  · rw [h]
    exact .refl e
  · rw [h]
    exact ⟨rfl, rfl, rfl, rfl, rfl, rfl, rfl, rfl, rfl⟩

theorem agrees_cachedSymbols? (e : Engine) (path : Path) (file : SourceFile) :
    Agrees e (e.cachedSymbols? path file).1 := by
  have h := agrees_loadMatching e path file.fingerprint
  rw [cachedSymbols?]
  split
  · rename_i heq
    rw [heq] at h
    split
    · exact h
    · split <;> exact h
  · rename_i heq
    rw [heq] at h
    exact h

theorem agrees_compute (e : Engine) (path : Path) (file : SourceFile) :
    Agrees e (e.compute path file).1 := by
  rw [compute]
  have hparses (parses : ParseCache) : Agrees e { e with parses := parses } :=
    ⟨rfl, rfl, rfl, rfl, rfl, rfl, rfl, rfl, rfl⟩
  exact (hparses _).trans (agrees_storeRecord _ _ _ _)

theorem agrees_symbolsOf (e : Engine) (path : Path) (trigger : Trigger) (file : SourceFile) :
    Agrees e (e.symbolsOf path trigger file).1 := by
  cases trigger with
  | dependency => exact agrees_compute e path file
  | content =>
    have h := agrees_cachedSymbols? e path file
    rw [symbolsOf]
    split
    · rename_i heq
      rw [heq] at h
      exact h
    · rename_i heq
      rw [heq] at h
      exact h.trans (agrees_compute _ path file)

theorem agrees_symbolsAgainst (e : Engine) (before : Snapshot) (path : Path) (trigger : Trigger)
    (file : SourceFile) : Agrees e (e.symbolsAgainst before path trigger file).1 := by
  have h := agrees_symbolsOf { e with index := before } path trigger file
  exact ⟨h.config, h.registry, rfl, h.classpath, h.store, h.queue, h.inFlight, h.project, h.search⟩

theorem symbolsAgainst_index (e : Engine) (path : Path) (trigger : Trigger) (file : SourceFile) :
    e.symbolsAgainst e.index path trigger file = e.symbolsOf path trigger file := by
  have h := (agrees_symbolsOf e path trigger file).index
  rw [symbolsAgainst]
  have hself : { e with index := e.index } = e := rfl
  rw [hself]
  apply Prod.ext
  · show { (e.symbolsOf path trigger file).1 with index := e.index } = _
    rw [← h]
  · rfl

def Advances (path : Path) (trigger : Trigger) (s s' : Engine × Stage) : Prop :=
  (∀ a, s.2 ≠ .done a) ∧ s' = s.1.advance path trigger s.2

open Relation (ReflTransGen)

theorem Advances.next {path : Path} {trigger : Trigger} {e e' : Engine} {stage stage' : Stage}
    {s : Engine × Stage} (hstage : ∀ a, stage ≠ .done a)
    (h : e.advance path trigger stage = (e', stage'))
    (hrest : ReflTransGen (Advances path trigger) (e', stage') s) :
    ReflTransGen (Advances path trigger) (e, stage) s :=
  .head ⟨hstage, h.symm⟩ hrest

theorem advances_forget (e : Engine) (path : Path) (trigger : Trigger) :
    ReflTransGen (Advances path trigger) (e, .missing e.index)
      ((e.forget path).1, .judged (e.forget path).2) := by
  have hrecord (e : Engine) (index : Snapshot) : { e with index := index }.removeRecord path =
      { e.removeRecord path with index := index } := by
    simp only [removeRecord]
    split <;> rfl
  have hforget : ({ { { e with index := (e.index.remove path).1 }.removeRecord path with
      parses := (e.parses.evict path).1 } with
      registry := e.registry.releaseTombstone path } : Engine) = (e.forget path).1 := by
    rw [hrecord e (e.index.remove path).1]
    rfl
  apply Advances.next (by simp) rfl
  apply Advances.next (by simp) rfl
  refine .single ⟨by simp, ?_⟩
  rw [← hforget]
  have hregistry := (agrees_removeRecord { e with index := (e.index.remove path).1 } path).registry
  simp only [advance, hregistry]
  rfl

theorem advances_publish (e : Engine) (path : Path) (trigger : Trigger) (file : SourceFile)
    (symbols : FileSymbols) (fromCache : Bool) :
    ReflTransGen (Advances path trigger) (e, .bound e.index file symbols fromCache)
      ((e.publish path file symbols fromCache).1,
        .judged (e.publish path file symbols fromCache).2) := by
  apply Advances.next (by simp) rfl
  apply Advances.next (by simp) rfl
  apply Advances.next (by simp) rfl
  exact .refl

theorem analyzeFile_of_missing {e : Engine} {path : Path} {registry : Registry}
    (h : e.registry.file path = (registry, none)) (trigger : Trigger) :
    e.analyzeFile path trigger = e.forget path := by
  rw [analyzeFile, h]

theorem analyzeFile_of_found {e : Engine} {path : Path} {registry : Registry} {file : SourceFile}
    (h : e.registry.file path = (registry, some file)) (trigger : Trigger) :
    e.analyzeFile path trigger =
      let e := { e with registry := registry }
      if e.skips e.index path trigger file then (e, {})
      else
        let r := e.symbolsOf path trigger file
        r.1.publish path file r.2.1 r.2.2 := by
  rw [analyzeFile, h]
  cases trigger with
  | dependency => simp [skips, symbolsOf]
  | content =>
    simp only [skips, symbolsOf, decide_true, Bool.true_and]
    split
    · rfl
    · split <;> simp_all

theorem advances_analyzeFile (e : Engine) (path : Path) (trigger : Trigger) :
    ReflTransGen (Advances path trigger) (e, .viewed e.index)
      ((e.analyzeFile path trigger).1, .judged (e.analyzeFile path trigger).2) := by
  rcases hfile : e.registry.file path with ⟨registry, _ | file⟩
  · have hadvance : e.advance path trigger (.viewed e.index) = (e, .missing e.index) := by
      rw [advance, hfile]
    rw [analyzeFile_of_missing hfile]
    exact Advances.next (by simp) hadvance (advances_forget e path trigger)
  · have hadvance : e.advance path trigger (.viewed e.index) =
        ({ e with registry := registry }, .found e.index file) := by
      rw [advance, hfile]
    refine Advances.next (by simp) hadvance ?_
    rw [analyzeFile_of_found hfile]
    generalize he' : { e with registry := registry } = e'
    have hindex : e.index = e'.index := by rw [← he']
    rw [hindex]
    by_cases hskip : e'.skips e'.index path trigger file = true
    · refine Advances.next (by simp) (by rw [advance, if_pos hskip]) ?_
      simp only [hskip, if_true]
      exact .refl
    · refine Advances.next (by simp) (by rw [advance, if_neg hskip]) ?_
      simp only [hskip, symbolsAgainst_index]
      have hagrees := (agrees_symbolsOf e' path trigger file).index
      rw [← hagrees]
      exact advances_publish _ path trigger file _ _

/-- Carried out alone, the moments of an analysis make up the analysis. -/
theorem advances_analyze (e : Engine) (path : Path) (trigger : Trigger) :
    ReflTransGen (Advances path trigger) (e, .viewed e.index)
      ((e.analyze path trigger).1, .done (e.analyze path trigger).2) := by
  refine (advances_analyzeFile e path trigger).trans ?_
  apply Advances.next (by simp) rfl
  apply Advances.next (by simp) rfl
  exact .refl

/-! ## Calls -/

/-- The files in the order they are to be queued in, and what is promised about them. -/
def orderBatch (e : Engine) (paths : List Path) :
    Engine × List Path × List (Path × List String) :=
  let sorted := SortedSet.toList (SortedSet.ofList paths)
  let (e, hints, promises) := match e.store with
    | none => (e, ∅, [])
    | some _ => hintsFor sorted e
  (e, if hints.isEmpty then sorted else BatchOrder.byHints sorted hints, promises)

def enqueueBatch (e : Engine) (order : List Path) (promises : List (Path × List String))
    (trigger : Trigger) : Engine :=
  let r := e.queue.schedule e.workers order promises trigger
  { e with queue := r.1, inFlight := e.inFlight ++ r.2 }

theorem schedule_eq (e : Engine) (paths : List Path) (trigger : Trigger) :
    e.schedule paths trigger =
      (e.orderBatch paths).1.enqueueBatch (e.orderBatch paths).2.1 (e.orderBatch paths).2.2
        trigger := rfl

/-- The language level, classpath and store of a project replace the old ones. -/
def adopt (e : Engine) (project : Project) : Engine :=
  let e := { e with
    parses := e.parses.setLanguageLevel project.languageLevel
    classpath := .buildLenient e.world.disk project.classpath }
  { (e.openStore project).1 with store := (e.openStore project).2 }

theorem reload_eq (e : Engine) (project : Project) :
    e.reload project =
      match (if (e.adopt project).registry.paths.isEmpty then e.adopt project
        else (e.adopt project).schedule (e.adopt project).registry.paths .dependency).registerRoots
          project.sourceRoots with
      | (e, some error) => (e, some error)
      | (e, none) => ({ e.drainChanges.1 with project := project }, none) := rfl

/-- What roots hold is read from the disk alone. -/
theorem registerRoots_spec {e e' : Engine} {roots : List Path}
    (h : e.registerRoots roots = (e', none)) :
    ∃ registry, e' = { e with registry := registry } ∧
      ∀ f : Engine, f.registry = e.registry → f.world.disk = e.world.disk →
        f.registerRoots roots = ({ f with registry := registry }, none) := by
  induction roots generalizing e with
  | nil =>
    obtain ⟨rfl, -⟩ := Prod.mk.inj h
    exact ⟨e.registry, rfl, fun f hf _ => by rw [← hf]; rfl⟩
  | cons root roots ih =>
    rw [registerRoots] at h
    split at h
    · rename_i next paths hroot
      obtain ⟨registry, rfl, hall⟩ := ih h
      refine ⟨registry, rfl, fun f hf hdisk => ?_⟩
      rw [registerRoots, hf, hdisk, hroot]
      exact hall { f with registry := next } rfl hdisk
    · simp at h

end Engine

/-- The state after something that may fail, unless it does. -/
def granted {State Error Answer : Type} : State × Except Error Answer → Option State
  | (state, .ok _) => some state
  | (_, .error _) => none

theorem granted_eq_some_iff {State Error Answer : Type} {result : State × Except Error Answer}
    {state : State} : granted result = some state ↔ ∃ answer, result = (state, .ok answer) := by
  obtain ⟨left, outcome⟩ := result
  cases outcome <;> simp [granted]

inductive Call
  | openFile (path : Path) (text : String)
  | edit (path : Path) (text : String)
  | remove (path : Path)
  | registerRoot (root : Path)

namespace Call

def change (e : Engine) : Call → Option Registry
  | .openFile path text =>
    if path.extension? = some sourceExtension then some (e.registry.openFile path text).1 else none
  | .edit path text => granted (e.registry.edit path text)
  | .remove path => some (e.registry.remove path).1
  | .registerRoot root => granted (e.registry.registerRoot e.world.disk root)

theorem change_edit_eq_some_iff {e : Engine} {path : Path} {text : String} {registry : Registry} :
    (Call.edit path text).change e = some registry ↔
      e.registry.contains path.normalize = true ∧ (e.registry.openFile path text).1 = registry := by
  rw [change, granted_eq_some_iff]
  simp only [Registry.edit_eq_ok_iff]
  constructor
  · rintro ⟨version, hthere, hopen⟩
    exact ⟨hthere, congrArg Prod.fst hopen⟩
  · rintro ⟨hthere, rfl⟩
    exact ⟨_, hthere, rfl⟩

theorem change_registerRoot_eq_some_iff {e : Engine} {root : Path} {registry : Registry} :
    (Call.registerRoot root).change e = some registry ↔
      ∃ paths, e.registry.registerRoot e.world.disk root = (registry, .ok paths) := by
  rw [change, granted_eq_some_iff]

/-- The engine that the whole call leaves, and the error of one that is refused. -/
def attempt (e : Engine) : Call → Engine × Except EngineError Unit
  | .openFile path text => ((e.openFile path text).1, (e.openFile path text).2.map fun _ => ())
  | .edit path text => ((e.edit path text).1, (e.edit path text).2.map fun _ => ())
  | .remove path => ((e.remove path).1, .ok ())
  | .registerRoot root => ((e.registerRoot root).1, (e.registerRoot root).2.map fun _ => ())

/-- The engine after the whole call, unless the call is refused. -/
def run (e : Engine) (call : Call) : Option Engine := granted (call.attempt e)

/-- A call changes the registry and hands the changes over, or it is refused and leaves the engine as
it was. -/
theorem attempt_cases (e : Engine) (call : Call) :
    (∃ registry, call.change e = some registry ∧
      call.attempt e = ({ e with registry := registry }.drainChanges.1, .ok ())) ∨
    call.change e = none ∧ ∃ err, call.attempt e = (e, .error err) := by
  cases call with
  | openFile path text =>
    simp only [attempt, change, Engine.openFile]
    split
    · exact .inl ⟨_, rfl, rfl⟩
    · exact .inr ⟨rfl, _, rfl⟩
  | edit path text =>
    rw [attempt, change, Engine.edit]
    obtain ⟨registry, outcome, hedit⟩ :
      ∃ registry outcome, e.registry.edit path text = (registry, outcome) := ⟨_, _, rfl⟩
    rw [hedit]
    cases outcome with
    | ok version => exact .inl ⟨registry, rfl, rfl⟩
    | error cause =>
      obtain ⟨rfl, -⟩ := Registry.edit_eq_error_iff.mp hedit
      exact .inr ⟨rfl, _, rfl⟩
  | remove path => exact .inl ⟨_, rfl, rfl⟩
  | registerRoot root =>
    rw [attempt, change, Engine.registerRoot]
    obtain ⟨registry, outcome, hroot⟩ : ∃ registry outcome,
      e.registry.registerRoot e.world.disk root = (registry, outcome) := ⟨_, _, rfl⟩
    rw [hroot]
    cases outcome with
    | ok paths => exact .inl ⟨registry, rfl, rfl⟩
    | error cause =>
      obtain ⟨rfl, -⟩ := Registry.registerRoot_eq_error_iff.mp hroot
      exact .inr ⟨rfl, _, rfl⟩

theorem run_eq (e : Engine) (call : Call) :
    call.run e = (call.change e).map fun registry => { e with registry := registry }.drainChanges.1 := by
  rw [run]
  obtain ⟨registry, hchange, hattempt⟩ | ⟨hchange, err, hattempt⟩ := call.attempt_cases e
  · rw [hchange, hattempt]
    rfl
  · rw [hchange, hattempt]
    rfl

theorem run_openFile {e e' : Engine} {path : Path} {text : String} {version : Nat}
    (h : e.openFile path text = (e', .ok version)) : (Call.openFile path text).run e = some e' := by
  rw [run, attempt, h]
  rfl

theorem run_openFile_of_source {path : Path} (h : path.extension? = some sourceExtension) (e : Engine)
    (text : String) : (Call.openFile path text).run e =
      some { e with registry := (e.registry.openFile path text).1 }.drainChanges.1 := by
  rw [run_eq, change, if_pos h]
  rfl

theorem run_edit {e e' : Engine} {path : Path} {text : String} {version : Nat}
    (h : e.edit path text = (e', .ok version)) : (Call.edit path text).run e = some e' := by
  rw [run, attempt, h]
  rfl

/-- A call that is refused leaves the engine as it was. -/
theorem eq_of_attempt_eq_error {e e' : Engine} {call : Call} {err : EngineError}
    (h : call.attempt e = (e', .error err)) : e = e' := by
  obtain ⟨registry, -, hattempt⟩ | ⟨-, cause, hattempt⟩ := call.attempt_cases e
  · rw [hattempt] at h
    cases h
  · rw [hattempt] at h
    exact (Prod.mk.inj h).1

end Call

/-! ## All parties together -/

structure Job where
  path : Path
  trigger : Trigger
  stage : Stage

inductive Client
  /-- Between calls. -/
  | free
  /-- The registry was changed, and the changes are not collected yet. -/
  | changed
  /-- Files to be queued. -/
  | holding (paths : List Path) (trigger : Trigger)
  /-- The same in order. -/
  | ordered (order : List Path) (promises : List (Path × List String)) (trigger : Trigger)

/-- A call ends with its batch; a project has roots to be read after the files known before. -/
def Client.afterBatch : Trigger → Client
  | .content => .free
  | .dependency => .changed

/-- The shared state, the analyses under way and the client. Files handed to workers that have not
begun are in `engine.inFlight`. -/
structure System where
  engine : Engine
  active : List Job
  client : Client

namespace System

/-- One moment of one party. Collecting follows a change, or several when a project is loaded; the
files known then are queued before its roots are read. -/
inductive Step : System → System → Prop
  | disk (e : Engine) (active : List Job) (client : Client) (disk : Disk) :
    Step ⟨e, active, client⟩ ⟨{ e with world := { e.world with disk := disk } }, active, client⟩
  | change (e : Engine) (active : List Job) (client : Client) (call : Call) (registry : Registry)
    (hclient : client = .free ∨ client = .changed) (hcall : call.change e = some registry) :
    Step ⟨e, active, client⟩ ⟨{ e with registry := registry }, active, .changed⟩
  | adopt (e : Engine) (active : List Job) (project : Project) :
    Step ⟨e, active, .free⟩
      ⟨e.adopt project, active,
        if (e.adopt project).registry.paths.isEmpty then .changed
        else .holding (e.adopt project).registry.paths .dependency⟩
  | keep (e : Engine) (active : List Job) (project : Project) :
    Step ⟨e, active, .free⟩ ⟨{ e with project := project }, active, .free⟩
  | collect (e : Engine) (active : List Job) :
    Step ⟨e, active, .changed⟩
      ⟨{ e with registry := (e.registry.collect 0).1 }, active,
        if (e.registry.collect 0).2.isEmpty then .free
        else .holding ((e.registry.collect 0).2.map (·.path)) .content⟩
  | order (e : Engine) (active : List Job) (paths : List Path) (trigger : Trigger) :
    Step ⟨e, active, .holding paths trigger⟩
      ⟨(e.orderBatch paths).1, active,
        .ordered (e.orderBatch paths).2.1 (e.orderBatch paths).2.2 trigger⟩
  | enqueue (e : Engine) (active : List Job) (order : List Path)
    (promises : List (Path × List String)) (trigger : Trigger) :
    Step ⟨e, active, .ordered order promises trigger⟩
      ⟨e.enqueueBatch order promises trigger, active,
        .afterBatch trigger⟩
  | start (e : Engine) (active : List Job) (client : Client) (left right : List (Path × Trigger))
    (path : Path) (trigger : Trigger) (hin : e.inFlight = left ++ (path, trigger) :: right) :
    Step ⟨e, active, client⟩
      ⟨{ e with inFlight := left ++ right }, ⟨path, trigger, .viewed e.index⟩ :: active, client⟩
  | advance (e : Engine) (left right : List Job) (client : Client) (job : Job)
    (hstage : ∀ a, job.stage ≠ .done a) :
    Step ⟨e, left ++ job :: right, client⟩
      ⟨(e.advance job.path job.trigger job.stage).1,
        left ++ { job with stage := (e.advance job.path job.trigger job.stage).2 } :: right,
        client⟩
  | finish (e : Engine) (left right : List Job) (client : Client) (path : Path) (trigger : Trigger)
    (a : Analysis) :
    Step ⟨e, left ++ ⟨path, trigger, .done a⟩ :: right, client⟩
      ⟨{ e with
          queue := (e.queue.finish e.workers path (some a)).1
          inFlight := e.inFlight ++ (e.queue.finish e.workers path (some a)).2 },
        left ++ right, client⟩

def Run : System → System → Prop := Relation.ReflTransGen Step

def start (config : EngineConfig) (world : World) : System := ⟨.ofConfig config world, [], .free⟩

/-! ## Parties that are not interrupted -/

open Relation (ReflTransGen)

theorem run_schedule (e : Engine) (active : List Job) (paths : List Path) (trigger : Trigger) :
    Run ⟨e, active, .holding paths trigger⟩
      ⟨e.schedule paths trigger, active,
        .afterBatch trigger⟩ := by
  rw [Engine.schedule_eq]
  exact .tail (.single (.order e active paths trigger)) (.enqueue _ _ _ _ trigger)

theorem run_drainChanges (e : Engine) (active : List Job) :
    Run ⟨e, active, .changed⟩ ⟨e.drainChanges.1, active, .free⟩ := by
  have hcollect := Step.collect e active
  rw [Engine.drainChanges]
  by_cases hempty : (e.registry.collect 0).2.isEmpty = true
  · simp only [hempty, if_true] at hcollect ⊢
    exact .single hcollect
  · simp only [hempty] at hcollect ⊢
    exact .head hcollect (run_schedule _ active _ .content)

theorem run_call {e e' : Engine} {call : Call} (h : call.run e = some e') (active : List Job) :
    Run ⟨e, active, .free⟩ ⟨e', active, .free⟩ := by
  rw [Call.run_eq] at h
  obtain ⟨registry, hchange, rfl⟩ := Option.map_eq_some_iff.mp h
  exact .head (.change e active .free call registry (Or.inl rfl) hchange) (run_drainChanges _ active)

theorem run_registerRoots {e e' : Engine} {roots : List Path}
    (h : e.registerRoots roots = (e', none)) (active : List Job) :
    Run ⟨e, active, .changed⟩ ⟨e', active, .changed⟩ := by
  induction roots generalizing e with
  | nil =>
    obtain ⟨rfl, -⟩ := Prod.mk.inj h
    exact .refl
  | cons root roots ih =>
    rw [Engine.registerRoots] at h
    split at h
    · rename_i registry paths hroot
      have hchange := Call.change_registerRoot_eq_some_iff.mpr ⟨paths, hroot⟩
      exact .head (.change e active .changed _ registry (Or.inr rfl) hchange) (ih h)
    · simp at h

theorem run_reload {e e' : Engine} {project : Project} (h : e.reload project = (e', none))
    (active : List Job) : Run ⟨e, active, .free⟩ ⟨e', active, .free⟩ := by
  rw [Engine.reload_eq] at h
  split at h
  · simp at h
  · rename_i e₁ hroots
    obtain ⟨rfl, -⟩ := Prod.mk.inj h
    have hadopt := Step.adopt e active project
    refine .trans (.head hadopt ?_) (.tail ((run_registerRoots hroots active).trans
      (run_drainChanges e₁ active)) (.keep _ active project))
    split
    · exact .refl
    · exact run_schedule _ active _ .dependency

theorem run_advances {path : Path} {trigger : Trigger} {s s' : Engine × Stage}
    (h : ReflTransGen (Engine.Advances path trigger) s s') (active : List Job) (client : Client) :
    Run ⟨s.1, ⟨path, trigger, s.2⟩ :: active, client⟩ ⟨s'.1, ⟨path, trigger, s'.2⟩ :: active, client⟩ := by
  induction h with
  | refl => exact .refl
  | tail _ hstep ih =>
    obtain ⟨hstage, rfl⟩ := hstep
    exact .tail ih (.advance _ [] active client ⟨path, trigger, _⟩ hstage)

theorem run_step (e : Engine) (active : List Job) (client : Client) :
    Run ⟨e, active, client⟩ ⟨e.step, active, client⟩ := by
  rw [Engine.step]
  split
  · exact .refl
  · rename_i path trigger rest hin
    have hstart := Step.start e active client [] rest path trigger hin
    have hrun := run_advances (Engine.advances_analyze { e with inFlight := rest } path trigger)
      active client
    generalize { e with inFlight := rest }.analyze path trigger = r at hrun
    obtain ⟨e', a⟩ := r
    exact .tail (.head hstart hrun) (.finish e' [] active client path trigger a)

end System

end JavaAtlas
