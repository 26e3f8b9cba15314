import JavaAtlas.Completion.Rank
import JavaAtlas.Engine.Recompute
import JavaAtlas.Index.Hierarchy

/-!
# What can be asked of an engine

Changes go to the registry and return once the affected files are queued. Questions are answered
from the index as it is.
-/

namespace JavaAtlas

set_option autoImplicit false

inductive EngineError
  /-- The path does not name a source file. -/
  | notASource (path : Path)
  | editFailed (path : Path) (cause : RegistryError)
  | rootFailed (root : Path) (cause : RegistryError)

def EngineError.message : EngineError → String
  | .notASource path => "not a ." ++ sourceExtension ++ " source file: " ++ path.spelling
  | .editFailed path cause => "failed to edit " ++ path.spelling ++ ": " ++ cause.message
  | .rootFailed root cause =>
    "failed to register source root " ++ root.spelling ++ ": " ++ cause.message

namespace Engine

/-! ## Changes -/

/-- Queues every file the registry reported, and gives their number. -/
def drainChanges (e : Engine) : Engine × Nat :=
  let (registry, events) := e.registry.collect 0
  let e := { e with registry := registry }
  if events.isEmpty then (e, 0)
  else (e.schedule (events.map (·.path)) .content, events.length)

def openFile (e : Engine) (path : Path) (text : String) : Engine × Except EngineError Nat :=
  if path.extension? = some sourceExtension then
    let (registry, version) := e.registry.openFile path text
    ((drainChanges { e with registry := registry }).1, .ok version)
  else (e, .error (.notASource path))

/-- Opens files up to the first that fails. -/
def openMany (e : Engine) : List (Path × String) → Engine × Except EngineError (List Nat)
  | [] => (e, .ok [])
  | (path, text) :: rest =>
    match e.openFile path text with
    | (e, .error cause) => (e, .error cause)
    | (e, .ok version) =>
      let (e, versions) := openMany e rest
      (e, versions.map (version :: ·))

def edit (e : Engine) (path : Path) (text : String) : Engine × Except EngineError Nat :=
  match e.registry.edit path text with
  | (registry, .ok version) => ((drainChanges { e with registry := registry }).1, .ok version)
  | (registry, .error cause) => ({ e with registry := registry }, .error (.editFailed path cause))

def remove (e : Engine) (path : Path) : Engine × Bool :=
  let (registry, removed) := e.registry.remove path
  ((drainChanges { e with registry := registry }).1, removed)

def registerRoot (e : Engine) (root : Path) : Engine × Except EngineError Nat :=
  match e.registry.registerRoot e.world.disk root with
  | (registry, .ok _) =>
    let (e, count) := drainChanges { e with registry := registry }
    (e, .ok count)
  | (registry, .error cause) => ({ e with registry := registry }, .error (.rootFailed root cause))

/-- Adds source roots up to the first that fails. -/
def registerRoots (e : Engine) : List Path → Engine × Option EngineError
  | [] => (e, none)
  | root :: rest =>
    match e.registry.registerRoot e.world.disk root with
    | (registry, .ok _) => registerRoots { e with registry := registry } rest
    | (registry, .error cause) => ({ e with registry := registry }, some (.rootFailed root cause))

/-- Applies a project: its language level, classpath and store replace the old ones, the files at
hand are bound anew, and every source root is read. -/
def reload (e : Engine) (project : Project) : Engine × Option EngineError :=
  let e := { e with
    parses := e.parses.setLanguageLevel project.languageLevel
    classpath := .buildLenient e.world.disk project.classpath }
  let (e, store) := e.openStore project
  let e := { e with store := store }
  let known := e.registry.paths
  let e := if known.isEmpty then e else e.schedule known .dependency
  match e.registerRoots project.sourceRoots with
  | (e, some error) => (e, some error)
  | (e, none) => ({ e.drainChanges.1 with project := project }, none)

def load (config : EngineConfig) (world : World) (project : Project) :
    Engine × Option EngineError :=
  (ofConfig config world).reload project

/-! ## Questions -/

def isIdle (e : Engine) : Bool := e.queue.isIdle

/-- Runs a callback at once when nothing is queued, else once the queue is worked off. -/
def runWhenSmart (e : Engine) (callback : Nat) : Engine :=
  { e with queue := e.queue.runWhenSmart callback }

def phase? (e : Engine) (path : Path) : Option FilePhase :=
  let path := path.normalize
  (e.queue.phases.get? path).or (if e.registry.contains path then some .unanalyzed else none)

def findSymbol (e : Engine) (name : String) : List Symbol := e.index.query name

/-- The completions at `offset`. Without a typed prefix the identifier that ends there counts. -/
def completions (e : Engine) (path : Path) (offset : Nat) (typed : String) : List CompletionItem :=
  let path := path.normalize
  let text := (e.registry.files.get? path).map (·.text)
  let typed := match text with
    | some text => if typed = "" then Text.partialIdentifier text offset else typed
    | none => typed
  CompletionRequest.complete {
    snapshot := e.index
    classpath := e.classpath
    path := path
    offset := offset
    typed := typed
    text := text }

def diagnostics (e : Engine) (path : Path) : List Diagnostic :=
  (e.index.diagnosticsOf? path.normalize).getD []

def declarations (e : Engine) (path : Path) (offset : Nat) : List Symbol :=
  e.index.declarationsAt path.normalize offset

/-- Searches the index, through the search index at hand if it is for this generation. -/
def searchSymbols (e : Engine) (query : String) (limit : Nat) : Engine × List SearchResult :=
  let search := match e.search with
    | some s => if s.generation = e.index.generation then s else .build e.index
    | none => .build e.index
  ({ e with search := some search }, (search.search query limit).results)

end Engine

end JavaAtlas
