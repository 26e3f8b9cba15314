import JavaAtlas.Classpath.Entries
import JavaAtlas.Engine.Queue
import JavaAtlas.Index.Search
import JavaAtlas.Index.Update
import JavaAtlas.Progress.Pool
import JavaAtlas.Project
import JavaAtlas.Registry.Basic
import JavaAtlas.Settings.Config
import JavaAtlas.Store.Location
import JavaAtlas.Store.Raw
import JavaAtlas.Unit.ParseCache

/-!
# The state of an engine
-/

namespace JavaAtlas

set_option autoImplicit false

/-- What outlives an engine: the parser, files on disk and the stores of records. -/
structure World where
  parser : Java.Parser := Java.parser
  disk : Disk := {}
  stores : SortedMap Path StoreDirectory := ∅

namespace World

def onDisk (w : World) (change : Disk → Disk) : World := { w with disk := change w.disk }

def overwriteMarkers (w : World) (text : String) : World × Nat :=
  ({ w with stores := w.stores.map fun _ d => { d with marker := some (Text.encode text) } }, w.stores.size)

def truncateRecords (w : World) (limit : Nat) : World × Nat :=
  ({ w with stores := w.stores.map fun _ d => (d.truncateAll limit).1 },
    w.stores.values.foldl (fun n d => n + (d.truncateAll limit).2) 0)

end World

def symbolSchema : UInt32 := 3

structure Engine where
  config : EngineConfig := {}
  world : World := {}
  /-- The engine itself is subscriber zero. -/
  registry : Registry := { mailboxes := [some []] }
  index : Snapshot := {}
  parses : ParseCache := {}
  classpath : ClasspathIndex := .builtin
  /-- The store in use. -/
  store : Option Path := none
  queue : Queue := {}
  /-- The analyses handed to workers. -/
  inFlight : List (Path × Trigger) := []
  project : Project := {}
  /-- The last search index built. -/
  search : Option SearchIndex := none

namespace Engine

instance : Inhabited Engine := ⟨{}⟩

def ofConfig (config : EngineConfig) (world : World) : Engine :=
  { config := config, world := world, parses := { parser := world.parser } }

def workers (e : Engine) : Nat := Pool.workerCount e.config.indexing.computeThreads

/-- The types that names can be bound to, given an index. -/
def contextOf (e : Engine) (index : Snapshot) : TypeLookup := index.lookup.or e.classpath.lookup

/-! ## The store of records -/

def directoryAt (e : Engine) (root : Path) : StoreDirectory := (e.world.stores.get? root).getD {}

def setDirectory (e : Engine) (root : Path) (d : StoreDirectory) : Engine :=
  { e with world := { e.world with stores := e.world.stores.insert root d } }

/-- The record of a file, whatever its content was. -/
def loadRecord (e : Engine) (path : Path) : Engine × Lookup FileSymbols :=
  match e.store with
  | none => (e, .miss .absent)
  | some root =>
    let (d, found) := (e.directoryAt root).load symbolSchema Codec.fileSymbols path
    (e.setDirectory root d, found)

def loadMatching (e : Engine) (path : Path) (fingerprint : Fingerprint) :
    Engine × Lookup FileSymbols :=
  match e.store with
  | none => (e, .miss .absent)
  | some root =>
    let (d, found) :=
      (e.directoryAt root).loadMatching symbolSchema Codec.fileSymbols path fingerprint
    (e.setDirectory root d, found)

/-- Stores the symbols of a file; without a store, or when it cannot be written, nothing happens. -/
def storeRecord (e : Engine) (path : Path) (fingerprint : Fingerprint) (symbols : FileSymbols) :
    Engine :=
  match e.store with
  | none => e
  | some root =>
    match (e.directoryAt root).store symbolSchema Codec.fileSymbols 0 path fingerprint symbols with
    | some d => e.setDirectory root d
    | none => e

def removeRecord (e : Engine) (path : Path) : Engine :=
  match e.store with
  | none => e
  | some root => e.setDirectory root ((e.directoryAt root).remove path).1

/-- Opens the store of a project, which is named after its first source root. -/
def openStore (e : Engine) (project : Project) : Engine × Option Path :=
  let opened : Option (Engine × Path) := do
    if !e.config.cache.enabled then none
    let root ← project.sourceRoots.head?
    let given := e.config.cache.dir.map Path.mk
    let location ← (CacheLocation.resolve root given {}).toOption
    let directory := location.symbolsDirectory
    if e.world.disk.isBlocked directory then none
    let (d, _) ← (e.directoryAt directory).openFor symbolSchema
    return (e.setDirectory directory d, directory)
  match opened with
  | some (e, directory) => (e, some directory)
  | none => (e, none)

end Engine

end JavaAtlas
