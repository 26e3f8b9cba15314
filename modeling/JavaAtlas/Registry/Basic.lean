import JavaAtlas.Digest.Fingerprint
import JavaAtlas.Disk
import JavaAtlas.Naming
import JavaAtlas.Text.Utf8

/-!
# Source files and their versions

The registry holds the current text of every source file. Each change raises the version of its file
and is told to every subscriber. The version of a removed file is kept, so that a file that comes
back goes on counting.
-/

namespace JavaAtlas

set_option autoImplicit false

def sourceExtension : String := "java"

structure SourceFile where
  text : String
  version : Nat
  /-- The fingerprint of the text, once somebody asked for it. -/
  memo : Option Fingerprint := none
  /-- Fingerprint and version of the last completed analysis. -/
  lastAnalyzed : Option (Fingerprint × Nat) := none

namespace SourceFile

def fingerprint (f : SourceFile) : Fingerprint := f.memo.getD (.ofText f.text)

def memoized (f : SourceFile) : SourceFile := { f with memo := some f.fingerprint }

def replaced (f : SourceFile) (text : String) : SourceFile :=
  { f with text := text, version := f.version + 1, memo := none }

def isAnalyzed (f : SourceFile) : Bool := f.lastAnalyzed.any fun a => a.1 == f.fingerprint

end SourceFile

inductive ChangeKind
  | created
  | modified
  | deleted
deriving DecidableEq

instance : Named ChangeKind where
  all := [.created, .modified, .deleted]
  name
    | .created => "Created"
    | .modified => "Modified"
    | .deleted => "Deleted"

structure ChangeEvent where
  path : Path
  kind : ChangeKind
  version : Nat
deriving DecidableEq

inductive RegistryError
  /-- A file could not be read. -/
  | io (path : Path) (cause : String)
  /-- A directory at `place` could not be listed. -/
  | walk (root place : Path) (cause : String)
  | notADirectory (root : Path)
  | unknownFile (path : Path)

def RegistryError.message : RegistryError → String
  | .io path cause => "failed to read " ++ path.spelling ++ ": " ++ cause
  | .walk root place cause =>
    "failed to walk source root " ++ root.spelling ++ ": IO error for operation on " ++
      place.spelling ++ ": " ++ cause
  | .notADirectory root => "source root " ++ root.spelling ++ " is not a directory"
  | .unknownFile path => "file " ++ path.spelling ++ " is not registered"

structure Registry where
  roots : List Path := []
  files : SortedMap Path SourceFile := ∅
  /-- The last versions of removed files. -/
  tombstones : SortedMap Path Nat := ∅
  /-- Events not yet collected, by subscriber; `none` for one that left. -/
  mailboxes : List (Option (List ChangeEvent)) := []

namespace Registry

instance : Inhabited Registry := ⟨{}⟩

/-! ## Subscribers -/

def emit (r : Registry) (events : List ChangeEvent) : Registry :=
  { r with mailboxes := r.mailboxes.map fun box => box.map (· ++ events) }

/-- Adds a subscriber to the events from now on, and gives its number. -/
def subscribe (r : Registry) : Registry × Nat :=
  ({ r with mailboxes := r.mailboxes ++ [some []] }, r.mailboxes.length)

def unsubscribe (r : Registry) (subscriber : Nat) : Registry :=
  { r with mailboxes := r.mailboxes.set subscriber none }

/-- The events waiting for a subscriber, which collects them. -/
def collect (r : Registry) (subscriber : Nat) : Registry × List ChangeEvent :=
  match r.mailboxes[subscriber]? with
  | some (some events) => ({ r with mailboxes := r.mailboxes.set subscriber (some []) }, events)
  | _ => (r, [])

/-! ## Changes -/

def setText (r : Registry) (path : Path) (text : String) : Registry × ChangeEvent :=
  match r.files.get? path with
  | some file =>
    let next := file.replaced text
    ({ r with files := r.files.insert path next }, ⟨path, .modified, next.version⟩)
  | none =>
    let version := match r.tombstones.get? path with
      | some last => last + 1
      | none => 1
    ({ r with
        files := r.files.insert path { text := text, version := version }
        tombstones := r.tombstones.erase path },
      ⟨path, .created, version⟩)

def openFile (r : Registry) (path : Path) (text : String) : Registry × Nat :=
  let (r, event) := r.setText path.normalize text
  (r.emit [event], event.version)

def edit (r : Registry) (path : Path) (text : String) : Registry × Except RegistryError Nat :=
  if r.files.contains path.normalize then
    let (r, version) := r.openFile path text
    (r, .ok version)
  else (r, .error (.unknownFile path.normalize))

def remove (r : Registry) (path : Path) : Registry × Bool :=
  let path := path.normalize
  match r.files.get? path with
  | none => (r, false)
  | some file =>
    let r := { r with
      files := r.files.erase path
      tombstones := r.tombstones.insert path file.version }
    (r.emit [⟨path, .deleted, file.version⟩], true)

def releaseTombstone (r : Registry) (path : Path) : Registry :=
  if r.files.contains path then r else { r with tombstones := r.tombstones.erase path }

/-- The texts of the source files that a walk comes upon, up to the first place where it breaks off. -/
def readSources (root : Path) :
    List (Path × DiskNode) → Except RegistryError (List (Path × String))
  | [] => .ok []
  | (path, node) :: rest =>
    match node with
    | .sealed cause => .error (.walk root path cause)
    | .locked cause =>
      if path.extension? = some sourceExtension then .error (.io path cause)
      else readSources root rest
    | .file bytes =>
      if path.extension? = some sourceExtension then do
        let sources ← readSources root rest
        return (path.normalize, Text.decodeLossy bytes) :: sources
      else readSources root rest
    | .directory | .archive _ => readSources root rest

/-- Takes one file from disk, unless it has that text already. -/
def loadFile (state : Registry × List ChangeEvent) (source : Path × String) :
    Registry × List ChangeEvent :=
  let (r, events) := state
  if (r.files.get? source.1).any fun f => f.text == source.2 then (r, events)
  else
    let (r, event) := r.setText source.1 source.2
    (r, events ++ [event])

/-- Adds a source root and every source file below it; gives the files that are new or changed. -/
def registerRoot (r : Registry) (disk : Disk) (root : Path) :
    Registry × Except RegistryError (List Path) :=
  let root := root.normalize
  if !disk.isDirectory root then (r, .error (.notADirectory root))
  else
    match readSources root (disk.below root) with
    | .error cause => (r, .error cause)
    | .ok sources =>
      let r := if r.roots.contains root then r else { r with roots := r.roots ++ [root] }
      let (r, events) := sources.foldl loadFile (r, [])
      (r.emit events, .ok (events.map (·.path)))

/-- Records a completed analysis, unless a later one is recorded or the file is gone. -/
def setLastAnalyzed (r : Registry) (path : Path) (fingerprint : Fingerprint) (version : Nat) :
    Registry :=
  { r with
    files := r.files.adjust path fun file =>
      if file.lastAnalyzed.all fun a => a.2 ≤ version then
        { file with lastAnalyzed := some (fingerprint, version) }
      else file }

/-! ## Questions -/

/-- A file, with its fingerprint remembered from now on. -/
def file (r : Registry) (path : Path) : Registry × Option SourceFile :=
  ({ r with files := r.files.adjust path SourceFile.memoized },
    (r.files.get? path).map SourceFile.memoized)

def contains (r : Registry) (path : Path) : Bool := r.files.contains path

def paths (r : Registry) : List Path := r.files.keys

def size (r : Registry) : Nat := r.files.size

def isEmpty (r : Registry) : Bool := r.files.isEmpty

def memoizedCount (r : Registry) : Nat := (r.files.values.filter fun f => f.memo.isSome).length

end Registry

end JavaAtlas
