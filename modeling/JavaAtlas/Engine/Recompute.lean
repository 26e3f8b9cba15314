import JavaAtlas.Engine.Basic
import JavaAtlas.Engine.Order
import JavaAtlas.Symbols.Extraction

/-!
# Recomputing files

One analysis reads the current text of a file, binds its names against the index, publishes the
symbols, and says which other files have to be looked at again. Files are analyzed one after another
in queue order.
-/

namespace JavaAtlas

set_option autoImplicit false

def Snapshot.canResolve (s : Snapshot) (name : String) : Bool :=
  !(s.typesBySimpleName name).isEmpty || s.hasPackage name

/-- The other files to be analyzed again after `path` was published: those that depend on it, when
what it declares changed, and those that failed on a name it brings. -/
def staleAfter (path : Path) (outcome : UpsertOutcome) (before after : Snapshot) : SortedSet Path :=
  if outcome.unchanged then ∅
  else
    let dependents :=
      if outcome.apiChanged && outcome.previous.isSome then
        before.dependents path ++ after.dependents path
      else []
    let added := SortedSet.toList outcome.addedTypeNames ++ SortedSet.toList outcome.addedPackages
    (SortedSet.ofList (dependents ++ after.filesWithUnresolved added)).erase path

namespace Engine

/-! ## One analysis -/

/-- A type that `symbols` are bound to and that neither the file, the index, the classpath nor a
promise declares. -/
def unboundTarget? (e : Engine) (symbols : FileSymbols) (index : Snapshot) : Option String :=
  let own := symbols.types.map (·.fqn)
  let known := e.contextOf index
  symbols.boundTargets.find? fun target =>
    !own.contains target && !known.hasType target && !e.queue.promised.contains target

/-- What `path` was bound against changed before it was published: a name it failed on can be
resolved now, or a type it is bound to went away. -/
def bindingsMoved (e : Engine) (path : Path) (outcome : UpsertOutcome) (before after : Snapshot) :
    Bool :=
  match after.file? path with
  | none => false
  | some entry =>
    let appeared := outcome.generation > before.generation + 1 &&
      entry.symbols.unresolved.any fun name => !before.canResolve name && after.canResolve name
    appeared || (e.unboundTarget? entry.symbols after).isSome

def forget (e : Engine) (path : Path) : Engine × Analysis :=
  let dependents := e.index.dependents path
  let (index, removed) := e.index.remove path
  let e := { e.removeRecord path with
    index := index
    parses := (e.parses.evict path).1
    registry := e.registry.releaseTombstone path }
  (e, { removed := true, stale := if removed then SortedSet.ofList dependents else ∅ })

/-- The stored symbols for exactly this content, unless the index has moved away from them. -/
def cachedSymbols? (e : Engine) (path : Path) (file : SourceFile) : Engine × Option FileSymbols :=
  match e.loadMatching path file.fingerprint with
  | (e, .hit _ symbols) =>
    if symbols.unresolved.any e.index.canResolve then (e, none)
    else if (e.unboundTarget? symbols e.index).isSome then (e, none)
    else (e, some symbols)
  | (e, .miss _) => (e, none)

/-- Parses a file and binds its names; a file that is too large is only parsed. The result is
stored. -/
def compute (e : Engine) (path : Path) (file : SourceFile) : Engine × FileSymbols :=
  let (parses, unit) := e.parses.parseCached path file.text file.fingerprint
  let symbols :=
    if file.text.utf8ByteSize > e.config.indexing.maxFileBytes then Extraction.ofSource unit
    else Extraction.ofAttributed (unit.bindTypes (e.contextOf e.index))
  let e := { e with parses := parses }
  (e.storeRecord path file.fingerprint symbols, symbols)

def publish (e : Engine) (path : Path) (file : SourceFile) (symbols : FileSymbols)
    (fromCache : Bool) : Engine × Analysis :=
  let before := e.index
  let (after, outcome) := before.upsert path file.fingerprint symbols
  let e := { e with
    index := after
    registry := e.registry.setLastAnalyzed path file.fingerprint file.version }
  (e, {
    fromCache := fromCache
    stale := staleAfter path outcome before after
    requeue := !outcome.unchanged && e.bindingsMoved path outcome before after })

def isUpToDate (e : Engine) (path : Path) (file : SourceFile) : Bool :=
  file.isAnalyzed && e.index.fingerprint? path == some file.fingerprint

def analyzeFile (e : Engine) (path : Path) (trigger : Trigger) : Engine × Analysis :=
  match e.registry.file path with
  | (_, none) => e.forget path
  | (registry, some file) =>
    let e := { e with registry := registry }
    match trigger with
    | .dependency =>
      let (e, symbols) := e.compute path file
      e.publish path file symbols false
    | .content =>
      if e.config.indexing.skipUnchangedFiles && e.isUpToDate path file then (e, {})
      else
        match e.cachedSymbols? path file with
        | (e, some symbols) => e.publish path file symbols true
        | (e, none) =>
          let (e, symbols) := e.compute path file
          e.publish path file symbols false

/-- Drops the promise made for a file, and gives the files bound to a promised type that it did not
declare. -/
def keepPromise (e : Engine) (path : Path) : Engine × List Path :=
  let (queue, promised) := e.queue.release path
  let declared := ((e.index.file? path).map fun f => f.symbols.types.map (·.fqn)).getD []
  let broken := promised.filter fun fqn => !declared.contains fqn
  ({ e with queue := queue }, (broken.flatMap e.index.usages).map (·.path))

def analyze (e : Engine) (path : Path) (trigger : Trigger) : Engine × Analysis :=
  let (e, a) := e.analyzeFile path trigger
  let (e, broken) := e.keepPromise path
  (e, { a with stale := (SortedSet.addAll a.stale broken).erase path })

/-! ## Scheduling -/

/-- The records of some files, and what those that match the current text promise. -/
def hintsFor : List Path → Engine → Engine × BatchOrder.Hints × List (Path × List String)
  | [], e => (e, ∅, [])
  | path :: rest, e =>
    let (e, found) := e.loadRecord path
    let (registry, file) := e.registry.file path
    let e := { e with registry := registry }
    let (e, hints, promises) := hintsFor rest e
    match found with
    | .miss _ => (e, hints, promises)
    | .hit fingerprint symbols =>
      let matching := file.any fun f => f.fingerprint == fingerprint
      (e, hints.insert path symbols,
        if matching then (path, symbols.types.map (·.fqn)) :: promises else promises)

def schedule (e : Engine) (paths : List Path) (trigger : Trigger) : Engine :=
  let sorted := SortedSet.toList (SortedSet.ofList paths)
  let (e, hints, promises) := match e.store with
    | none => (e, ∅, [])
    | some _ => hintsFor sorted e
  let order := if hints.isEmpty then sorted else BatchOrder.byHints sorted hints
  let (queue, ready) := e.queue.schedule e.workers order promises trigger
  { e with queue := queue, inFlight := e.inFlight ++ ready }

/-! ## Running -/

def step (e : Engine) : Engine :=
  match e.inFlight with
  | [] => e
  | (path, trigger) :: rest =>
    let (e, a) := { e with inFlight := rest }.analyze path trigger
    let (queue, ready) := e.queue.finish e.workers path (some a)
    { e with queue := queue, inFlight := e.inFlight ++ ready }

def run : Nat → Engine → Engine
  | 0, e => e
  | fuel + 1, e => if e.inFlight.isEmpty then e else run fuel e.step

def runLimit (e : Engine) : Nat :=
  let files := e.registry.size + e.queue.queue.length + e.inFlight.length + 4
  64 * files * files

def settle (e : Engine) : Engine := e.run e.runLimit

end Engine

end JavaAtlas
