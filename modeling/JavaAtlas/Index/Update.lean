import JavaAtlas.Index.Query

/-!
# Changing the index

Each change makes a new snapshot of the next generation; putting in what is there already changes
nothing.
-/

namespace JavaAtlas

set_option autoImplicit false

structure UpsertOutcome where
  generation : Nat := 0
  /-- The file declares something else than before. -/
  apiChanged : Bool := false
  /-- Simple names of types the file did not declare before. -/
  addedTypeNames : SortedSet String := ∅
  /-- Packages that no other file is in. -/
  addedPackages : SortedSet String := ∅
  previous : Option Fingerprint := none
  /-- The same content was there, so nothing was published. -/
  unchanged : Bool := false

namespace Snapshot

/-- What publishing `symbols` for `path` reports, given the index before. -/
def changeReport (s : Snapshot) (path : Path) (symbols : FileSymbols) : UpsertOutcome :=
  let old := s.file? path
  let others := s.removeFile path
  let oldTypes := ((old.map (·.symbols.types)).getD []).map (·.name)
  { generation := s.generation + 1
    apiChanged := match old with
      | none => true
      | some e => e.symbols.api != symbols.api
    addedTypeNames := SortedSet.ofList
      ((symbols.types.map (·.name)).filter fun name => !oldTypes.contains name)
    addedPackages := SortedSet.ofList
      (symbols.package.toList.filter fun package => !others.hasPackage package)
    previous := old.map (·.fingerprint) }

def holds (s : Snapshot) (path : Path) (fingerprint : Fingerprint) (symbols : FileSymbols) : Bool :=
  (s.file? path).any fun e => e.fingerprint == fingerprint && e.symbols == symbols

def upsert (s : Snapshot) (path : Path) (fingerprint : Fingerprint) (symbols : FileSymbols) :
    Snapshot × UpsertOutcome :=
  if s.holds path fingerprint symbols then
    (s, { generation := s.generation, previous := some fingerprint, unchanged := true })
  else
    let s' := (s.removeFile path).insertFile ⟨path, fingerprint, symbols⟩
    ({ s' with generation := s.generation + 1 }, s.changeReport path symbols)

def remove (s : Snapshot) (path : Path) : Snapshot × Bool :=
  if (s.file? path).isSome then
    ({ s.removeFile path with generation := s.generation + 1 }, true)
  else (s, false)

def clear (s : Snapshot) : Snapshot := { generation := s.generation + 1 }

end Snapshot

end JavaAtlas
