import JavaAtlas.Store.Directory

/-!
# What others can do to a store

The directory is open to every program. These operations change its files without keeping to the
layout of records; a lookup has to cope with the result.
-/

namespace JavaAtlas

set_option autoImplicit false

namespace StoreDirectory

/-- What a program reads that opens the record file of a path. -/
def readRaw? (d : StoreDirectory) (path : Path) : Option (List UInt8) :=
  match d.node? (recordName path) with
  | some (.file bytes) => some bytes
  | some .link => d.marker
  | some .directory | none => none

/-- Overwrites the record file of a path, or the marker if a link leads there. -/
def writeRaw? (d : StoreDirectory) (path : Path) (bytes : List UInt8) : Option StoreDirectory :=
  if d.blocked then none
  else
    match d.node? (recordName path) with
    | some .directory => none
    | some .link => some { d with marker := some bytes }
    | some (.file _) | none => some (d.setNode (recordName path) (.file bytes))

/-- Cuts the record file of a path to at most `limit` bytes, and gives the number kept. -/
def truncateRaw? (d : StoreDirectory) (path : Path) (limit : Nat) : Option (StoreDirectory × Nat) := do
  let kept := (← d.readRaw? path).take limit
  return (← d.writeRaw? path kept, kept.length)

/-- Copies the record file of a path over that of `target`, and gives its size. -/
def copyRaw? (d : StoreDirectory) (path target : Path) : Option (StoreDirectory × Nat) := do
  let bytes ← d.readRaw? path
  return (← d.writeRaw? target bytes, bytes.length)

/-- Puts something where the record file of a path would be, if nothing is there. -/
def place? (d : StoreDirectory) (path : Path) (node : RecordNode) : Option StoreDirectory :=
  if d.blocked || (d.node? (recordName path)).isSome then none
  else some (d.setNode (recordName path) node)

def makeDirectory? (d : StoreDirectory) (path : Path) : Option StoreDirectory :=
  match d.node? (recordName path) with
  | some .directory => some d
  | _ => d.place? path .directory

def writeMarker? (d : StoreDirectory) (text : String) : Option StoreDirectory :=
  if d.blocked then none else some { d with marker := some (Text.encode text) }

/-- Puts a plain file in the place of the store, if nothing is stored yet. -/
def block? (d : StoreDirectory) : Option StoreDirectory :=
  if d.isPresent then none else some { blocked := true }

/-- Cuts every record file to at most `limit` bytes, and gives their number. -/
def truncateAll (d : StoreDirectory) (limit : Nat) : StoreDirectory × Nat :=
  d.recordNames.foldl
    (fun (d, n) name =>
      match d.node? name with
      | some (.file bytes) => (d.setNode name (.file (bytes.take limit)), n + 1)
      | _ => (d, n))
    (d, 0)

end StoreDirectory

/-- The bytes of a record without the time of writing. -/
def timeless (bytes : List UInt8) : List UInt8 :=
  bytes.zipIdx.map fun (b, i) => if 4 ≤ i ∧ i < 12 then 0 else b

end JavaAtlas
