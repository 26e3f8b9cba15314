import JavaAtlas.Data.SortedMap
import JavaAtlas.Naming
import JavaAtlas.Record.Layout
import JavaAtlas.Text.Blank

/-!
# A directory of records

One record file per path, named by the fingerprint of the path, beside a marker file with the schema
version of them all. Whatever the directory holds, a lookup either gives a record that was written
for this path under this schema or says why there is none.
-/

namespace JavaAtlas

set_option autoImplicit false

inductive RecordNode
  | file (bytes : List UInt8)
  | directory
  /-- A symbolic link to the marker file. -/
  | link

structure StoreDirectory where
  /-- The place is taken by a plain file, so nothing can be stored. -/
  blocked : Bool := false
  /-- The file with the schema version. -/
  marker : Option (List UInt8) := none
  /-- The records by file name, when their directory exists. -/
  records : Option (SortedMap String RecordNode) := none

inductive StoreStatus
  /-- There was no store. -/
  | fresh
  /-- The store has the right schema. -/
  | reused
  /-- The store had another schema and was emptied. -/
  | rebuilt (found : Option UInt32)
deriving DecidableEq

inductive MissReason
  | absent
  /-- The record is for another content. -/
  | fingerprintMismatch
  /-- The record could not be read and was removed. -/
  | corrupt
deriving DecidableEq

instance : Named MissReason where
  all := [.absent, .fingerprintMismatch, .corrupt]
  name
    | .absent => "Absent"
    | .fingerprintMismatch => "FingerprintMismatch"
    | .corrupt => "Corrupt"

inductive Lookup (α : Type)
  | hit (fingerprint : Fingerprint) (payload : α)
  | miss (reason : MissReason)

def Lookup.isHit {α : Type} : Lookup α → Bool
  | .hit _ _ => true
  | .miss _ => false

/-- The largest record that is read. -/
def recordLimit : Nat := 67108864

/-- How a path is written in a record. -/
def pathKey (path : Path) : String := path.spelling.map fun c => if c == '\\' then '/' else c

def recordName (path : Path) : String := (Fingerprint.ofText (pathKey path)).hex ++ ".rec"

/-- A number in decimal digits, with an optional plus in front, if it fits 32 bits. -/
def readSchema? (text : String) : Option UInt32 :=
  let digits := match text.toList with
    | '+' :: rest => rest
    | cs => cs
  if digits.isEmpty || !digits.all Char.isDigit then none
  else
    let n := digits.foldl (fun n c => 10 * n + (c.toNat - 48)) 0
    if n < 4294967296 then some (UInt32.ofNat n) else none

/-- The version a marker stands for; one that cannot be read counts as the largest version. -/
def markerVersion (text : String) : UInt32 :=
  (readSchema? (String.ofList (Text.trim text.toList))).getD 4294967295

namespace StoreDirectory

instance : Inhabited StoreDirectory := ⟨{}⟩

def node? (d : StoreDirectory) (name : String) : Option RecordNode :=
  d.records.bind fun records => records.get? name

def markerText? (d : StoreDirectory) : Option String := d.marker.bind Text.decode?

def isPresent (d : StoreDirectory) : Bool := d.marker.isSome || d.records.isSome

def recordNames (d : StoreDirectory) : List String := (d.records.getD ∅).keys

def setNode (d : StoreDirectory) (name : String) (node : RecordNode) : StoreDirectory :=
  { d with records := some ((d.records.getD ∅).insert name node) }

def dropNode (d : StoreDirectory) (name : String) : StoreDirectory :=
  { d with records := d.records.map fun records => records.erase name }

/-- Opens the directory for a schema. Records of another schema are dropped. A marker that is no text
cannot be read, so nothing is changed. -/
def openFor (d : StoreDirectory) (schema : UInt32) : Option (StoreDirectory × StoreStatus) :=
  if d.blocked || (d.marker.isSome && d.markerText?.isNone) then none
  else
    let found := d.markerText?.map markerVersion
    if found = some schema then some ({ d with records := some (d.records.getD ∅) }, .reused)
    else
      some ({ d with marker := some (Text.encode (toString schema.toNat)), records := some ∅ },
        if d.isPresent then .rebuilt found else .fresh)

/-- Writes a record. A directory in its place, or a plain file in the place of the store, is in the
way. -/
def store {α : Type} (d : StoreDirectory) (schema : UInt32) (payload : Codec α) (time : UInt64)
    (path : Path) (fingerprint : Fingerprint) (value : α) : Option StoreDirectory :=
  if d.blocked then none
  else
    match d.node? (recordName path) with
    | some .directory => none
    | _ =>
      let record : StoredRecord α := ⟨schema, time, pathKey path, fingerprint, value⟩
      some (d.setNode (recordName path) (.file ((StoredRecord.codec payload).write record)))

def remove (d : StoreDirectory) (path : Path) : StoreDirectory × Bool :=
  if d.blocked then (d, false)
  else
    match d.node? (recordName path) with
    | some .directory => (d, false)
    | _ => (d.dropNode (recordName path), true)

def load {α : Type} (d : StoreDirectory) (schema : UInt32) (payload : Codec α) (path : Path) :
    StoreDirectory × Lookup α :=
  match d.node? (recordName path) with
  | none | some .directory => (d, .miss .absent)
  | some .link => (d.dropNode (recordName path), .miss .absent)
  | some (.file bytes) =>
    if recordLimit < bytes.length then (d.dropNode (recordName path), .miss .absent)
    else
      match (StoredRecord.codec payload).decode bytes with
      | some r =>
        if r.schema = schema ∧ r.key = pathKey path then (d, .hit r.fingerprint r.payload)
        else (d.dropNode (recordName path), .miss .corrupt)
      | none => (d.dropNode (recordName path), .miss .corrupt)

/-- Looks up the record for a path and a content. -/
def loadMatching {α : Type} (d : StoreDirectory) (schema : UInt32) (payload : Codec α)
    (path : Path) (fingerprint : Fingerprint) : StoreDirectory × Lookup α :=
  match d.load schema payload path with
  | (d, .hit found value) =>
    if found = fingerprint then (d, .hit found value) else (d, .miss .fingerprintMismatch)
  | other => other

def clear (d : StoreDirectory) : Option StoreDirectory :=
  if d.blocked then none else some { d with records := some ∅ }

end StoreDirectory

end JavaAtlas
