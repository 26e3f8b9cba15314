/-!
# Archives without entries

An archive ends with a record that counts its entries. It is looked for from the end of the file; a
comment follows it, and anything may stand before it and after the comment.
-/

namespace JavaAtlas.Archive

set_option autoImplicit false

def endRecordLength : Nat := 22

def word (bytes : List UInt8) (i : Nat) : Nat :=
  ((bytes.drop i).headD 0).toNat + 256 * ((bytes.drop (i + 1)).headD 0).toNat

inductive EndRecord
  /-- No record. -/
  | none
  /-- Counts entries, or says that they are on another disk. -/
  | other
  /-- The end of an archive in one piece, without entries. -/
  | empty
deriving DecidableEq

/-- What the record at the front of `bytes` says. One that is cut off, or whose comment is, is
none. -/
def EndRecord.read (bytes : List UInt8) : EndRecord :=
  if bytes.take 4 != [0x50, 0x4B, 5, 6] || bytes.length < endRecordLength + word bytes 20 then .none
  else if word bytes 10 != 0 then .none
  else if word bytes 8 != 0 || word bytes 4 != word bytes 6 then .other
  else if word bytes 16 == 0xFFFF && word bytes 18 == 0xFFFF then .other
  else .empty

def lastEndRecord : List UInt8 → EndRecord
  | [] => .none
  | b :: rest =>
    match lastEndRecord rest with
    | .none => EndRecord.read (b :: rest)
    | found => found

def isEmpty (bytes : List UInt8) : Bool := lastEndRecord bytes == .empty

end JavaAtlas.Archive
