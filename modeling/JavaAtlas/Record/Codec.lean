import JavaAtlas.Naming
import JavaAtlas.Text.Utf8

/-!
# Binary codecs

A codec writes a value as bytes and reads one back off the front of a byte string. Integers have a
fixed width and come with the lowest byte first; texts and sequences start with their length as
eight bytes; an option or a truth value is one byte, zero or one; a choice among names is their
position as four bytes.
-/

namespace JavaAtlas

set_option autoImplicit false

structure Codec (α : Type) where
  write : α → List UInt8
  read : List UInt8 → Option (α × List UInt8)

namespace Codec

variable {α β : Type}

def writeWord : Nat → Nat → List UInt8
  | 0, _ => []
  | width + 1, n => UInt8.ofNat (n % 256) :: writeWord width (n / 256)

def readWord : Nat → List UInt8 → Option (Nat × List UInt8)
  | 0, bytes => some (0, bytes)
  | _ + 1, [] => none
  | width + 1, b :: bytes => do
    let (n, rest) ← readWord width bytes
    return (b.toNat + 256 * n, rest)

def u32 : Codec UInt32 where
  write n := writeWord 4 n.toNat
  read bytes := (readWord 4 bytes).map fun r => (UInt32.ofNat r.1, r.2)

def u64 : Codec UInt64 where
  write n := writeWord 8 n.toNat
  read bytes := (readWord 8 bytes).map fun r => (UInt64.ofNat r.1, r.2)

def bool : Codec Bool where
  write b := [if b then 1 else 0]
  read
    | 0 :: rest => some (false, rest)
    | 1 :: rest => some (true, rest)
    | _ => none

def takeBytes (n : Nat) (bytes : List UInt8) : Option (List UInt8 × List UInt8) :=
  if n ≤ bytes.length then some (bytes.take n, bytes.drop n) else none

def text : Codec String where
  write s :=
    let bytes := Text.encode s
    writeWord 8 bytes.length ++ bytes
  read bytes := do
    let (n, rest) ← readWord 8 bytes
    let (body, rest) ← takeBytes n rest
    let s ← Text.decode? body
    return (s, rest)

def option (c : Codec α) : Codec (Option α) where
  write
    | none => [0]
    | some a => 1 :: c.write a
  read
    | 0 :: rest => some (none, rest)
    | 1 :: rest => (c.read rest).map fun r => (some r.1, r.2)
    | _ => none

def readMany (c : Codec α) : Nat → List UInt8 → Option (List α × List UInt8)
  | 0, bytes => some ([], bytes)
  | n + 1, bytes => do
    let (a, rest) ← c.read bytes
    let (as, rest) ← readMany c n rest
    return (a :: as, rest)

def list (c : Codec α) : Codec (List α) where
  write as := writeWord 8 as.length ++ as.flatMap c.write
  read bytes := do
    let (n, rest) ← readWord 8 bytes
    readMany c n rest

def pair (a : Codec α) (b : Codec β) : Codec (α × β) where
  write p := a.write p.1 ++ b.write p.2
  read bytes := do
    let (x, rest) ← a.read bytes
    let (y, rest) ← b.read rest
    return ((x, y), rest)

/-- A codec for `β` from one for `α`; reading refuses what `make` refuses. -/
def via (c : Codec α) (parts : β → α) (make : α → Option β) : Codec β where
  write b := c.write (parts b)
  read bytes := do
    let (a, rest) ← c.read bytes
    let b ← make a
    return (b, rest)

/-- A value of a finite kind, by its position among them all. -/
def named [Named β] [DecidableEq β] : Codec β where
  write b := writeWord 4 ((Named.all : List β).findIdx (· == b))
  read bytes := do
    let (i, rest) ← readWord 4 bytes
    let b ← (Named.all : List β)[i]?
    return (b, rest)

/-- The value of a byte string, all of which must be used. -/
def decode (c : Codec α) (bytes : List UInt8) : Option α :=
  match c.read bytes with
  | some (a, []) => some a
  | _ => none

end Codec

end JavaAtlas
