import JavaAtlas.Digest.Sha256
import JavaAtlas.Text.Utf8

/-!
# Content fingerprints

A fingerprint is the SHA-256 digest of some bytes, written in lower-case hexadecimal. It depends on
the bytes alone.
-/

namespace JavaAtlas

set_option autoImplicit false

def hexDigit (n : Nat) : Char := if n < 10 then Char.ofNat (48 + n) else Char.ofNat (87 + n)

def hexOfBytes (bytes : List UInt8) : String :=
  String.ofList (bytes.flatMap fun b => [hexDigit (b.toNat / 16), hexDigit (b.toNat % 16)])

def hexValue? (c : Char) : Option Nat :=
  if '0' ≤ c && c ≤ '9' then some (c.toNat - 48)
  else if 'a' ≤ c && c ≤ 'f' then some (c.toNat - 87)
  else if 'A' ≤ c && c ≤ 'F' then some (c.toNat - 55)
  else none

/-- The bytes written by pairs of hexadecimal digits. -/
def bytesOfHex? : List Char → Option (List UInt8)
  | [] => some []
  | [_] => none
  | hi :: lo :: rest => do
    let h ← hexValue? hi
    let l ← hexValue? lo
    let tail ← bytesOfHex? rest
    return UInt8.ofNat (16 * h + l) :: tail

/-- The written digest of some content. Any string can stand here, since a stored record may hold
one that no content has. -/
structure Fingerprint where
  hex : String
deriving DecidableEq

namespace Fingerprint

instance : Inhabited Fingerprint := ⟨⟨""⟩⟩

def ofBytes (bytes : List UInt8) : Fingerprint := ⟨hexOfBytes (Sha256.digest bytes)⟩

def ofText (text : String) : Fingerprint := ofBytes (Text.encode text)

end Fingerprint

end JavaAtlas
