/-!
# Reading UTF-8 with replacement

Bytes are read one at a time. A sequence that breaks off is replaced as soon as a byte cannot
continue it, and that byte is read anew, so each maximal malformed piece becomes one replacement.
-/

namespace JavaAtlas.Text

set_option autoImplicit false

/-- A multi-byte sequence under way: its value so far, how many bytes are to come, and the bounds
of the next one. -/
structure Pending where
  value : Nat
  more : Nat
  low : Nat
  high : Nat

/-- What a byte means at the start of a character. -/
inductive Lead
  | single (c : Char)
  | opens (p : Pending)
  | malformed

def Lead.ofByte (b : Nat) : Lead :=
  if b < 0x80 then .single (Char.ofNat b)
  else if 0xC2 ≤ b && b ≤ 0xDF then .opens ⟨b - 0xC0, 1, 0x80, 0xBF⟩
  else if b == 0xE0 then .opens ⟨b - 0xE0, 2, 0xA0, 0xBF⟩
  else if b == 0xED then .opens ⟨b - 0xE0, 2, 0x80, 0x9F⟩
  else if 0xE1 ≤ b && b ≤ 0xEF then .opens ⟨b - 0xE0, 2, 0x80, 0xBF⟩
  else if b == 0xF0 then .opens ⟨b - 0xF0, 3, 0x90, 0xBF⟩
  else if 0xF1 ≤ b && b ≤ 0xF3 then .opens ⟨b - 0xF0, 3, 0x80, 0xBF⟩
  else if b == 0xF4 then .opens ⟨b - 0xF0, 3, 0x80, 0x8F⟩
  else .malformed

/-- The characters of `bytes`, with `none` for each malformed piece. -/
def decodePieces : Option Pending → List UInt8 → List (Option Char)
  | none, [] => []
  | some _, [] => [none]
  | pending, byte :: rest =>
    let b := byte.toNat
    let fresh : List (Option Char) :=
      match Lead.ofByte b with
      | .single c => some c :: decodePieces none rest
      | .opens p => decodePieces (some p) rest
      | .malformed => none :: decodePieces none rest
    match pending with
    | none => fresh
    | some p =>
      if p.low ≤ b && b ≤ p.high then
        let value := p.value * 64 + (b - 0x80)
        if p.more ≤ 1 then some (Char.ofNat value) :: decodePieces none rest
        else decodePieces (some ⟨value, p.more - 1, 0x80, 0xBF⟩) rest
      else none :: fresh

def decodeLossy (bytes : List UInt8) : String :=
  String.ofList ((decodePieces none bytes).map fun c => c.getD (Char.ofNat 0xFFFD))

def decode? (bytes : List UInt8) : Option String := String.fromUTF8? ⟨bytes.toArray⟩

def encode (s : String) : List UInt8 := s.toUTF8.data.toList

end JavaAtlas.Text
