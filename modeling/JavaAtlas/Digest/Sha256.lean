/-!
# SHA-256

The digest of a byte string: the padded message is read in blocks of sixteen words, and each block
stirs a state of eight words through sixty-four rounds. Words are numbers below `2 ^ 32`.
-/

namespace JavaAtlas.Sha256

set_option autoImplicit false

def wordBound : Nat := 4294967296

/-- Round constants: the fractional parts of the cube roots of the first sixty-four primes. -/
def roundConstants : List Nat := [
  0x428a2f98, 0x71374491, 0xb5c0fbcf, 0xe9b5dba5, 0x3956c25b, 0x59f111f1, 0x923f82a4, 0xab1c5ed5,
  0xd807aa98, 0x12835b01, 0x243185be, 0x550c7dc3, 0x72be5d74, 0x80deb1fe, 0x9bdc06a7, 0xc19bf174,
  0xe49b69c1, 0xefbe4786, 0x0fc19dc6, 0x240ca1cc, 0x2de92c6f, 0x4a7484aa, 0x5cb0a9dc, 0x76f988da,
  0x983e5152, 0xa831c66d, 0xb00327c8, 0xbf597fc7, 0xc6e00bf3, 0xd5a79147, 0x06ca6351, 0x14292967,
  0x27b70a85, 0x2e1b2138, 0x4d2c6dfc, 0x53380d13, 0x650a7354, 0x766a0abb, 0x81c2c92e, 0x92722c85,
  0xa2bfe8a1, 0xa81a664b, 0xc24b8b70, 0xc76c51a3, 0xd192e819, 0xd6990624, 0xf40e3585, 0x106aa070,
  0x19a4c116, 0x1e376c08, 0x2748774c, 0x34b0bcb5, 0x391c0cb3, 0x4ed8aa4a, 0x5b9cca4f, 0x682e6ff3,
  0x748f82ee, 0x78a5636f, 0x84c87814, 0x8cc70208, 0x90befffa, 0xa4506ceb, 0xbef9a3f7, 0xc67178f2]

structure State where
  a : Nat
  b : Nat
  c : Nat
  d : Nat
  e : Nat
  f : Nat
  g : Nat
  h : Nat

def State.initial : State :=
  ⟨0x6a09e667, 0xbb67ae85, 0x3c6ef372, 0xa54ff53a, 0x510e527f, 0x9b05688c, 0x1f83d9ab, 0x5be0cd19⟩

def addWords (x y : Nat) : Nat := (x + y) % wordBound

def State.add (s t : State) : State :=
  ⟨addWords s.a t.a, addWords s.b t.b, addWords s.c t.c, addWords s.d t.d, addWords s.e t.e,
    addWords s.f t.f, addWords s.g t.g, addWords s.h t.h⟩

def State.words (s : State) : List Nat := [s.a, s.b, s.c, s.d, s.e, s.f, s.g, s.h]

def rotateRight (x n : Nat) : Nat := ((x >>> n) ||| (x <<< (32 - n))) % wordBound

def complement (x : Nat) : Nat := wordBound - 1 - x

def State.round (s : State) (constant word : Nat) : State :=
  let sum1 := rotateRight s.e 6 ^^^ rotateRight s.e 11 ^^^ rotateRight s.e 25
  let choice := (s.e &&& s.f) ^^^ (complement s.e &&& s.g)
  let t1 := s.h + sum1 + choice + constant + word
  let sum0 := rotateRight s.a 2 ^^^ rotateRight s.a 13 ^^^ rotateRight s.a 22
  let majority := (s.a &&& s.b) ^^^ (s.a &&& s.c) ^^^ (s.b &&& s.c)
  ⟨(t1 + sum0 + majority) % wordBound, s.a, s.b, s.c, (s.d + t1) % wordBound, s.e, s.f, s.g⟩

def nextWord (w : List Nat) : Nat :=
  let x := w.getD 14 0
  let y := w.getD 1 0
  let s0 := rotateRight x 7 ^^^ rotateRight x 18 ^^^ (x >>> 3)
  let s1 := rotateRight y 17 ^^^ rotateRight y 19 ^^^ (y >>> 10)
  (w.getD 15 0 + s0 + w.getD 6 0 + s1) % wordBound

def schedule (block : List Nat) : List Nat :=
  ((List.range 48).foldl (fun w _ => nextWord w :: w) block.reverse).reverse

def State.absorb (s : State) (block : List Nat) : State :=
  s.add ((roundConstants.zip (schedule block)).foldl (fun t r => t.round r.1 r.2) s)

/-- Big-endian words of the bytes, four at a time. -/
def wordsOfBytes : List UInt8 → List Nat
  | b0 :: b1 :: b2 :: b3 :: rest =>
    (((b0.toNat * 256 + b1.toNat) * 256 + b2.toNat) * 256 + b3.toNat) :: wordsOfBytes rest
  | _ => []

def bigEndian (n x : Nat) : List UInt8 :=
  (List.range n).map fun i => UInt8.ofNat (x >>> (8 * (n - 1 - i)))

/-- The message with a one bit, zeros up to a multiple of 64 bytes, and its length in bits. -/
def pad (bytes : List UInt8) : List UInt8 :=
  let n := bytes.length
  bytes ++ 0x80 :: List.replicate ((119 - n % 64) % 64) 0 ++ bigEndian 8 (8 * n)

def absorbAll : Nat → List UInt8 → State → State
  | 0, _, s => s
  | count + 1, bytes, s => absorbAll count (bytes.drop 64) (s.absorb (wordsOfBytes (bytes.take 64)))

def digest (bytes : List UInt8) : List UInt8 :=
  let message := pad bytes
  (absorbAll (message.length / 64) message State.initial).words.flatMap (bigEndian 4)

end JavaAtlas.Sha256
