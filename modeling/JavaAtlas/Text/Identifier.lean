import JavaAtlas.Text.Ranges

/-!
# Identifier characters and the identifier that ends at an offset
-/

namespace JavaAtlas.Text

set_option autoImplicit false

def isAlphabetic (c : Char) : Bool :=
  if c.toNat < 128 then c.isAlpha else letterRanges.holds c || otherAlphabeticRanges.holds c

def isNumeric (c : Char) : Bool :=
  if c.toNat < 128 then c.isDigit else decimalDigitRanges.holds c || otherNumericRanges.holds c

def isIdentifierStart (c : Char) : Bool := isAlphabetic c || c == '_' || c == '$'

def isIdentifierPart (c : Char) : Bool := isAlphabetic c || isNumeric c || c == '_' || c == '$'

def byteLength : List Char → Nat
  | [] => 0
  | c :: cs => c.utf8Size + byteLength cs

/-- The longest prefix of at most `n` bytes: the text up to the character boundary at or before
offset `n`. -/
def takeBytes : Nat → List Char → List Char
  | _, [] => []
  | n, c :: cs => if c.utf8Size ≤ n then c :: takeBytes (n - c.utf8Size) cs else []

def dropBytes : Nat → List Char → List Char
  | _, [] => []
  | n, c :: cs => if c.utf8Size ≤ n then dropBytes (n - c.utf8Size) cs else c :: cs

@[simp] theorem takeBytes_append_dropBytes (n : Nat) (cs : List Char) :
    takeBytes n cs ++ dropBytes n cs = cs := by
  induction cs generalizing n with
  | nil => rfl
  | cons c cs ih =>
    by_cases h : c.utf8Size ≤ n
    · simp [takeBytes, dropBytes, h, ih]
    · simp [takeBytes, dropBytes, h]

def suffixWhile (p : Char → Bool) (cs : List Char) : List Char := (cs.reverse.takeWhile p).reverse

def dropSuffixWhile (p : Char → Bool) (cs : List Char) : List Char :=
  (cs.reverse.dropWhile p).reverse

@[simp] theorem dropSuffixWhile_append_suffixWhile (p : Char → Bool) (cs : List Char) :
    dropSuffixWhile p cs ++ suffixWhile p cs = cs := by
  rw [dropSuffixWhile, suffixWhile, ← List.reverse_append, List.takeWhile_append_dropWhile,
    List.reverse_reverse]

/-- The identifier fragment that ends at `offset`. An offset past the end means the end, one inside
a character the start of that character. -/
def partialIdentifier (text : String) (offset : Nat) : String :=
  String.ofList (suffixWhile isIdentifierPart (takeBytes offset text.toList))

def slice (text : String) (start stop : Nat) : String :=
  String.ofList (dropBytes start (takeBytes stop text.toList))

end JavaAtlas.Text
