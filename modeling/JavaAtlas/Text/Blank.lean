/-!
# White space

The characters with the white-space property, and what splitting, trimming and collapsing at them
means.
-/

namespace JavaAtlas.Text

set_option autoImplicit false

/-- White space in every script. -/
def isBlank (c : Char) : Bool :=
  let n := c.toNat
  (9 ≤ n && n ≤ 13) || n == 0x20 || n == 0x85 || n == 0xA0 || n == 0x1680 ||
    (0x2000 ≤ n && n ≤ 0x200A) || n == 0x2028 || n == 0x2029 || n == 0x202F || n == 0x205F ||
    n == 0x3000

def trimStart (cs : List Char) : List Char := cs.dropWhile isBlank

def trimEnd (cs : List Char) : List Char := (cs.reverse.dropWhile isBlank).reverse

def trim (cs : List Char) : List Char := trimEnd (trimStart cs)

def words (cs : List Char) : List (List Char) :=
  (cs.splitBy fun a b => isBlank a == isBlank b).filter fun run =>
    run.any fun c => !isBlank c

/-- The text with each run of white space written as one space and none at the ends. -/
def collapse (s : String) : String :=
  " ".intercalate ((words s.toList).map String.ofList)

def squeeze (s : String) : String := String.ofList (s.toList.filter fun c => !isBlank c)

end JavaAtlas.Text
