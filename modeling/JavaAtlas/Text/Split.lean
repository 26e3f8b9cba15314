/-!
# Splitting at a character

Pieces of a text between separators, and the views of a dotted name that come from them: first and
last segment, and everything before the last dot.
-/

namespace JavaAtlas.Text

set_option autoImplicit false

def splitWhere (sep : Char → Bool) : List Char → List (List Char)
  | [] => [[]]
  | c :: cs =>
    if sep c then [] :: splitWhere sep cs
    else
      match splitWhere sep cs with
      | [] => [[c]]
      | piece :: pieces => (c :: piece) :: pieces

theorem splitWhere_ne_nil (sep : Char → Bool) (cs : List Char) : splitWhere sep cs ≠ [] := by
  cases cs with
  | nil => simp [splitWhere]
  | cons c cs =>
    rw [splitWhere]
    split
    · simp
    · split <;> simp

def split (sep : Char) (s : String) : List String :=
  (splitWhere (· == sep) s.toList).map String.ofList

def splitFirst? (sep : Char) (s : String) : Option (String × String) :=
  match s.toList.dropWhile (· != sep) with
  | [] => none
  | _ :: after => some (String.ofList (s.toList.takeWhile (· != sep)), String.ofList after)

def splitLast? (sep : Char) (s : String) : Option (String × String) :=
  match s.toList.reverse.dropWhile (· != sep) with
  | [] => none
  | _ :: before =>
    some (String.ofList before.reverse,
      String.ofList (s.toList.reverse.takeWhile (· != sep)).reverse)

def segments (name : String) : List String := split '.' name

def lastSegment (name : String) : String :=
  match splitLast? '.' name with
  | some (_, last) => last
  | none => name

def ownerOf? (name : String) : Option String := (splitLast? '.' name).map (·.1)

/-- The characters left when `head` is taken off the front. -/
def stripPrefix? : List Char → List Char → Option (List Char)
  | [], cs => some cs
  | _ :: _, [] => none
  | h :: head, c :: cs => if h = c then stripPrefix? head cs else none

/-- The characters left when `tail` is taken off the end. -/
def stripSuffix? (tail cs : List Char) : Option (List Char) :=
  (stripPrefix? tail.reverse cs.reverse).map List.reverse

def startsWith (head s : String) : Bool := (stripPrefix? head.toList s.toList).isSome

end JavaAtlas.Text
