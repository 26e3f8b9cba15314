import JavaAtlas.Text.Split

/-!
# Paths

A path keeps the spelling it was given; its identity and order come from its components. Doubled
and trailing slashes and inner `.` components do not count, `..` is not resolved, and components
compare as texts, so `/p/a/b` stands before `/p/a-b`.
-/

namespace JavaAtlas

set_option autoImplicit false

open Std (TransCmp TransOrd)

inductive Component
  | root
  | here
  | parent
  | name (text : String)
deriving DecidableEq

namespace Component

/-- Roots come first, then `.`, `..` and names. -/
def rank : Component → Nat
  | root => 0
  | here => 1
  | parent => 2
  | name _ => 3

def text : Component → String
  | root => "/"
  | here => "."
  | parent => ".."
  | name s => s

instance : Ord Component := ⟨compareLex (compareOn rank) (compareOn text)⟩

instance : TransOrd Component :=
  inferInstanceAs (TransCmp (compareLex (compareOn rank) (compareOn text)))

end Component

structure Path where
  spelling : String
deriving DecidableEq

namespace Path

instance : Inhabited Path := ⟨⟨""⟩⟩

def isAbsolute (p : Path) : Bool := p.spelling.toList.head? == some '/'

def componentOf (piece : String) : Component := if piece = ".." then .parent else .name piece

/-- The components that make up the identity of a path. A leading `.` counts only when the path is
relative. -/
def components (p : Path) : List Component :=
  let pieces := Text.split '/' p.spelling
  let inner := (pieces.filter fun s => s ≠ "" && s ≠ ".").map componentOf
  if p.isAbsolute then .root :: inner
  else if pieces.head? = some "." then .here :: inner
  else inner

instance : Ord Path := ⟨compareOn components⟩

instance : TransOrd Path := inferInstanceAs (TransCmp (compareOn components))

/-- Two spellings of the same path are equal. -/
instance : BEq Path := ⟨fun a b => compare a b == .eq⟩

def le (a b : Path) : Bool := (compare a b).isLE

def ofComponents : List Component → Path
  | .root :: rest => ⟨"/" ++ "/".intercalate (rest.map Component.text)⟩
  | components => ⟨"/".intercalate (components.map Component.text)⟩

/-- One component read against the names before it: `..` cancels the nearest one, and at the root
there is nothing to cancel. -/
def cancel (names : List String) : Component → List String
  | .root => []
  | .here => names
  | .parent => names.dropLast
  | .name s => names ++ [s]

/-- The absolute path that `p` names from the root directory, without `.` and `..`. The empty path
names nothing and stays as it is. -/
def normalize (p : Path) : Path :=
  if p.spelling = "" then p
  else ofComponents (.root :: (p.components.foldl cancel []).map .name)

/-- `p` followed by `rest`, or `rest` alone when it is absolute. -/
def join (p : Path) (rest : String) : Path :=
  if (Path.mk rest).isAbsolute then ⟨rest⟩
  else if p.spelling = "" || p.spelling.toList.getLast? = some '/' then ⟨p.spelling ++ rest⟩
  else ⟨p.spelling ++ "/" ++ rest⟩

def fileName? (p : Path) : Option String :=
  match p.components.getLast? with
  | some (.name s) => some s
  | _ => none

/-- What follows the last dot of the file name, unless the name starts with that dot. -/
def extension? (p : Path) : Option String := do
  let name ← p.fileName?
  let (stem, ext) ← Text.splitLast? '.' name
  if stem = "" then none else some ext

def isBelow (p base : Path) : Bool := base.components.isPrefixOf p.components

end Path

end JavaAtlas
