import JavaAtlas.Data.Kahn
import JavaAtlas.Symbols.Basic

/-!
# The order of a batch

Files come after the files that declare the types they were bound to last time. Ties go by path, and
where no file is ready the first file still waiting is taken.
-/

namespace JavaAtlas

set_option autoImplicit false

namespace FileSymbols

/-- The types a file is bound to: targets of references and resolved supertypes. -/
def boundTargets (f : FileSymbols) : List String :=
  (f.references.map (·.target)) ++ ((f.supertypes.filter (·.resolved)).map (·.supertype))

end FileSymbols

namespace BatchOrder

/-- What is known about some files from earlier. -/
abbrev Hints := SortedMap Path FileSymbols

def typesOf (hints : Hints) (path : Path) : List String :=
  ((hints.get? path).map fun f => f.types.map (·.fqn)).getD []

def targetsOf (hints : Hints) (path : Path) : List String :=
  ((hints.get? path).map FileSymbols.boundTargets).getD []

/-- The position of each declared type in `paths`; of several files the first one counts. -/
def declared (paths : List Path) (hints : Hints) : SortedMap String Nat :=
  paths.zipIdx.foldl (fun found (path, i) =>
    (typesOf hints path).foldl (fun found fqn =>
      if found.contains fqn then found else found.insert fqn i) found) ∅

/-- The positions of the other files that the file at position `i` was bound to. -/
def needs (found : SortedMap String Nat) (hints : Hints) (path : Path) (i : Nat) : List Nat :=
  SortedSet.toList (SortedSet.ofList
    (((targetsOf hints path).filterMap found.get?).filter (· != i)))

def graph (paths : List Path) (hints : Hints) : List (List Nat) :=
  let found := declared paths hints
  paths.zipIdx.map fun (path, i) => needs found hints path i

def byHints (paths : List Path) (hints : Hints) : List Path :=
  (Kahn.order (graph paths hints)).filterMap (paths[·]?)

end BatchOrder

end JavaAtlas
