import JavaAtlas.Index.Query

/-!
# Walking up the type hierarchy
-/

namespace JavaAtlas.Snapshot

set_option autoImplicit false

/-- The type of a file that most closely encloses `offset`, the first of equally short ones. -/
def enclosingType? (s : Snapshot) (path : Path) (offset : Nat) : Option Symbol :=
  ((s.symbolsIn path).filter fun t => t.isType && t.span.encloses offset).foldl
    (fun best t =>
      match best with
      | none => some t
      | some b => if t.span.length < b.span.length then some t else some b)
    none

def supertypeLayers (s : Snapshot) (owners : List String) : List (List String) :=
  layers s.supertypesOf (s.edgeCount + owners.length + 1) [] owners

/-- `owners` and all their supertypes, the nearest first. -/
def upward (s : Snapshot) (owners : List String) : List String := (s.supertypeLayers owners).flatten

def membersUpward (s : Snapshot) (owners : List String) : List Symbol :=
  (s.upward owners).flatMap s.membersOf

/-- A type and those around it, at most `fuel` of them. -/
def containerChain (s : Snapshot) : Nat → String → List String
  | 0, _ => []
  | fuel + 1, fqn =>
    match ((s.symbolsByFqn fqn).find? Symbol.isType).bind (·.container) with
    | none => [fqn]
    | some outer => fqn :: containerChain s fuel outer

/-- The members that can be named without a receiver at `offset`: those of the types around it and
of their supertypes. The name of a type is longer than that of the type around it. -/
def visibleMembers (s : Snapshot) (path : Path) (offset : Nat) : List Symbol :=
  match s.enclosingType? path offset with
  | none => []
  | some t => s.membersUpward (s.containerChain (t.fqn.length + 1) t.fqn)

/-- The methods called `name` at the least distance up from `owner` at which there are any. -/
def nearestMethods (s : Snapshot) (owner name : String) : List Symbol :=
  let methodsOf (types : List String) : List Symbol :=
    (types.flatMap s.membersOf).filter fun m => m.kind == .method && m.name == name
  (((s.supertypeLayers [owner]).map methodsOf).find? fun found => !found.isEmpty).getD []

/-- The declarations of the name at `offset`. A declaration stands for itself, a type reference for
the type, and a call for the nearest methods of that name, or failing that for all of them. -/
def declarationsAt (s : Snapshot) (path : Path) (offset : Nat) : List Symbol :=
  match s.declarationAt? path offset, s.referenceAt? path offset, s.callAt? path offset with
  | some symbol, _, _ => [symbol]
  | none, some reference, _ => (s.symbolsByFqn reference.target).filter Symbol.isType
  | none, none, some call =>
    let owner := call.enclosing.or ((s.enclosingType? path offset).map (·.fqn))
    match (owner.map fun o => s.nearestMethods o call.name).getD [] with
    | [] => (s.query call.name).filter fun m => m.kind == .method
    | found => found
  | none, none, none => []

end JavaAtlas.Snapshot
