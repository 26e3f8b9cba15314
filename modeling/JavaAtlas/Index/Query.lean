import JavaAtlas.Classpath.Basic
import JavaAtlas.Data.Reach
import JavaAtlas.Index.Snapshot

/-!
# Questions to a snapshot
-/

namespace JavaAtlas

set_option autoImplicit false

structure Usage where
  path : Path
  span : Span

namespace Symbol

def byNameAndPath (a b : Symbol) : Bool :=
  ((compare a.fqn b.fqn).then (compare a.path b.path)).isLE

def byPlace (a b : Symbol) : Bool :=
  ((compare a.path b.path).then (compare a.ordinal b.ordinal)).isLE

def byNameAndPlace (a b : Symbol) : Bool :=
  ((compare a.fqn b.fqn).then
    ((compare a.path b.path).then (compare a.ordinal b.ordinal))).isLE

end Symbol

/-- Neighbours that are equal count once. -/
def dropRepeats {α : Type} [BEq α] : List α → List α
  | [] => []
  | [a] => [a]
  | a :: b :: rest => if a == b then dropRepeats (a :: rest) else a :: dropRepeats (b :: rest)

namespace Snapshot

/-! ## Files and symbols -/

def fileCount (s : Snapshot) : Nat := s.files.size

def entries (s : Snapshot) : List FileEntry := s.files.values

def allSymbols (s : Snapshot) : List Symbol := s.entries.flatMap fun e => e.symbols.symbols

def symbolCount (s : Snapshot) : Nat := s.allSymbols.length

def paths (s : Snapshot) : List Path := s.files.keys

def fingerprint? (s : Snapshot) (path : Path) : Option Fingerprint :=
  (s.file? path).map (·.fingerprint)

def symbolsIn (s : Snapshot) (path : Path) : List Symbol :=
  ((s.file? path).map (·.symbols.symbols)).getD []

def diagnosticsOf? (s : Snapshot) (path : Path) : Option (List Diagnostic) :=
  (s.file? path).map (·.symbols.diagnostics)

def scopesOf (s : Snapshot) (path : Path) : List Scope :=
  ((s.file? path).map (·.symbols.scopes)).getD []

def referenceAt? (s : Snapshot) (path : Path) (offset : Nat) : Option Reference :=
  (s.file? path).bind (·.symbols.referenceAt? offset)

def callAt? (s : Snapshot) (path : Path) (offset : Nat) : Option CallReference :=
  (s.file? path).bind (·.symbols.callAt? offset)

def declarationAt? (s : Snapshot) (path : Path) (offset : Nat) : Option Symbol :=
  (s.file? path).bind (·.symbols.declarationAt? offset)

/-! ## By name -/

def resolve? (s : Snapshot) (ref : SymbolRef) : Option Symbol :=
  (s.file? ref.path).bind fun e => e.symbols.symbols[ref.ordinal.toNat]?

def resolveAll (s : Snapshot) (refs : List SymbolRef) : List Symbol := refs.filterMap s.resolve?

def symbolsByFqn (s : Snapshot) (fqn : String) : List Symbol :=
  s.resolveAll (MultiMap.lookup s.byFqn fqn)

def query (s : Snapshot) (name : String) : List Symbol :=
  let refs := SortedSet.ofList (MultiMap.lookup s.byFqn name ++ MultiMap.lookup s.byName name)
  (s.resolveAll (SortedSet.toList refs)).mergeSort Symbol.byNameAndPlace

def typeExists (s : Snapshot) (fqn : String) : Bool := (s.symbolsByFqn fqn).any Symbol.isType

def typesBySimpleName (s : Snapshot) (name : String) : List Symbol :=
  ((s.resolveAll (MultiMap.lookup s.byName name)).filter Symbol.isType).mergeSort
    Symbol.byNameAndPath

def typesInPackage (s : Snapshot) (package : String) : List Symbol :=
  (((MultiMap.lookup s.packages package).filterMap s.file?).flatMap fun e =>
    e.symbols.types.filter fun t => t.container.isNone).mergeSort Symbol.byNameAndPath

def membersOf (s : Snapshot) (fqn : String) : List Symbol :=
  let files := ((s.symbolsByFqn fqn).filter Symbol.isType).filterMap fun t => s.file? t.path
  let members := files.flatMap fun e =>
    e.symbols.symbols.filter fun m => !m.isType && m.container == some fqn
  dropRepeats (members.mergeSort Symbol.byPlace)

def packageNames (s : Snapshot) : List String := s.packages.keys

def hasPackage (s : Snapshot) (package : String) : Bool := s.packages.contains package

def allTypes (s : Snapshot) : List Symbol :=
  ((SortedSet.toList s.fqnOrder).flatMap s.symbolsByFqn).filter Symbol.isType

def lookup (s : Snapshot) : TypeLookup := ⟨s.typeExists, s.hasPackage⟩

/-! ## Uses and dependents -/

def usages (s : Snapshot) (fqn : String) : List Usage :=
  let places := ((MultiMap.lookup s.referencing fqn).filterMap s.file?).flatMap fun e =>
    (e.symbols.references.filter fun r => r.target == fqn).map fun r => ⟨e.path, r.span⟩
  places.mergeSort fun a b =>
    ((compare a.path b.path).then (compare a.span.start b.span.start)).isLE

def directDependents (s : Snapshot) (path : Path) : List Path :=
  match s.file? path with
  | none => []
  | some e =>
    let users := e.symbols.types.flatMap fun t => MultiMap.lookup s.referencing t.fqn
    SortedSet.toList (SortedSet.ofList (users.filter (· != path)))

/-- The files that depend on `path` through any number of others. -/
def dependents (s : Snapshot) (path : Path) : List Path :=
  let next (p : Path) : List Path := (s.directDependents p).filter (· != path)
  SortedSet.toList (SortedSet.ofList (reachable next (s.fileCount + 1) (s.directDependents path)))

def filesWithUnresolved (s : Snapshot) (names : List String) : List Path :=
  SortedSet.toList (SortedSet.ofList (names.flatMap (MultiMap.lookup s.unresolved)))

/-! ## Hierarchy -/

def subtypesOf (s : Snapshot) (fqn : String) : List String :=
  dropRepeats ((MultiMap.lookup s.subtypes fqn).map (·.name))

def supertypesOf (s : Snapshot) (fqn : String) : List String :=
  dropRepeats ((MultiMap.lookup s.supertypes fqn).map (·.name))

/-- The number of hierarchy edges, which bounds the number of types on a walk along them. -/
def edgeCount (s : Snapshot) : Nat := (s.entries.flatMap fun e => e.symbols.supertypes).length

def allSubtypes (s : Snapshot) (fqn : String) : List String :=
  reachable s.subtypesOf (s.edgeCount + 1) (s.subtypesOf fqn)

end Snapshot

end JavaAtlas
