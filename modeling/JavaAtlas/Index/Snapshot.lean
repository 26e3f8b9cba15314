import JavaAtlas.Symbols.Basic

/-!
# The index of all files

A snapshot holds the symbols of every file and the maps that answer queries by name. The maps follow
from the files: each entry in them comes from some file, and adding or removing a file adds or
removes exactly what that file contributes.
-/

namespace JavaAtlas

set_option autoImplicit false

open Std (TransOrd TransCmp)

structure FileEntry where
  path : Path
  fingerprint : Fingerprint
  symbols : FileSymbols

/-- The place of a symbol: its file, then its position there. -/
structure SymbolRef where
  path : Path
  ordinal : UInt32

namespace SymbolRef

instance : Ord SymbolRef := ⟨compareLex (compareOn path) (compareOn ordinal)⟩

instance : TransOrd SymbolRef :=
  inferInstanceAs (TransCmp (compareLex (compareOn path) (compareOn ordinal)))

end SymbolRef

/-- The other end of a hierarchy edge, and the file that declares it. -/
structure EdgeEnd where
  name : String
  path : Path

namespace EdgeEnd

instance : Ord EdgeEnd := ⟨compareLex (compareOn name) (compareOn path)⟩

instance : TransOrd EdgeEnd :=
  inferInstanceAs (TransCmp (compareLex (compareOn name) (compareOn path)))

end EdgeEnd

structure Snapshot where
  /-- The number of changes so far. -/
  generation : Nat := 0
  files : SortedMap Path FileEntry := ∅
  byFqn : MultiMap String SymbolRef := ∅
  byName : MultiMap String SymbolRef := ∅
  /-- The names in `byFqn`, for scans in order. -/
  fqnOrder : SortedSet String := ∅
  packages : MultiMap String Path := ∅
  /-- The files that refer to a type. -/
  referencing : MultiMap String Path := ∅
  /-- The files that failed on a name. -/
  unresolved : MultiMap String Path := ∅
  subtypes : MultiMap String EdgeEnd := ∅
  supertypes : MultiMap String EdgeEnd := ∅

namespace Snapshot

instance : Inhabited Snapshot := ⟨{}⟩

def empty : Snapshot := {}

def file? (s : Snapshot) (path : Path) : Option FileEntry := s.files.get? path

/-! ## One contribution at a time -/

def addSymbol (path : Path) (s : Snapshot) (symbol : Symbol) : Snapshot :=
  let ref : SymbolRef := ⟨path, symbol.ordinal⟩
  { s with
    byFqn := MultiMap.link s.byFqn symbol.fqn ref
    byName := MultiMap.link s.byName symbol.name ref
    fqnOrder := s.fqnOrder.insert symbol.fqn () }

def dropSymbol (path : Path) (s : Snapshot) (symbol : Symbol) : Snapshot :=
  let ref : SymbolRef := ⟨path, symbol.ordinal⟩
  let byFqn := MultiMap.unlink s.byFqn symbol.fqn ref
  { s with
    byFqn := byFqn
    byName := MultiMap.unlink s.byName symbol.name ref
    fqnOrder := if byFqn.contains symbol.fqn then s.fqnOrder else s.fqnOrder.erase symbol.fqn }

def addPackage (path : Path) (s : Snapshot) (package : String) : Snapshot :=
  { s with packages := MultiMap.link s.packages package path }

def dropPackage (path : Path) (s : Snapshot) (package : String) : Snapshot :=
  { s with packages := MultiMap.unlink s.packages package path }

def addReference (path : Path) (s : Snapshot) (r : Reference) : Snapshot :=
  { s with referencing := MultiMap.link s.referencing r.target path }

def dropReference (path : Path) (s : Snapshot) (r : Reference) : Snapshot :=
  { s with referencing := MultiMap.unlink s.referencing r.target path }

def addUnresolved (path : Path) (s : Snapshot) (name : String) : Snapshot :=
  { s with unresolved := MultiMap.link s.unresolved name path }

def dropUnresolved (path : Path) (s : Snapshot) (name : String) : Snapshot :=
  { s with unresolved := MultiMap.unlink s.unresolved name path }

def addEdge (path : Path) (s : Snapshot) (e : SupertypeEdge) : Snapshot :=
  { s with
    subtypes := MultiMap.link s.subtypes e.supertype ⟨e.subtype, path⟩
    supertypes := MultiMap.link s.supertypes e.subtype ⟨e.supertype, path⟩ }

def dropEdge (path : Path) (s : Snapshot) (e : SupertypeEdge) : Snapshot :=
  { s with
    subtypes := MultiMap.unlink s.subtypes e.supertype ⟨e.subtype, path⟩
    supertypes := MultiMap.unlink s.supertypes e.subtype ⟨e.supertype, path⟩ }

/-! ## Whole files -/

def insertFile (s : Snapshot) (entry : FileEntry) : Snapshot :=
  let f := entry.symbols
  let s := f.symbols.foldl (addSymbol entry.path) s
  let s := f.package.toList.foldl (addPackage entry.path) s
  let s := f.references.foldl (addReference entry.path) s
  let s := f.unresolved.foldl (addUnresolved entry.path) s
  let s := f.supertypes.foldl (addEdge entry.path) s
  { s with files := s.files.insert entry.path entry }

def removeFile (s : Snapshot) (path : Path) : Snapshot :=
  match s.files.get? path with
  | none => s
  | some entry =>
    let f := entry.symbols
    let s := { s with files := s.files.erase path }
    let s := f.symbols.foldl (dropSymbol entry.path) s
    let s := f.package.toList.foldl (dropPackage entry.path) s
    let s := f.references.foldl (dropReference entry.path) s
    let s := f.unresolved.foldl (dropUnresolved entry.path) s
    f.supertypes.foldl (dropEdge entry.path) s

end Snapshot

end JavaAtlas
