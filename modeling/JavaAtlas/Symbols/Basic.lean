import JavaAtlas.Data.SortedSet
import JavaAtlas.Naming
import JavaAtlas.Unit.Basic

/-!
# Symbols of a file

What is kept about one file: its declarations in order, the types it refers to, its calls, the names
that could not be bound and the edges of its type hierarchy.
-/

namespace JavaAtlas

set_option autoImplicit false

open Std (TransOrd TransCmp)

inductive SymbolKind
  | type
  | method
  | constructor
  | field
  | enumConstant
deriving DecidableEq

instance : Named SymbolKind where
  all := [.type, .method, .constructor, .field, .enumConstant]
  name
    | .type => "type"
    | .method => "method"
    | .constructor => "constructor"
    | .field => "field"
    | .enumConstant => "enum_constant"

structure Symbol where
  /-- Members are named by their type and their own name, so overloads share it. -/
  fqn : String
  name : String
  kind : SymbolKind
  /-- Set for types only. -/
  typeKind : Option TypeKind
  path : Path
  span : Span
  nameSpan : Span
  signature : String
  /-- The name of the declaring type. -/
  container : Option String
  /-- The position among the declarations of the file. -/
  ordinal : UInt32
deriving BEq

def Symbol.isType (s : Symbol) : Bool := s.kind == .type

structure Reference where
  target : String
  span : Span
deriving DecidableEq

structure CallReference where
  name : String
  span : Span
  /-- The innermost visible type around the call. -/
  enclosing : Option String
deriving DecidableEq

structure SupertypeEdge where
  subtype : String
  /-- The bound name, or the name as written when it could not be bound. -/
  supertype : String
  resolved : Bool
deriving DecidableEq

structure FileSymbols where
  package : Option String := none
  symbols : List Symbol := []
  references : List Reference := []
  calls : List CallReference := []
  /-- Names that could not be bound; the file is tried again when one of them appears. -/
  unresolved : List String := []
  supertypes : List SupertypeEdge := []
  scopes : List Scope := []
  diagnostics : List Diagnostic := []
  /-- References were bound, rather than the syntax alone read. -/
  attributed : Bool := false
deriving BEq

structure ApiItem where
  fqn : String
  kind : Nat
  signature : String
deriving DecidableEq

namespace ApiItem

instance : Ord ApiItem :=
  ⟨compareLex (compareOn fqn) (compareLex (compareOn kind) (compareOn signature))⟩

instance : TransOrd ApiItem :=
  inferInstanceAs
    (TransCmp (compareLex (compareOn fqn) (compareLex (compareOn kind) (compareOn signature))))

end ApiItem

def SymbolKind.rank : SymbolKind → Nat
  | .type => 0
  | .method => 1
  | .constructor => 2
  | .field => 3
  | .enumConstant => 4

namespace FileSymbols

instance : Inhabited FileSymbols := ⟨{}⟩

def types (f : FileSymbols) : List Symbol := f.symbols.filter Symbol.isType

def referenceAt? (f : FileSymbols) (offset : Nat) : Option Reference :=
  f.references.find? fun r => r.span.touches offset

def callAt? (f : FileSymbols) (offset : Nat) : Option CallReference :=
  f.calls.find? fun c => c.span.touches offset

def declarationAt? (f : FileSymbols) (offset : Nat) : Option Symbol :=
  f.symbols.find? fun s => s.nameSpan.touches offset

/-- What other files can observe: the declarations and the hierarchy, not their positions. -/
def api (f : FileSymbols) : SortedSet ApiItem :=
  SortedSet.ofList
    ((f.symbols.map fun s => ⟨s.fqn, s.kind.rank, s.signature⟩) ++
      (f.supertypes.map fun e => ⟨e.subtype, SymbolKind.type.rank, e.supertype⟩))

end FileSymbols

end JavaAtlas
