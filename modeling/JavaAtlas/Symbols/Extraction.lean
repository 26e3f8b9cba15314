import JavaAtlas.Attribution
import JavaAtlas.Symbols.Basic

/-!
# The symbols of a unit

Declarations come out in source order, numbered from zero. Local classes and their members are left
out.
-/

namespace JavaAtlas

set_option autoImplicit false

namespace SourceUnit

def visibleTypes (u : SourceUnit) : List TypeDecl := u.types.filter fun t => !t.isLocal

/-- The innermost visible type at or around an index. -/
def visibleEnclosing? (u : SourceUnit) (index : Option Nat) : Option String :=
  ((u.enclosingTypes index).find? fun e => !e.2.isLocal).map fun e => e.2.fqn

/-- An edge to the supertype as it is written. -/
def writtenSupertype (u : SourceUnit) (t : TypeDecl) (ref : Nat) : SupertypeEdge :=
  ⟨t.fqn, ((u.typeRefs[ref]?).map (·.name)).getD "", false⟩

end SourceUnit

def TypeDecl.signature (t : TypeDecl) : String :=
  let head := t.kind.keyword ++ " " ++ t.name
  if t.typeParams.isEmpty then head else head ++ "<" ++ ", ".intercalate t.typeParams ++ ">"

def MemberKind.symbolKind : MemberKind → SymbolKind
  | .method => .method
  | .constructor => .constructor
  | .field => .field
  | .enumConstant => .enumConstant

namespace Extraction

def typeSymbol (u : SourceUnit) (t : TypeDecl) : Symbol where
  fqn := t.fqn
  name := t.name
  kind := .type
  typeKind := some t.kind
  path := u.path
  span := t.span
  nameSpan := t.nameSpan
  signature := t.signature
  container := t.parent.bind fun p => (u.types[p]?).map (·.fqn)
  ordinal := 0

def memberSymbol (u : SourceUnit) (t : TypeDecl) (m : MemberDecl) : Symbol where
  fqn := t.fqn ++ "." ++ m.name
  name := m.name
  kind := m.kind.symbolKind
  typeKind := none
  path := u.path
  span := m.span
  nameSpan := m.nameSpan
  signature := m.signature
  container := some t.fqn
  ordinal := 0

/-- A visible type followed by its members. -/
def symbolsOf (u : SourceUnit) (t : TypeDecl) : List Symbol :=
  typeSymbol u t :: t.members.map (memberSymbol u t)

/-- Positions as ordinals; one that does not fit 32 bits becomes the largest that does. -/
def ordinalOf (i : Nat) : UInt32 := UInt32.ofNat (min i 4294967295)

def declarations (u : SourceUnit) : List Symbol :=
  let symbols := u.visibleTypes.flatMap (symbolsOf u)
  let sorted := symbols.mergeSort fun a b => a.nameSpan.start ≤ b.nameSpan.start
  sorted.zipIdx.map fun e => { e.1 with ordinal := ordinalOf e.2 }

def calls (u : SourceUnit) : List CallReference :=
  u.calls.map fun c => ⟨c.name, c.nameSpan, u.visibleEnclosing? c.enclosing⟩

def ofSource (u : SourceUnit) : FileSymbols where
  package := u.package
  symbols := declarations u
  calls := calls u
  supertypes := u.visibleTypes.flatMap fun t => t.supertypes.map (u.writtenSupertype t)
  scopes := u.scopes
  diagnostics := u.diagnostics

def ofAttributed (a : AttributedUnit) : FileSymbols where
  package := a.source.package
  symbols := declarations a.source
  references := a.boundRefs.map fun e => ⟨e.2, e.1.span⟩
  calls := calls a.source
  unresolved := SortedSet.toList a.unresolvedNames
  supertypes := a.source.visibleTypes.flatMap fun t =>
    t.supertypes.map fun ref =>
      match (a.resolution ref).fqn? with
      | some fqn => ⟨t.fqn, fqn, true⟩
      | none => a.source.writtenSupertype t ref
  scopes := a.source.scopes
  diagnostics := a.allDiagnostics
  attributed := true

end Extraction

end JavaAtlas
