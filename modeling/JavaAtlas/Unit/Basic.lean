import JavaAtlas.Diagnostic
import JavaAtlas.Digest.Fingerprint
import JavaAtlas.Naming
import JavaAtlas.Project

/-!
# What a source file declares and mentions

A `SourceUnit` lists the declarations, references, calls and scopes of one file. Nested types are
separate entries linked by the index of their parent. A unit exists for every text: what could not
be read shows up in its diagnostics.
-/

namespace JavaAtlas

set_option autoImplicit false

inductive TypeKind
  | classType
  | interfaceType
  | enumType
  | recordType
  | annotationType
deriving DecidableEq

instance : Named TypeKind where
  all := [.classType, .interfaceType, .enumType, .recordType, .annotationType]
  name
    | .classType => "Class"
    | .interfaceType => "Interface"
    | .enumType => "Enum"
    | .recordType => "Record"
    | .annotationType => "Annotation"

def TypeKind.keyword : TypeKind → String
  | .classType => "class"
  | .interfaceType => "interface"
  | .enumType => "enum"
  | .recordType => "record"
  | .annotationType => "@interface"

inductive MemberKind
  | method
  | constructor
  | field
  | enumConstant
deriving DecidableEq

instance : Named MemberKind where
  all := [.method, .constructor, .field, .enumConstant]
  name
    | .method => "Method"
    | .constructor => "Constructor"
    | .field => "Field"
    | .enumConstant => "EnumConstant"

structure MemberDecl where
  name : String
  kind : MemberKind
  span : Span
  nameSpan : Span
  /-- `name(params): result` for methods, `Name(params)` for constructors, `name: Type` for fields
  and the bare name for enum constants. -/
  signature : String
  modifiers : List String
deriving DecidableEq

structure TypeDecl where
  name : String
  /-- The package and the names of the enclosing types, then the name, joined with dots. -/
  fqn : String
  kind : TypeKind
  span : Span
  nameSpan : Span
  /-- The index of the type around it. -/
  parent : Option Nat
  /-- Declared inside code, so not visible outside it. -/
  isLocal : Bool
  modifiers : List String
  typeParams : List String
  /-- The indices of the references in its `extends` and `implements` clauses. -/
  supertypes : List Nat
  members : List MemberDecl
deriving DecidableEq

structure Import where
  /-- The dotted name without a trailing `.*`. -/
  path : String
  isStatic : Bool
  onDemand : Bool
  span : Span
deriving DecidableEq

/-- A type name as written, with or without dots. -/
structure TypeRef where
  name : String
  span : Span
  /-- The innermost type whose body holds the reference. -/
  enclosing : Option Nat
deriving DecidableEq

namespace TypeRef

def isQualified (r : TypeRef) : Bool := r.name.toList.contains '.'

def simpleName (r : TypeRef) : String := Text.lastSegment r.name

end TypeRef

/-- A method call, with the text of the expression before the dot. -/
structure CallSite where
  name : String
  nameSpan : Span
  receiver : Option String
  enclosing : Option Nat
deriving DecidableEq

inductive ScopeKind
  /-- The body of a type. -/
  | typeBody
  /-- A body of code. -/
  | block
deriving DecidableEq

instance : Named ScopeKind where
  all := [.typeBody, .block]
  name
    | .typeBody => "TypeBody"
    | .block => "Block"

structure Scope where
  kind : ScopeKind
  span : Span
deriving DecidableEq

/-- The shortest scope whose braces strictly enclose `offset`, the first of equally short ones. -/
def innermostScope (scopes : List Scope) (offset : Nat) : Option Scope :=
  (scopes.filter fun s => s.span.encloses offset).foldl
    (fun best s =>
      match best with
      | none => some s
      | some b => if s.span.length < b.span.length then some s else some b)
    none

structure TypeParam where
  scope : Span
  name : String
deriving DecidableEq

structure SourceUnit where
  path : Path := ⟨""⟩
  fingerprint : Fingerprint := default
  languageLevel : LanguageLevel := {}
  package : Option String := none
  imports : List Import := []
  types : List TypeDecl := []
  typeRefs : List TypeRef := []
  calls : List CallSite := []
  scopes : List Scope := []
  typeParams : List TypeParam := []
  diagnostics : List Diagnostic := []

namespace SourceUnit

instance : Inhabited SourceUnit := ⟨{}⟩

def hasErrors (u : SourceUnit) : Bool := !u.diagnostics.isEmpty

def qualify (u : SourceUnit) (name : String) : String :=
  match u.package with
  | some package => package ++ "." ++ name
  | none => name

def typeByFqn? (u : SourceUnit) (fqn : String) : Option TypeDecl :=
  u.types.find? fun t => !t.isLocal && t.fqn == fqn

def childTypes (u : SourceUnit) (parent : Option Nat) : List TypeDecl :=
  u.types.filter fun t => !t.isLocal && t.parent == parent

/-- At most `fuel` types around and including `current`, the innermost first. -/
def enclosingFrom (u : SourceUnit) : Nat → Option Nat → List (Nat × TypeDecl)
  | 0, _ => []
  | _, none => []
  | fuel + 1, some i =>
    match u.types[i]? with
    | none => []
    | some t => (i, t) :: enclosingFrom u fuel t.parent

/-- The types around and including `current`, the innermost first. A parent stands before its
children in the list of types, so there are no more of them than types. -/
def enclosingTypes (u : SourceUnit) (current : Option Nat) : List (Nat × TypeDecl) :=
  u.enclosingFrom u.types.length current

end SourceUnit

end JavaAtlas
