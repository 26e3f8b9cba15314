import JavaAtlas.Classpath.Basic
import JavaAtlas.Unit.Basic

/-!
# Binding type names

Every type reference of a unit is bound to the type it names, in the order of the language's scopes:
type parameters, enclosing types with their member types, the types of the file, single imports, the
package, on-demand imports, and last the types that are always in scope. What is not found is listed
by name and reported once per place, and never stops the rest.
-/

namespace JavaAtlas

set_option autoImplicit false

inductive Resolution
  /-- A type of the project or the classpath, by name. -/
  | named (fqn : String)
  /-- A local class of the file, by index. -/
  | localType (index : Nat)
  | typeParameter
  /-- The type is left to inference, so nothing is referred to. -/
  | inferred
  | unresolved
deriving DecidableEq

def Resolution.fqn? : Resolution → Option String
  | .named fqn => some fqn
  | _ => none

/-- A unit whose references are bound, one resolution per reference and one flag per import. -/
structure AttributedUnit where
  source : SourceUnit
  resolutions : List Resolution
  importsFound : List Bool
  /-- The simple names, and the packages imported on demand, that could not be bound. -/
  unresolvedNames : SortedSet String
  diagnostics : List Diagnostic

namespace Attribution

variable (u : SourceUnit) (ctx : TypeLookup)

def known (fqn : String) : Bool := (u.typeByFqn? fqn).isSome || ctx.hasType fqn

def importExists (i : Import) : Bool :=
  if i.onDemand then known u ctx i.path || ctx.hasPackage i.path
  else known u ctx i.path || (i.isStatic && (Text.ownerOf? i.path).any (known u ctx))

/-- The name by which a failed import is retried. -/
def retryName (i : Import) : String := if i.onDemand then i.path else Text.lastSegment i.path

/-- The type that a single import brings in under `name`; of several the first. -/
def singleImport? (name : String) : Option String :=
  (u.imports.find? fun i =>
    !i.onDemand && known u ctx i.path && Text.lastSegment i.path == name).map (·.path)

def declared (index : Nat) (t : TypeDecl) : Resolution :=
  if t.isLocal then .localType index else .named t.fqn

/-- The binding that type number `index` around a reference gives to `name`: itself, a type declared
in it, or a member type known from elsewhere. -/
def fromEnclosing? (name : String) (index : Nat) (t : TypeDecl) : Option Resolution :=
  if t.name == name then some (declared index t)
  else
    match u.types.findIdx? fun m => m.parent == some index && m.name == name with
    | some i => (u.types[i]?).map (declared i)
    | none =>
      if !t.isLocal && ctx.hasType (t.fqn ++ "." ++ name) then some (.named (t.fqn ++ "." ++ name))
      else none

def isTypeParameter (name : String) (offset : Nat) : Bool :=
  u.typeParams.any fun p => p.name == name && p.scope.contains offset

def onDemandImport? (name : String) : Option String :=
  ((u.imports.filter (·.onDemand)).map fun i => i.path ++ "." ++ name).find? (known u ctx)

def resolveSimple (name : String) (offset : Nat) (enclosing : Option Nat) : Option Resolution :=
  if isTypeParameter u name offset then some .typeParameter
  else
    let outer := (u.enclosingTypes enclosing).findSome? fun e => fromEnclosing? u ctx name e.1 e.2
    let top := ((u.childTypes none).find? fun t => t.name == name).map (·.fqn)
    let samePackage := u.qualify name
    let builtin := "java.lang." ++ name
    outer.or <| Option.map Resolution.named <|
      top.or <| (singleImport? u ctx name).or <|
        (if known u ctx samePackage then some samePackage else none).or <|
          (onDemandImport? u ctx name).or <|
            if ctx.hasType builtin then some builtin else none

/-- The binding of a reference. A dotted name is taken as a whole, else its first segment is bound
and the rest looked up in it. -/
def resolve (r : TypeRef) : Resolution :=
  if r.name = "var" then .inferred
  else if !r.isQualified then
    (resolveSimple u ctx r.name r.span.start r.enclosing).getD .unresolved
  else if known u ctx r.name then .named r.name
  else
    match Text.splitFirst? '.' r.name with
    | none => .unresolved
    | some (head, rest) =>
      match resolveSimple u ctx head r.span.start r.enclosing with
      | some (.named outer) =>
        if known u ctx (outer ++ "." ++ rest) then .named (outer ++ "." ++ rest) else .unresolved
      | _ => .unresolved

end Attribution

open Attribution in
def SourceUnit.bindTypes (u : SourceUnit) (ctx : TypeLookup) : AttributedUnit :=
  let resolutions := u.typeRefs.map (resolve u ctx)
  let missingImports := u.imports.filter fun i => !importExists u ctx i
  let missingRefs := u.typeRefs.filter fun r => resolve u ctx r = .unresolved
  { source := u
    resolutions := resolutions
    importsFound := u.imports.map (importExists u ctx)
    unresolvedNames := SortedSet.ofList
      (missingImports.map retryName ++ missingRefs.map TypeRef.simpleName)
    diagnostics := Diagnostic.sortByPosition
      ((missingImports.map fun i => .unresolvedSymbol i.span i.path) ++
        missingRefs.map fun r => .unresolvedSymbol r.span r.name) }

namespace AttributedUnit

def resolution (a : AttributedUnit) (index : Nat) : Resolution :=
  (a.resolutions[index]?).getD .unresolved

def boundRefs (a : AttributedUnit) : List (TypeRef × String) :=
  (a.source.typeRefs.zip a.resolutions).filterMap fun e => e.2.fqn?.map fun fqn => (e.1, fqn)

/-- Syntax errors and unbound names by position. -/
def allDiagnostics (a : AttributedUnit) : List Diagnostic :=
  Diagnostic.sortByPosition (a.source.diagnostics ++ a.diagnostics)

def isFullyResolved (a : AttributedUnit) : Bool := a.diagnostics.isEmpty

end AttributedUnit

end JavaAtlas
