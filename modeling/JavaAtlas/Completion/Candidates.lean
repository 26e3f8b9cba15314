import JavaAtlas.Completion.Context
import JavaAtlas.Completion.Site
import JavaAtlas.Index.Hierarchy
import JavaAtlas.Naming

/-!
# Completion candidates
-/

namespace JavaAtlas

set_option autoImplicit false

inductive CompletionKind
  | field
  | enumConstant
  | method
  | type
  | package
  | keyword
deriving DecidableEq

instance : Named CompletionKind where
  all := [.field, .enumConstant, .method, .type, .package, .keyword]
  name
    | .field => "Field"
    | .enumConstant => "EnumConstant"
    | .method => "Method"
    | .type => "Type"
    | .package => "Package"
    | .keyword => "Keyword"

def CompletionKind.rank : CompletionKind → Nat
  | .field => 0
  | .enumConstant => 1
  | .method => 2
  | .type => 3
  | .package => 4
  | .keyword => 5

/-- Something that could be completed: members show their signature, types and packages their full
name. -/
structure Candidate where
  label : String
  kind : CompletionKind
  detail : Option String
deriving DecidableEq

structure CompletionRequest where
  snapshot : Snapshot
  classpath : ClasspathIndex
  path : Path
  offset : Nat
  typed : String
  /-- The current text of the file. -/
  text : Option String

namespace CompletionRequest

def lookup (r : CompletionRequest) : TypeLookup := r.snapshot.lookup.or r.classpath.lookup

def package? (r : CompletionRequest) : Option String :=
  (r.snapshot.file? r.path).bind (·.symbols.package)

def enclosing? (r : CompletionRequest) : Option Symbol := r.snapshot.enclosingType? r.path r.offset

def visibleMembers (r : CompletionRequest) : List Symbol := r.snapshot.visibleMembers r.path r.offset

/-! ## Types of receivers -/

/-- The type that `written` names: one of the project, of the same package if possible, then one
that is always in scope, then one of the classpath. -/
def resolveTypeName? (r : CompletionRequest) (written : String) : Option String :=
  let base := written.toList.takeWhile fun c => c != '<' && c != '['
  let name := String.ofList (Text.trim base)
  if name = "" then none
  else if name.toList.contains '.' then if r.lookup.hasType name then some name else none
  else
    let project := r.snapshot.typesBySimpleName name
    let samePackage := project.find? fun t => Text.ownerOf? t.fqn == r.package?
    let builtin := "java.lang." ++ name
    match samePackage.or project.head? with
    | some t => some t.fqn
    | none =>
      if r.classpath.hasType builtin then some builtin
      else r.classpath.typeNames.find? fun fqn => Text.lastSegment fqn == name

/-- What follows the first colon and space of a signature. -/
def writtenType? : List Char → Option String
  | ':' :: ' ' :: rest => some (String.ofList rest)
  | _ :: rest => writtenType? rest
  | [] => none

def fieldType? (r : CompletionRequest) (field : Symbol) : Option String :=
  let inFront := ((r.snapshot.file? field.path).map fun e =>
    e.symbols.references.filter fun ref =>
      field.span.covers ref.span && ref.span.stop ≤ field.nameSpan.start).getD []
  let first := inFront.foldl
    (fun best ref =>
      match best with
      | none => some ref
      | some (b : Reference) => if ref.span.start < b.span.start then some ref else some b)
    none
  match first with
  | some ref => some ref.target
  | none => (writtenType? field.signature.toList).bind r.resolveTypeName?

def fieldNamed? (name : String) (members : List Symbol) : Option Symbol :=
  members.find? fun m => m.kind == .field && m.name == name

def receiverType? (r : CompletionRequest) (head name : String) : Option String :=
  if name = "this" then r.enclosing?.map (·.fqn)
  else if name = "super" then r.enclosing?.bind fun t => (r.snapshot.supertypesOf t.fqn).head?
  else
    match localDeclaration? head name with
    | some (offset, type) =>
      match r.snapshot.referenceAt? r.path offset with
      | some reference => some reference.target
      | none => r.resolveTypeName? type
    | none =>
      match fieldNamed? name r.visibleMembers with
      | some field => r.fieldType? field
      | none => r.resolveTypeName? name

def followFields? (r : CompletionRequest) : String → List String → Option String
  | owner, [] => some owner
  | owner, name :: rest => do
    let field ← fieldNamed? name (r.snapshot.membersUpward [owner])
    let next ← r.fieldType? field
    followFields? r next rest

/-- The longest run of at least two leading segments that names a type, and the segments left. -/
def qualifiedType? (r : CompletionRequest) (segments : List String) : Option (String × List String) :=
  let lengths := ((List.range (segments.length + 1)).drop 2).reverse
  lengths.findSome? fun n =>
    let name := ".".intercalate (segments.take n)
    if r.lookup.hasType name then some (name, segments.drop n) else none

def chainType? (r : CompletionRequest) (head chain : String) : Option String :=
  let segments := Text.segments chain
  if segments.contains "" then none
  else
    match r.qualifiedType? segments, segments with
    | some (owner, rest), _ => r.followFields? owner rest
    | none, [] => none
    | none, first :: rest => (r.receiverType? head first).bind fun owner => r.followFields? owner rest

/-! ## Candidates -/

def memberCandidate? (m : Symbol) : Option Candidate :=
  match m.kind with
  | .method => some ⟨m.name, .method, some m.signature⟩
  | .field => some ⟨m.name, .field, some m.signature⟩
  | .enumConstant => some ⟨m.name, .enumConstant, some m.signature⟩
  | .constructor | .type => none

def typeCandidate (t : Symbol) : Candidate := ⟨t.name, .type, some t.fqn⟩

def externalCandidate (fqn : String) : Candidate := ⟨Text.lastSegment fqn, .type, some fqn⟩

/-- Keywords, visible members and every type. -/
def freeCandidates (r : CompletionRequest) : List Candidate :=
  let context := CompletionContext.around (r.snapshot.scopesOf r.path) r.offset
  let package : List Candidate :=
    if context = .topLevel && r.package?.isNone then [⟨"package", .keyword, none⟩] else []
  let members := if context = .topLevel then [] else r.visibleMembers.filterMap memberCandidate?
  package ++ (context.keywords.map fun k => ⟨k, .keyword, none⟩) ++ members ++
    r.snapshot.allTypes.map typeCandidate ++ r.classpath.typeNames.map externalCandidate

/-- The packages of the project, and what precedes the last dot of each type of the classpath. -/
def knownPackages (r : CompletionRequest) : List String :=
  SortedSet.toList
    (SortedSet.ofList (r.snapshot.packageNames ++ r.classpath.typeNames.filterMap Text.ownerOf?))

/-- What follows `parent` and a dot in `package`. -/
def below? (parent package : String) : Option String :=
  if parent = "" then some package
  else (Text.stripPrefix? (parent ++ ".").toList package.toList).map String.ofList

def packageCandidate? (parent package : String) : Option Candidate := do
  let rest ← below? parent package
  let segment ← (Text.segments rest).head?
  if segment = "" then none
  else some ⟨segment, .package, some (if parent = "" then segment else parent ++ "." ++ segment)⟩

def typesOfPackage (r : CompletionRequest) (package : String) : List Candidate :=
  (r.snapshot.typesInPackage package).map typeCandidate ++
    (r.classpath.typeNames.filter fun fqn => Text.ownerOf? fqn == some package).map externalCandidate

/-- The packages below `parent`, with its types if they count. -/
def packageCandidates (r : CompletionRequest) (parent : String) (types : Bool) : List Candidate :=
  r.knownPackages.filterMap (packageCandidate? parent) ++
    if types && parent ≠ "" then r.typesOfPackage parent else []

/-- `name` is a package, or there is one below it. -/
def isPackage (r : CompletionRequest) (name : String) : Bool :=
  r.knownPackages.any fun package => package == name || Text.startsWith (name ++ ".") package

def selectCandidates (r : CompletionRequest) (head chain : String) : List Candidate :=
  if chain = "" then []
  else
    match r.chainType? head chain with
    | none => if r.isPackage chain then r.packageCandidates chain true else []
    | some owner =>
      (r.snapshot.membersUpward [owner]).filterMap memberCandidate? ++
        (r.snapshot.allTypes.filter fun t => t.container == some owner).map typeCandidate

def candidates (r : CompletionRequest) : List Candidate :=
  match (r.text.map fun text => Site.classify text r.offset r.typed).getD .free with
  | .free => r.freeCandidates
  | .statement parent types => r.packageCandidates parent types
  | .select head chain => r.selectCandidates head chain

end CompletionRequest

end JavaAtlas
