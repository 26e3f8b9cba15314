import JavaAtlas.Java.Tree
import JavaAtlas.Text.Blank
import JavaAtlas.Text.Identifier
import JavaAtlas.Unit.Basic

/-!
# From a tree to the unit it declares

The tree is visited once, from left to right. What a visit does with a node depends on the node and
on the `Visit` it was planned as: most nodes are visited plainly, the parts of a declaration in the
way that suits their role. Each visit only appends to the unit, apart from members, type parameters
and supertypes, which go to the entry of the type that owns them.
-/

namespace JavaAtlas.Java

set_option autoImplicit false

structure Context where
  /-- The innermost type around the node. -/
  enclosing : Option Nat := none
  /-- The type whose body the node stands in directly. -/
  memberOwner : Option Nat := none
  inBlock : Bool := false

/-- Inside something that owns no members. -/
def Context.unowned (c : Context) : Context := { c with memberOwner := none }

inductive Visit
  | skip
  | plain (c : Context)
  /-- The body of a type. -/
  | body (c : Context)
  /-- A list of type parameters that are known in `scope`. -/
  | typeParams (scope : Span) (owner : Option Nat) (c : Context)
  | typeParam (scope : Span) (owner : Option Nat) (c : Context)
  /-- An `extends` or `implements` clause, or the list in one. -/
  | superClause (owner : Nat) (c : Context)
  /-- The components of a record. -/
  | components (owner : Nat) (c : Context)
  | component (owner : Nat) (c : Context)
  /-- The type arguments inside a dotted type name. -/
  | argumentsWithin (c : Context)

def typeKind? : Phrase → Option TypeKind
  | .classDeclaration => some .classType
  | .interfaceDeclaration => some .interfaceType
  | .enumDeclaration => some .enumType
  | .recordDeclaration => some .recordType
  | .annotationTypeDeclaration => some .annotationType
  | _ => none

def bodies : List Phrase := [.classBody, .interfaceBody, .enumBody, .annotationTypeBody]

def Tree.textIn (text : String) (t : Tree) : String := Text.slice text t.span.start t.span.stop

def Tree.lineIn (text : String) (t : Tree) : String := Text.collapse (t.textIn text)

def Tree.namedChildOf? (t : Tree) (ps : List Phrase) : Option Tree :=
  t.namedChildren.find? fun c => ps.any c.is

def modifiersOf (text : String) (t : Tree) : List String :=
  match t.namedChildOf? [.modifiers] with
  | none => []
  | some m => (m.children.filter fun c => !c.isNamed).map (Tree.textIn text)

/-- The written parameter types of a method or constructor. -/
def parameterTypes (text : String) (t : Tree) : List String :=
  match t.childInRole? .parameters with
  | none => []
  | some params =>
    params.namedChildren.filterMap fun p =>
      if p.is .formalParameter then (p.childInRole? .type).map (Tree.lineIn text)
      else if p.is .spreadParameter then
        (p.namedChildren.find? fun c => !c.is .modifiers).map fun c => c.lineIn text ++ "..."
      else none

mutual

/-- The dotted name of a type, its type arguments left out. -/
def typeName? (text : String) : Tree → Option String
  | .node l children =>
    if l.kind = .phrase .typeIdentifier then some ((Tree.node l children).textIn text)
    else if l.kind = .phrase .scopedTypeIdentifier then
      match typeNameParts? text children with
      | none | some [] => none
      | some parts => some (".".intercalate parts)
    else if l.kind = .phrase .genericType then genericBase? text children
    else none

/-- The names of the parts of a dotted type. -/
def typeNameParts? (text : String) : List Tree → Option (List String)
  | [] => some []
  | t :: rest =>
    if [Phrase.typeIdentifier, .scopedTypeIdentifier, .genericType].any t.is then
      match typeName? text t, typeNameParts? text rest with
      | some part, some parts => some (part :: parts)
      | _, _ => none
    else typeNameParts? text rest

/-- The name of the type in front of type arguments. -/
def genericBase? (text : String) : List Tree → Option String
  | [] => none
  | t :: rest =>
    if [Phrase.typeIdentifier, .scopedTypeIdentifier].any t.is then typeName? text t
    else genericBase? text rest

end

end JavaAtlas.Java

namespace JavaAtlas.SourceUnit

open Java

def pushScope (u : SourceUnit) (kind : ScopeKind) (span : Span) : SourceUnit :=
  { u with scopes := u.scopes ++ [⟨kind, span⟩] }

def pushRef (u : SourceUnit) (name : String) (span : Span) (c : Context) : SourceUnit :=
  if name = "" then u else { u with typeRefs := u.typeRefs ++ [⟨name, span, c.enclosing⟩] }

def modifyType (u : SourceUnit) (i : Nat) (f : TypeDecl → TypeDecl) : SourceUnit :=
  { u with types := u.types.modify i f }

def pushMember (u : SourceUnit) (owner : Nat) (m : MemberDecl) : SourceUnit :=
  u.modifyType owner fun t => { t with members := t.members ++ [m] }

def declare (u : SourceUnit) (c : Context) (name : String) (kind : TypeKind) (span nameSpan : Span)
    (modifiers : List String) : TypeDecl :=
  let parent := c.enclosing.bind fun i => u.types[i]?
  { name := name
    fqn := match parent with
      | some p => p.fqn ++ "." ++ name
      | none => u.qualify name
    kind := kind
    span := span
    nameSpan := nameSpan
    parent := c.enclosing
    isLocal := c.inBlock || parent.any (·.isLocal)
    modifiers := modifiers
    typeParams := []
    supertypes := []
    members := [] }

/-- Notes that the reference at index `before` names a supertype of `owner`, if a visit added one. -/
def noteSupertype (owner : Nat) (before after : SourceUnit) : SourceUnit :=
  if before.typeRefs.length < after.typeRefs.length then
    after.modifyType owner fun t => { t with supertypes := t.supertypes ++ [before.typeRefs.length] }
  else after

end JavaAtlas.SourceUnit

namespace JavaAtlas.Java

open SourceUnit (noteSupertype)

def membersOf (text : String) (t : Tree) : List MemberDecl :=
  let typeText := ((t.childInRole? .type).map (Tree.lineIn text)).getD ""
  let modifiers := modifiersOf text t
  let parameters := ", ".intercalate (parameterTypes text t)
  let ofName (kind : MemberKind) (signature : String → String) (modifiers : List String) :
      List MemberDecl :=
    match t.childInRole? .name with
    | none => []
    | some n =>
      let name := n.textIn text
      [⟨name, kind, t.span, n.span, signature name, modifiers⟩]
  match t.kind with
  | .phrase .methodDeclaration =>
    let result := ((t.childInRole? .type).map (Tree.lineIn text)).getD "void"
    ofName .method (fun name => name ++ "(" ++ parameters ++ "): " ++ result) modifiers
  | .phrase .constructorDeclaration | .phrase .compactConstructorDeclaration =>
    ofName .constructor (fun name => name ++ "(" ++ parameters ++ ")") modifiers
  | .phrase .annotationTypeElementDeclaration =>
    ofName .method (fun name => name ++ "(): " ++ typeText) modifiers
  | .phrase .enumConstant => ofName .enumConstant id []
  | .phrase .fieldDeclaration | .phrase .constantDeclaration =>
    (t.childrenInRole .declarator).filterMap fun d =>
      (d.childInRole? .name).map fun n =>
        let name := n.textIn text
        ⟨name, .field, t.span, n.span, name ++ ": " ++ typeText, modifiers⟩
  | _ => []

def componentOf? (text : String) (t : Tree) : Option MemberDecl :=
  (t.childInRole? .name).map fun n =>
    let name := n.textIn text
    let typeText := ((t.childInRole? .type).map (Tree.lineIn text)).getD ""
    ⟨name, .field, t.span, n.span, name ++ ": " ++ typeText, []⟩

def addMembers (text : String) (t : Tree) (c : Context) (u : SourceUnit) : SourceUnit :=
  match c.memberOwner with
  | none => u
  | some owner => (membersOf text t).foldl (fun u m => u.pushMember owner m) u

def importOf? (text : String) (t : Tree) : Option Import :=
  (t.namedChildOf? [.identifier, .scopedIdentifier]).map fun n =>
    { path := Text.squeeze (n.textIn text)
      isStatic := t.children.any fun c => c.kind == .token "static"
      onDemand := t.children.any fun c => c.is .asterisk
      span := t.span }

def callOf? (text : String) (t : Tree) (c : Context) : Option CallSite :=
  (t.childInRole? .name).map fun n =>
    { name := n.textIn text
      nameSpan := n.span
      receiver := (t.childInRole? .object).map (Tree.lineIn text)
      enclosing := c.enclosing }

/-- Plans every named child but the name of `t`. -/
def exceptName (t : Tree) (plan : Tree → Visit) (child : Tree) : Visit :=
  if (t.childInRole? .name).map Tree.label == some child.label then .skip else plan child

/-- Everything but modifiers plainly. -/
def plainParts (c : Context) (child : Tree) : Visit :=
  if child.is .modifiers then .skip else .plain c

/-- The parts of a method or constructor; its type parameters are known throughout it. -/
def callableParts (t : Tree) (c : Context) (child : Tree) : Visit :=
  if child.is .typeParameters then .typeParams t.span none c else plainParts c child

/-- The parts of type number `index`. The header of a type belongs to what is around it. -/
def typeParts (t : Tree) (index : Nat) (outer inner : Context) (child : Tree) : Visit :=
  if child.is .modifiers then .skip
  else if child.is .typeParameters then .typeParams t.span (some index) outer
  else if [Phrase.superclass, .superInterfaces, .extendsInterfaces].any child.is then
    .superClause index outer
  else if child.is .formalParameters then .components index inner
  else if bodies.any child.is then .body inner
  else .plain inner

/-- How the children of a node are visited, and what is noted after each of them. -/
structure Plan where
  visit : Tree → Visit
  settle : Tree → SourceUnit → SourceUnit → SourceUnit := fun _ _ after => after

def Plan.of (visit : Tree → Visit) : Plan := { visit := visit }

/-- What a plain visit adds to the unit before the children are visited, and their plan. -/
def planPlain (text : String) (t : Tree) (c : Context) (u : SourceUnit) : SourceUnit × Plan :=
  let skipAll := Plan.of fun _ => .skip
  let all (c : Context) := Plan.of fun _ => .plain c
  match t.kind with
  | .token _ | .error => (u, all c)
  | .phrase p =>
    match typeKind? p with
    | some kind =>
      match t.childInRole? .name with
      | none => (u, all c)
      | some n =>
        let index := u.types.length
        let decl := u.declare c (n.textIn text) kind t.span n.span (modifiersOf text t)
        let inner : Context := ⟨some index, some index, false⟩
        ({ u with types := u.types ++ [decl] },
          .of (exceptName t (typeParts t index c inner)))
    | none =>
      match p with
      | .packageDeclaration =>
        match t.namedChildOf? [.identifier, .scopedIdentifier] with
        | none => (u, skipAll)
        | some n => ({ u with package := some (Text.squeeze (n.textIn text)) }, skipAll)
      | .importDeclaration =>
        ({ u with imports := u.imports ++ (importOf? text t).toList }, skipAll)
      | .methodDeclaration | .constructorDeclaration | .compactConstructorDeclaration =>
        (addMembers text t c u, .of (exceptName t (callableParts t c.unowned)))
      | .fieldDeclaration | .constantDeclaration =>
        (addMembers text t c u, .of (plainParts c.unowned))
      | .annotationTypeElementDeclaration =>
        let isType (child : Tree) : Bool :=
          (t.childInRole? .type).map Tree.label == some child.label
        (addMembers text t c u,
          .of fun child => if isType child then .plain c.unowned else .skip)
      | .enumConstant =>
        (addMembers text t c u, .of (exceptName t (plainParts c.unowned)))
      | .block | .constructorBody =>
        (u.pushScope .block t.span, all { c.unowned with inBlock := true })
      | .classBody | .interfaceBody | .enumBody | .annotationTypeBody =>
        (u.pushScope .typeBody t.span, all c.unowned)
      | .typeIdentifier => (u.pushRef (t.textIn text) t.span c, skipAll)
      | .scopedTypeIdentifier =>
        (match typeName? text t with
          | some name => u.pushRef name t.span c
          | none => u,
          .of fun _ => .argumentsWithin c)
      | .typeParameters => (u, .of fun _ => .typeParam t.span none c)
      | .methodInvocation =>
        ({ u with calls := u.calls ++ (callOf? text t c).toList },
          .of (exceptName t fun _ => .plain c))
      | _ => (u, all c)

/-- What a visit adds to the unit before the children are visited, and their plan. -/
def plan (text : String) (v : Visit) (t : Tree) (u : SourceUnit) : SourceUnit × Plan :=
  let keep (visit : Tree → Visit) : SourceUnit × Plan := (u, .of visit)
  match v with
  | .skip => keep fun _ => .skip
  | .plain c => planPlain text t c u
  | .body c => (u.pushScope .typeBody t.span, .of fun _ => .plain c)
  | .typeParams scope owner c => keep fun _ => .typeParam scope owner c
  | .typeParam scope owner c =>
    if t.is .typeParameter then
      let name := t.namedChildOf? [.typeIdentifier, .identifier]
      let u' :=
        match name with
        | none => u
        | some n =>
          let name := n.textIn text
          let u' :=
            match owner with
            | none => u
            | some i => u.modifyType i fun d => { d with typeParams := d.typeParams ++ [name] }
          { u' with typeParams := u'.typeParams ++ [⟨scope, name⟩] }
      (u', .of fun child =>
        if name.map Tree.label == some child.label then .skip else .plain c)
    else keep fun _ => .skip
  | .superClause owner c =>
    (u, {
      visit := fun child => if child.is .typeList then .superClause owner c else .plain c
      settle := fun child before after =>
        if child.is .typeList then after else noteSupertype owner before after })
  | .components owner c => keep fun _ => .component owner c
  | .component owner c =>
    if t.is .formalParameter then
      let isType (child : Tree) : Bool :=
        (t.childInRole? .type).map Tree.label == some child.label
      ((componentOf? text t).elim u (u.pushMember owner),
        .of fun child => if isType child then .plain c else .skip)
    else planPlain text t c u
  | .argumentsWithin c =>
    if t.is .typeArguments then planPlain text t c u
    else if t.is .genericType || t.is .scopedTypeIdentifier then
      keep fun _ => .argumentsWithin c
    else keep fun _ => .skip

mutual

def visit (text : String) (v : Visit) : Tree → SourceUnit → SourceUnit
  | .node l children, u =>
    let (u', p) := plan text v (.node l children) u
    visitAll text p children u'

def visitAll (text : String) (p : Plan) : List Tree → SourceUnit → SourceUnit
  | [], u => u
  | t :: rest, u =>
    visitAll text p rest (if t.isNamed then p.settle t u (visit text (p.visit t) t u) else u)

end

def lower (text : String) (root : Tree) (start : SourceUnit) : SourceUnit :=
  visit text (.plain {}) root start

end JavaAtlas.Java
