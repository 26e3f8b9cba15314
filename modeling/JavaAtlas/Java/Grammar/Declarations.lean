import JavaAtlas.Java.Grammar.Expressions

/-!
# Annotations, declarations and types
-/

namespace JavaAtlas.Java.Grammar

set_option autoImplicit false

open Rule Phrase Category Definition

def declarationLevel : Int := 2

def initializer : Rule := oneOf [expression, arrayInitializer]

def classMember : Rule :=
  oneOf [
    fieldDeclaration, recordDeclaration, methodDeclaration, compactConstructorDeclaration,
    classDeclaration, interfaceDeclaration, annotationTypeDeclaration, enumDeclaration, block,
    staticInitializer, constructorDeclaration, ";"]

def modifierWords : List String := [
  "public", "protected", "private", "abstract", "static", "final", "strictfp", "default",
  "synchronized", "native", "transient", "volatile", "sealed", "non-sealed"]

/-- Words with a meaning only in some places. -/
def reservedWords : List String := ["open", "module", "record", "with", "yield", "sealed"]

def annotationRules : List Definition := [
  rule anyAnnotation (oneOf [annotationMarker, annotation]),
  rule annotationMarker (all ["@", role .name dottedName]),
  rule annotation (all ["@", role .name dottedName, role .arguments annotationArgumentList]),
  rule annotationArgumentList (all ["(", oneOf [elementValue, commas elementValuePair], ")"]),
  rule elementValuePair (all [role .key identifier, "=", role .value elementValue]),
  atLevel elementValue declarationLevel
    (oneOf [expression, elementValueArrayInitializer, anyAnnotation]),
  rule elementValueArrayInitializer (all ["\x7b", commas elementValue, maybe ",", "\x7d"])]

def packageDirective (keyword : String) : Rule :=
  all [
    mark keyword, role .package dottedName,
    maybe (all ["to", role .modules dottedName, many (all [",", role .modules dottedName])]),
    ";"]

def moduleRules : List Definition := [
  rule moduleDeclaration (all [
    annotations, maybe "open", "module", role .name dottedName, role .body moduleBody]),
  rule moduleBody (all ["\x7b", many moduleDirective, "\x7d"]),
  rule moduleDirective (oneOf [
    requiresDirective, exportsDirective, opensDirective, usesDirective, providesDirective]),
  rule requiresDirective (all [
    "requires", many (role .modifiers requiresModifier), role .module dottedName, ";"]),
  rule requiresModifier (oneOf ["transitive", "static"]),
  rule exportsDirective (packageDirective "exports"),
  rule opensDirective (packageDirective "opens"),
  rule usesDirective (all ["uses", role .type dottedName, ";"]),
  rule providesDirective (all [
    "provides", role .provided dottedName, "with", dottedName,
    many (all [",", role .provider dottedName]), ";"]),
  rule packageDeclaration (all [annotations, "package", dottedName, ";"]),
  rule importDeclaration (all [
    "import", maybe "static", dottedName, maybe (all [".", asterisk]), ";"]),
  rule asterisk "*"]

def typeDeclarations : List Definition := [
  rule enumDeclaration (all [
    maybe modifiers, "enum", role .name identifier, role .interfaces (maybe superInterfaces),
    role .body enumBody]),
  rule enumBody (all [
    "\x7b", commas enumConstant, maybe ",", maybe enumBodyDeclarations, "\x7d"]),
  rule enumBodyDeclarations (all [";", many classMember]),
  rule enumConstant (all [
    maybe modifiers, role .name identifier, role .arguments (maybe argumentList),
    role .body (maybe classBody)]),
  rule classDeclaration (all [
    maybe modifiers, "class", role .name identifier,
    maybe (role .typeParameters typeParameters), maybe (role .superclass superclass),
    maybe (role .interfaces superInterfaces), maybe (role .permits permitsClause),
    role .body classBody]),
  rule modifiers (many1 (oneOf (Rule.part anyAnnotation :: modifierWords.map mark))),
  rule typeParameters (all ["<", commas1 typeParameter, ">"]),
  rule typeParameter (all [annotations, shownAs typeIdentifier identifier, maybe typeBound]),
  rule typeBound (all ["extends", anyType, many (all ["&", anyType])]),
  rule superclass (all ["extends", anyType]),
  rule superInterfaces (all ["implements", typeList]),
  rule typeList (commas1 anyType),
  rule permitsClause (all ["permits", typeList]),
  rule classBody (all ["\x7b", many classMember, "\x7d"]),
  rule staticInitializer (all ["static", block]),
  rule constructorDeclaration (all [
    maybe modifiers, constructorDeclarator, maybe throwsClause, role .body constructorBody]),
  rule constructorDeclarator (all [
    role .typeParameters (maybe typeParameters), role .name identifier,
    role .parameters formalParameters]),
  rule constructorBody (all [
    "\x7b", maybe explicitConstructorInvocation, many statement, "\x7d"]),
  rule explicitConstructorInvocation (all [
    oneOf [
      all [
        role .typeArguments (maybe typeArguments),
        role .constructor (oneOf [thisExpression, superExpression])],
      all [
        role .object primary, ".", role .typeArguments (maybe typeArguments),
        role .constructor superExpression]],
    role .arguments argumentList,
    ";"]),
  rule scopedIdentifier (all [role .scope dottedName, ".", role .name identifier]),
  rule fieldDeclaration (all [
    maybe modifiers, role .type plainType, declaratorList, ";"]),
  rule recordDeclaration (all [
    maybe modifiers, "record", role .name identifier,
    maybe (role .typeParameters typeParameters), role .parameters formalParameters,
    maybe (role .interfaces superInterfaces), role .body classBody]),
  rule annotationTypeDeclaration (all [
    maybe modifiers, "@interface", role .name identifier, role .body annotationTypeBody]),
  rule annotationTypeBody (all [
    "\x7b",
    many (oneOf [
      annotationTypeElementDeclaration, constantDeclaration, classDeclaration,
      interfaceDeclaration, enumDeclaration, annotationTypeDeclaration, ";"]),
    "\x7d"]),
  rule annotationTypeElementDeclaration (all [
    maybe modifiers, role .type plainType, role .name anyName, "(", ")",
    role .dimensions (maybe dimensions), maybe defaultValue, ";"]),
  rule defaultValue (all ["default", role .value elementValue]),
  rule interfaceDeclaration (all [
    maybe modifiers, "interface", role .name identifier,
    role .typeParameters (maybe typeParameters), maybe extendsInterfaces,
    maybe (role .permits permitsClause), role .body interfaceBody]),
  rule extendsInterfaces (all ["extends", typeList]),
  rule interfaceBody (all [
    "\x7b",
    many (oneOf [
      constantDeclaration, enumDeclaration, methodDeclaration, classDeclaration,
      interfaceDeclaration, recordDeclaration, annotationTypeDeclaration, ";"]),
    "\x7d"]),
  rule constantDeclaration (all [
    maybe modifiers, role .type plainType, declaratorList, ";"]),
  rule declaratorList (commas1 (role .declarator variableDeclarator)),
  rule variableDeclarator (all [declaratorId, maybe (all ["=", role .value initializer])]),
  rule declaratorId (all [
    role .name (oneOf [identifier, reservedIdentifier, underscorePattern]),
    role .dimensions (maybe dimensions)]),
  rule arrayInitializer (all ["\x7b", commas initializer, maybe ",", "\x7d"])]

def types : List Definition := [
  rule anyType (oneOf [plainType, annotatedType]),
  rule plainType (oneOf [simpleType, arrayType]),
  rule annotatedType (all [many1 anyAnnotation, plainType]),
  rule scopedTypeIdentifier (all [
    oneOf [shownAs typeIdentifier identifier, scopedTypeIdentifier, genericType],
    ".", annotations, shownAs typeIdentifier identifier]),
  weighted genericType 10 (all [
    oneOf [shownAs typeIdentifier identifier, scopedTypeIdentifier], typeArguments]),
  rule arrayType (all [role .element plainType, role .dimensions dimensions]),
  rule integralType (oneOf ["byte", "short", "int", "long", "char"]),
  rule floatingPointType (oneOf ["float", "double"]),
  word booleanType "boolean",
  word voidType "void"]

def methods : List Definition := [
  rule methodHeader (all [
    maybe (all [role .typeParameters typeParameters, annotations]),
    role .type plainType, methodDeclarator, maybe throwsClause]),
  rule methodDeclarator (all [
    role .name anyName, role .parameters formalParameters, role .dimensions (maybe dimensions)]),
  rule formalParameters (all [
    "(",
    oneOf [
      receiverParameter,
      all [
        maybe (all [receiverParameter, ","]),
        commas (oneOf [formalParameter, spreadParameter])]],
    ")"]),
  rule formalParameter (all [maybe modifiers, role .type plainType, declaratorId]),
  rule receiverParameter (all [
    annotations, plainType, many (all [identifier, "."]), thisExpression]),
  rule spreadParameter (all [maybe modifiers, plainType, "...", variableDeclarator]),
  rule throwsClause (all ["throws", commas1 anyType]),
  rule localVariableDeclaration (all [
    maybe modifiers, role .type plainType, declaratorList, ";"]),
  rule methodDeclaration (all [
    maybe modifiers, methodHeader, oneOf [role .body block, ";"]]),
  rule compactConstructorDeclaration (all [
    maybe modifiers, role .name identifier, role .body block]),
  atLevel reservedIdentifier (-3) (shownAs identifier (oneOf (reservedWords.map mark))),
  word thisExpression "this",
  word superExpression "super"]

/-- A declaration binds more tightly than a statement that starts alike. -/
def declarations : List Definition :=
  annotationRules ++
  [atLevel declaration declarationLevel (oneOf [
    moduleDeclaration, packageDeclaration, importDeclaration, classDeclaration, recordDeclaration,
    interfaceDeclaration, annotationTypeDeclaration, enumDeclaration])] ++
  moduleRules ++ typeDeclarations ++ types ++ methods

end JavaAtlas.Java.Grammar
