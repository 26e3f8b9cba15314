import JavaAtlas.Java.Rule

/-!
# Expressions

Binary operators have a level each and associate to the left. A class literal and a type with
arguments are preferred where the text could also be read as something else.
-/

namespace JavaAtlas.Java.Grammar

set_option autoImplicit false

open Rule Phrase Category Definition

/-! ## Levels, from loose to tight -/

def assignLevel : Int := 1

def ternaryLevel : Int := 3

def relationLevel : Int := 10

def castLevel : Int := 14

def unaryLevel : Int := 15

def binaryOperators : List (String × Int) := [
  (">", relationLevel), ("<", relationLevel), (">=", relationLevel), ("<=", relationLevel),
  ("==", 9), ("!=", 9), ("&&", 5), ("||", 4), ("+", 12), ("-", 12), ("*", 13), ("/", 13),
  ("&", 8), ("|", 6), ("^", 7), ("%", 13), ("<<", 11), (">>", 11), (">>>", 11)]

def unaryOperators : List String := ["+", "-", "!", "~"]

def assignmentOperators : List String :=
  ["=", "+=", "-=", "*=", "/=", "&=", "|=", "^=", "%=", "<<=", ">>=", ">>>="]

/-- A name that may also be one of the words with a meaning only in some places. -/
def anyName : Rule := oneOf [identifier, reservedIdentifier]

def dottedName : Rule := oneOf [identifier, reservedIdentifier, scopedIdentifier]

def simpleType : Rule :=
  oneOf [
    voidType, integralType, floatingPointType, booleanType, shownAs typeIdentifier identifier,
    scopedTypeIdentifier, genericType]

def annotations : Rule := many anyAnnotation

def expressions : List Definition := [
  rule expression (oneOf [
    assignmentExpression, binaryExpression, instanceofExpression, lambdaExpression,
    ternaryExpression, updateExpression, primary, unaryExpression, castExpression,
    switchExpression]),
  atLevel castExpression castLevel (oneOf [
    all ["(", role .type anyType, ")", role .value expression],
    all [
      "(", separated "&" (role .type anyType), ")",
      role .value (oneOf [primary, lambdaExpression])]]),
  rightAt assignmentExpression assignLevel (all [
    role .left (oneOf [identifier, reservedIdentifier, fieldAccess, arrayAccess]),
    role .operator (oneOf (assignmentOperators.map mark)),
    role .right expression]),
  ⟨binaryExpression, .phrase (binaryOperators.map fun (sign, level) =>
    { rule := all [role .left expression, role .operator (mark sign), role .right expression]
      level := level
      associativity := some .left })⟩,
  atLevel instanceofExpression relationLevel (all [
    role .left expression,
    "instanceof",
    maybe "final",
    oneOf [
      all [role .right anyType, maybe (role .name anyName)],
      role .pattern recordPattern]]),
  rule lambdaExpression (all [
    role .parameters (oneOf [identifier, formalParameters, inferredParameters, reservedIdentifier]),
    "->",
    role .body (oneOf [expression, block])]),
  rule inferredParameters (all ["(", commas1 anyName, ")"]),
  rightAt ternaryExpression ternaryLevel (all [
    role .condition expression, "?", role .consequence expression, ":",
    role .alternative expression]),
  ⟨unaryExpression, .phrase (unaryOperators.map fun sign =>
    { rule := all [role .operator (mark sign), role .operand expression]
      level := unaryLevel
      associativity := some .left })⟩,
  leftAt updateExpression unaryLevel (oneOf [
    all [expression, "++"], all [expression, "--"], all ["++", expression],
    all ["--", expression]]),
  rule primary (oneOf [
    literal, classLiteral, thisExpression, identifier, reservedIdentifier, parenthesizedExpression,
    objectCreationExpression, fieldAccess, arrayAccess, methodInvocation, methodReference,
    arrayCreationExpression, templateExpression]),
  rightAt arrayCreationExpression 0 (all [
    "new", annotations, role .type simpleType,
    oneOf [
      all [role .dimensions (many1 dimensionsExpression), role .dimensions (maybe dimensions)],
      all [role .dimensions dimensions, role .value arrayInitializer]]]),
  rule dimensionsExpression (all [annotations, "[", expression, "]"]),
  rule parenthesizedExpression (all ["(", expression, ")"]),
  rule condition (all ["(", expression, ")"]),
  weighted classLiteral 17 (all [plainType, ".", "class"]),
  rule objectCreationExpression (oneOf [creation, all [primary, ".", creation]]),
  rightAt creation 0 (all [
    "new",
    oneOf [all [annotations, role .typeArguments typeArguments, annotations], annotations],
    role .type simpleType,
    role .arguments argumentList,
    maybe classBody]),
  rule fieldAccess (all [
    role .object (oneOf [primary, superExpression]),
    maybe (all [".", superExpression]),
    ".",
    role .field (oneOf [identifier, reservedIdentifier, thisExpression])]),
  rule templateExpression (all [
    role .templateProcessor primary, ".", role .templateArgument stringLiteral]),
  rule arrayAccess (all [role .array primary, "[", role .index expression, "]"]),
  rule methodInvocation (all [
    oneOf [
      role .name anyName,
      all [
        role .object (oneOf [primary, superExpression]),
        ".",
        maybe (all [superExpression, "."]),
        role .typeArguments (maybe typeArguments),
        role .name anyName]],
    role .arguments argumentList]),
  rule argumentList (all ["(", commas expression, ")"]),
  rule methodReference (all [
    oneOf [anyType, primary, superExpression], "::", maybe typeArguments,
    oneOf ["new", identifier]]),
  rule typeArguments (all ["<", commas (oneOf [anyType, wildcard]), ">"]),
  rule wildcard (all [annotations, "?", maybe wildcardBounds]),
  rule wildcardBounds (oneOf [all ["extends", anyType], all [superExpression, anyType]]),
  rightAt dimensions 0 (many1 (all [annotations, "[", "]"])),
  rule switchExpression (all [
    "switch", role .condition parenthesizedExpression, role .body switchBlock]),
  rule switchBlock (all [
    "\x7b", oneOf [many switchBlockStatementGroup, many switchRule], "\x7d"]),
  leftAt switchBlockStatementGroup 0 (all [many1 (all [switchLabel, ":"]), many statement]),
  rule switchRule (all [
    switchLabel, "->", oneOf [expressionStatement, throwStatement, block]]),
  rule switchLabel (oneOf [
    all ["case", oneOf [pattern, commas1 expression], maybe guardClause],
    "default"]),
  rule pattern (oneOf [typePattern, recordPattern]),
  rule typePattern (all [plainType, anyName]),
  rule recordPattern (all [oneOf [identifier, reservedIdentifier, genericType], recordPatternBody]),
  rule recordPatternBody (all [
    "(", commas (oneOf [recordPatternComponent, recordPattern]), ")"]),
  rule recordPatternComponent (oneOf [underscorePattern, all [plainType, anyName]]),
  word underscorePattern "_",
  rule guardClause (all ["when", expression])]

end JavaAtlas.Java.Grammar
