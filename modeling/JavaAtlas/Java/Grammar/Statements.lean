import JavaAtlas.Java.Grammar.Expressions

/-!
# Statements
-/

namespace JavaAtlas.Java.Grammar

set_option autoImplicit false

open Rule Phrase Category Definition

def statements : List Definition := [
  rule statement (oneOf [
    declaration, expressionStatement, labeledStatement, ifStatement, whileStatement, forStatement,
    enhancedForStatement, block, ";", assertStatement, doStatement, breakStatement,
    continueStatement, returnStatement, yieldStatement, switchExpression, synchronizedStatement,
    localVariableDeclaration, throwStatement, tryStatement, tryWithResourcesStatement]),
  rule block (all ["\x7b", many statement, "\x7d"]),
  rule expressionStatement (all [expression, ";"]),
  rule labeledStatement (all [identifier, ":", statement]),
  rule assertStatement (oneOf [
    all ["assert", expression, ";"],
    all ["assert", expression, ":", expression, ";"]]),
  rule doStatement (all [
    "do", role .body statement, "while", role .condition parenthesizedExpression, ";"]),
  rule breakStatement (all ["break", maybe identifier, ";"]),
  rule continueStatement (all ["continue", maybe identifier, ";"]),
  rule returnStatement (all ["return", maybe expression, ";"]),
  rule yieldStatement (all ["yield", expression, ";"]),
  rule synchronizedStatement (all [
    "synchronized", parenthesizedExpression, role .body block]),
  rule throwStatement (all ["throw", expression, ";"]),
  rule tryStatement (all [
    "try", role .body block,
    oneOf [many1 catchClause, all [many catchClause, finallyClause]]]),
  rule catchClause (all ["catch", "(", catchFormalParameter, ")", role .body block]),
  rule catchFormalParameter (all [maybe modifiers, catchType, declaratorId]),
  rule catchType (separated "|" plainType),
  rule finallyClause (all ["finally", block]),
  rule tryWithResourcesStatement (all [
    "try", role .resources resourceSpecification, role .body block, many catchClause,
    maybe finallyClause]),
  rule resourceSpecification (all ["(", separated ";" resource, maybe ";", ")"]),
  rule resource (oneOf [
    all [
      maybe modifiers, role .type plainType, declaratorId, "=", role .value expression],
    identifier,
    fieldAccess]),
  rightAt ifStatement 0 (all [
    "if", role .condition condition, role .consequence statement,
    maybe (all ["else", role .alternative statement])]),
  rule whileStatement (all ["while", role .condition condition, role .body statement]),
  rule forStatement (all [
    "for", "(",
    oneOf [
      role .init localVariableDeclaration,
      all [commas (role .init expression), ";"]],
    role .condition (maybe expression), ";",
    commas (role .update expression), ")",
    role .body statement]),
  rule enhancedForStatement (all [
    "for", "(", maybe modifiers, role .type plainType, declaratorId, ":",
    role .value expression, ")", role .body statement])]

end JavaAtlas.Java.Grammar
