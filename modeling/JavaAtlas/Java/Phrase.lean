/-!
# The phrases of the grammar

The kinds of named nodes a syntax tree can have, and the roles that children play in their parents.
-/

namespace JavaAtlas.Java

set_option autoImplicit false

inductive Phrase
  | program
  | packageDeclaration
  | importDeclaration
  | asterisk
  | moduleDeclaration
  | moduleBody
  | requiresDirective
  | requiresModifier
  | exportsDirective
  | opensDirective
  | usesDirective
  | providesDirective
  | classDeclaration
  | interfaceDeclaration
  | enumDeclaration
  | recordDeclaration
  | annotationTypeDeclaration
  | classBody
  | interfaceBody
  | enumBody
  | enumBodyDeclarations
  | annotationTypeBody
  | modifiers
  | annotationMarker
  | annotation
  | annotationArgumentList
  | elementValuePair
  | elementValueArrayInitializer
  | superclass
  | superInterfaces
  | extendsInterfaces
  | permitsClause
  | typeList
  | typeParameters
  | typeParameter
  | typeBound
  | typeArguments
  | wildcard
  | typeIdentifier
  | scopedTypeIdentifier
  | genericType
  | arrayType
  | annotatedType
  | integralType
  | floatingPointType
  | booleanType
  | voidType
  | dimensions
  | dimensionsExpression
  | fieldDeclaration
  | constantDeclaration
  | methodDeclaration
  | constructorDeclaration
  | compactConstructorDeclaration
  | annotationTypeElementDeclaration
  | enumConstant
  | variableDeclarator
  | formalParameters
  | formalParameter
  | spreadParameter
  | receiverParameter
  | throwsClause
  | staticInitializer
  | block
  | constructorBody
  | explicitConstructorInvocation
  | localVariableDeclaration
  | expressionStatement
  | labeledStatement
  | ifStatement
  | whileStatement
  | forStatement
  | enhancedForStatement
  | doStatement
  | breakStatement
  | continueStatement
  | returnStatement
  | yieldStatement
  | throwStatement
  | assertStatement
  | synchronizedStatement
  | tryStatement
  | tryWithResourcesStatement
  | resourceSpecification
  | resource
  | catchClause
  | catchFormalParameter
  | catchType
  | finallyClause
  | condition
  | switchExpression
  | switchBlock
  | switchBlockStatementGroup
  | switchRule
  | switchLabel
  | guardClause
  | pattern
  | typePattern
  | recordPattern
  | recordPatternBody
  | recordPatternComponent
  | underscorePattern
  | assignmentExpression
  | binaryExpression
  | instanceofExpression
  | lambdaExpression
  | inferredParameters
  | ternaryExpression
  | updateExpression
  | unaryExpression
  | castExpression
  | parenthesizedExpression
  | classLiteral
  | thisExpression
  | superExpression
  | objectCreationExpression
  | arrayCreationExpression
  | arrayInitializer
  | fieldAccess
  | arrayAccess
  | methodInvocation
  | methodReference
  | templateExpression
  | argumentList
  | identifier
  | scopedIdentifier
  | decimalInteger
  | hexInteger
  | octalInteger
  | binaryInteger
  | decimalFloat
  | hexFloat
  | trueLiteral
  | falseLiteral
  | nullLiteral
  | characterLiteral
  | stringLiteral
  | stringFragment
  | multilineStringFragment
  | escapeSequence
  | stringInterpolation
  | lineComment
  | blockComment
deriving DecidableEq, Hashable

inductive Field
  | alternative
  | arguments
  | array
  | body
  | condition
  | consequence
  | constructor
  | declarator
  | dimensions
  | element
  | field
  | index
  | init
  | interfaces
  | key
  | left
  | modifiers
  | module
  | modules
  | name
  | object
  | operand
  | operator
  | package
  | parameters
  | pattern
  | permits
  | provided
  | provider
  | resources
  | right
  | scope
  | superclass
  | templateArgument
  | templateProcessor
  | type
  | typeArguments
  | typeParameters
  | update
  | value
deriving DecidableEq, Hashable

end JavaAtlas.Java
