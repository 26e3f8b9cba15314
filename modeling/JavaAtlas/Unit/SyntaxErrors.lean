import JavaAtlas.Diagnostic
import JavaAtlas.Java.Tree
import JavaAtlas.Text.Blank
import JavaAtlas.Text.Identifier

/-!
# Syntax errors of a tree

One diagnostic for each missing token and each outermost error node, in order of position.
-/

namespace JavaAtlas.Java

set_option autoImplicit false

def snippetLength : Nat := 32

def unexpectedMessage (text : String) : String :=
  let shown := Text.collapse text
  if shown = "" then "unexpected input"
  else
    let cut := String.ofList (shown.toList.take snippetLength)
    "unexpected `" ++ (if cut = shown then cut else cut ++ "...") ++ "`"

def Phrase.word? : Phrase → Option String
  | .identifier => some "identifier"
  | .typeIdentifier => some "type_identifier"
  | .decimalInteger => some "decimal_integer_literal"
  | .hexInteger => some "hex_integer_literal"
  | .octalInteger => some "octal_integer_literal"
  | .binaryInteger => some "binary_integer_literal"
  | .decimalFloat => some "decimal_floating_point_literal"
  | .hexFloat => some "hex_floating_point_literal"
  | .trueLiteral => some "true"
  | .falseLiteral => some "false"
  | .nullLiteral => some "null_literal"
  | .characterLiteral => some "character_literal"
  | .stringFragment => some "string_fragment"
  | .escapeSequence => some "escape_sequence"
  | .underscorePattern => some "underscore_pattern"
  | .booleanType => some "boolean_type"
  | .voidType => some "void_type"
  | .thisExpression => some "this"
  | .superExpression => some "super"
  | .lineComment => some "line_comment"
  | .blockComment => some "block_comment"
  | _ => none

def Kind.word : Kind → String
  | .token text => text
  | .phrase p => p.word?.getD "ERROR"
  | .error => "ERROR"

def faultMessage (text : String) (l : Label) : String :=
  if l.isMissing then "missing `" ++ l.kind.word ++ "`"
  else unexpectedMessage (Text.slice text l.span.start l.span.stop)

def faultDiagnostic (text : String) (l : Label) : Diagnostic :=
  .syntaxError l.span (faultMessage text l)

/-- Adds the outermost faults of the trees on a stack to those found. A tree is taken off the top, and
its children are put there in its place if `hasError` says that one of them leads to a fault. -/
def collectFaults (hasError : Tree → Bool) (text : String) :
    List Tree → List Diagnostic → List Diagnostic
  | [], found => found
  | .node l children :: rest, found =>
    if l.isFault then collectFaults hasError text rest (found ++ [faultDiagnostic text l])
    else if hasError (.node l children) then collectFaults hasError text (children ++ rest) found
    else collectFaults hasError text rest found
termination_by stack => Tree.sizeAll stack
decreasing_by all_goals simp only [Tree.sizeAll_append, Tree.sizeAll, Tree.size]; omega

/-- Adds the diagnostics of a tree to those that are there; only the new ones are put in order. -/
def addSyntaxErrors (hasError : Tree → Bool) (text : String) (root : Tree)
    (diagnostics : List Diagnostic) : List Diagnostic :=
  if hasError root then
    let found := collectFaults hasError text [root] diagnostics
    found.take diagnostics.length ++ Diagnostic.sortByPosition (found.drop diagnostics.length)
  else diagnostics

end JavaAtlas.Java
