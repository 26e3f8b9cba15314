import JavaAtlas.Naming
import JavaAtlas.Unit.Basic

/-!
# Keywords by context
-/

namespace JavaAtlas

set_option autoImplicit false

inductive CompletionContext
  | topLevel
  | classBody
  | codeBlock
deriving DecidableEq

instance : Named CompletionContext where
  all := [.topLevel, .classBody, .codeBlock]
  name
    | .topLevel => "TopLevel"
    | .classBody => "ClassBody"
    | .codeBlock => "CodeBlock"

namespace CompletionContext

def around (scopes : List Scope) (offset : Nat) : CompletionContext :=
  match (innermostScope scopes offset).map Scope.kind with
  | none => .topLevel
  | some .typeBody => .classBody
  | some .block => .codeBlock

def keywords : CompletionContext → List String
  | .topLevel => ["import", "public", "class", "interface", "enum", "record"]
  | .classBody => [
    "public", "protected", "private", "static", "final", "abstract", "class", "interface", "enum",
    "record", "void"]
  | .codeBlock => [
    "if", "for", "while", "do", "switch", "try", "return", "throw", "break", "continue", "new",
    "this", "super", "null", "true", "false", "final", "var"]

end CompletionContext

end JavaAtlas
