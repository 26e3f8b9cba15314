import JavaAtlas.Naming
import JavaAtlas.Text.Span

/-!
# Problems found in a file
-/

namespace JavaAtlas

set_option autoImplicit false

inductive DiagnosticKind
  | syntaxError
  | unresolvedSymbol
deriving DecidableEq

instance : Named DiagnosticKind where
  all := [.syntaxError, .unresolvedSymbol]
  name
    | .syntaxError => "SyntaxError"
    | .unresolvedSymbol => "UnresolvedSymbol"

def DiagnosticKind.code : DiagnosticKind → String
  | .syntaxError => "syntax-error"
  | .unresolvedSymbol => "unresolved-symbol"

inductive Severity
  | error
  | warning
  | info
deriving DecidableEq

instance : Named Severity where
  all := [.error, .warning, .info]
  name
    | .error => "Error"
    | .warning => "Warning"
    | .info => "Info"

structure Diagnostic where
  kind : DiagnosticKind
  severity : Severity
  span : Span
  message : String
deriving DecidableEq

namespace Diagnostic

def syntaxError (span : Span) (message : String) : Diagnostic :=
  ⟨.syntaxError, .error, span, message⟩

def unresolvedSymbol (span : Span) (name : String) : Diagnostic :=
  ⟨.unresolvedSymbol, .error, span, "cannot resolve symbol `" ++ name ++ "`"⟩

def render (d : Diagnostic) : String :=
  s!"{d.span.start}..{d.span.stop}: {d.message} [" ++ d.kind.code ++ "]"

/-- By position, the earlier of two at the same place first. -/
def sortByPosition (ds : List Diagnostic) : List Diagnostic :=
  ds.mergeSort fun a b => a.span.before b.span

end Diagnostic

end JavaAtlas
