import JavaAtlas.Java.Tree
import JavaAtlas.Unit.Lowering
import JavaAtlas.Unit.SyntaxErrors

/-!
# From a text to its unit
-/

namespace JavaAtlas.SourceUnit

set_option autoImplicit false

/-- The unit of a text. There is one for every text; mistakes are listed in it, and a text without a
tree has nothing but that. -/
def parse (parser : Java.Parser) (path : Path) (text : String) (fingerprint : Fingerprint)
    (level : LanguageLevel) : SourceUnit :=
  let empty : SourceUnit := { path := path, fingerprint := fingerprint, languageLevel := level }
  match parser text with
  | .ok root =>
    let unit := Java.lower text root empty
    { unit with
      diagnostics := Java.addSyntaxErrors Java.Tree.hasError text root unit.diagnostics }
  | .error cause =>
    { empty with diagnostics :=
        [.syntaxError (.clamp 0 text.utf8ByteSize) ("file could not be parsed: " ++ cause)] }

/-- The unit of a text under the fingerprint of that text. -/
def ofText (parser : Java.Parser) (path : Path) (text : String) (level : LanguageLevel) : SourceUnit :=
  parse parser path text (.ofText text) level

end JavaAtlas.SourceUnit
