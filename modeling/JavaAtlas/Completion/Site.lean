import JavaAtlas.Text.Blank
import JavaAtlas.Text.Identifier
import JavaAtlas.Text.Split

/-!
# What the text in front of the cursor asks for

The typed identifier is cut off and the text before it decides: inside an import or package
statement, after a dot, or anything else.
-/

namespace JavaAtlas

set_option autoImplicit false

inductive Site
  | free
  /-- Inside `import parent.`, where types count too, or `package parent.`. -/
  | statement (parent : String) (types : Bool)
  /-- After `chain.`; `head` is the text before the chain. -/
  | select (head chain : String)
deriving DecidableEq

namespace Site

/-- The text before the cursor without the typed identifier. -/
def headOf (text : String) (offset : Nat) (typed : String) : List Char :=
  let head := Text.takeBytes offset text.toList
  (Text.stripSuffix? typed.toList head).getD head

def endsStatement (c : Char) : Bool := c == ';' || c == '\x7b' || c == '\x7d'

def afterKeyword? (keyword : String) (cs : List Char) : Option (List Char) := do
  let rest ← Text.stripPrefix? keyword.toList cs
  if rest.head?.any Text.isBlank then some rest else none

def parentOf (written : List Char) : String :=
  (Text.ownerOf? (Text.squeeze (String.ofList written))).getD ""

def statementOf? (head : List Char) : Option Site :=
  let current := Text.trimStart (Text.suffixWhile (fun c => !endsStatement c) head)
  match afterKeyword? "import" current with
  | some rest =>
    let written := Text.trimStart rest
    some (.statement (parentOf ((afterKeyword? "static" written).getD written)) true)
  | none =>
    (afterKeyword? "package" current).map fun rest => .statement (parentOf (Text.trimStart rest)) false

def isChainPart (c : Char) : Bool := Text.isIdentifierPart c || c == '.'

/-- The chain of names before a final dot. -/
def selectOf? (head : List Char) : Option Site := do
  let beforeDot ← Text.stripSuffix? ['.'] (Text.trimEnd head)
  let receiver := Text.trimEnd beforeDot
  return .select (String.ofList (Text.dropSuffixWhile isChainPart receiver))
    (String.ofList (Text.suffixWhile isChainPart receiver))

/-- The site at `offset`, where `typed` is the identifier being completed. -/
def classify (text : String) (offset : Nat) (typed : String) : Site :=
  let head := headOf text offset typed
  ((statementOf? head).or (selectOf? head)).getD .free

end Site

/-! ## Local declarations -/

namespace LocalDeclaration

/-- Words that can stand before a name without being its type. -/
def notTypes : List String :=
  ["return", "new", "throw", "case", "else", "instanceof", "yield", "assert"]

/-- The places where `name` occurs in `rest`, each with the characters before it in reverse and those
after it, the last place first. `before` is what precedes `rest`, in reverse. -/
def occurrences (name : List Char) (before : List Char) : List Char → List (List Char × List Char)
  | [] => []
  | c :: rest =>
    let later := occurrences name (c :: before) rest
    match Text.stripPrefix? name (c :: rest) with
    | some after => later ++ [(before, after)]
    | none => later

def dropBrackets : Nat → List Char → List Char
  | 0, cs => cs
  | fuel + 1, ']' :: '[' :: rest => dropBrackets fuel (rest.dropWhile Text.isBlank)
  | _ + 1, cs => cs

/-- Takes type arguments off a text in reverse; `depth` of them are open. -/
def dropArguments : Nat → List Char → Option (List Char)
  | _, [] => none
  | depth, '>' :: rest => dropArguments (depth + 1) rest
  | depth, '<' :: rest => if depth ≤ 1 then some rest else dropArguments (depth - 1) rest
  | depth, _ :: rest => dropArguments depth rest

/-- The type written before a declared name, as its offset and text. -/
def typeBefore? (before after : List Char) : Option (Nat × String) := do
  let bounded := !before.head?.any Text.isIdentifierPart && !after.head?.any Text.isIdentifierPart
  let declares := (Text.trimStart after).head?.any fun c => ['=', ';', ',', ')', ':'].contains c
  if !(bounded && declares) then none
  let plain := dropBrackets before.length (before.dropWhile Text.isBlank)
  let bare ← if plain.head? = some '>' then
      (dropArguments 0 plain).map fun rest => rest.dropWhile Text.isBlank
    else some plain
  let written := (bare.takeWhile Site.isChainPart).reverse
  let first ← written.head?
  let type := String.ofList written
  if Text.isIdentifierStart first && !notTypes.contains type then
    some (Text.byteLength (bare.dropWhile Site.isChainPart), type)
  else none

end LocalDeclaration

/-- The last declaration of a local variable in `head`, as offset and text of its type. -/
def localDeclaration? (head name : String) : Option (Nat × String) :=
  (LocalDeclaration.occurrences name.toList [] head.toList).findSome? fun place =>
    LocalDeclaration.typeBefore? place.1 place.2

end JavaAtlas
