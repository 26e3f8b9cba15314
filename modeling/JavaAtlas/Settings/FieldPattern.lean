import JavaAtlas.Text.Identifier

/-!
# Patterns for the values of fields

A value is matched by a regular expression. Only whether the expression is well formed matters here:
groups and classes of characters are closed, what is repeated is there, and every escape means
something. Counts cannot be written, since a closing brace ends the field.
-/

namespace JavaAtlas.Log.FieldPattern

set_option autoImplicit false

structure Flags where
  unicode : Bool := true
  skipsBlanks : Bool := false

inductive Escape
  | literal (c : Char)
  /-- A class of characters, and whether it can only hold whole characters. -/
  | class (isUnicode : Bool)
  | assertion

def isHexDigit (c : Char) : Bool := c.isDigit || ('a' ≤ c && c ≤ 'f') || ('A' ≤ c && c ≤ 'F')

def hexValue (digits : List Char) : Nat :=
  digits.foldl (fun n c =>
    n * 16 + (if c.isDigit then c.toNat - 48 else if 'a' ≤ c then c.toNat - 87 else c.toNat - 55)) 0

def hexEscape (n : Nat) (cs : List Char) : Option (Escape × List Char) :=
  let digits := cs.take n
  let value := hexValue digits
  if digits.length == n && digits.all isHexDigit && value.isValidChar then
    some (.literal (Char.ofNat value), cs.drop n)
  else none

/-- The escape after a backslash. Words have no bounds where all letters count. -/
def escape (flags : Flags) : List Char → Option (Escape × List Char)
  | [] => none
  | c :: rest =>
    if c == 'x' then hexEscape 2 rest
    else if c == 'u' then hexEscape 4 rest
    else if c == 'U' then hexEscape 8 rest
    else if c == 'p' || c == 'P' then
      match rest with
      | k :: rest =>
        if flags.unicode && "clmnpszCLMNPSZ".toList.contains k then some (.class true, rest)
        else none
      | [] => none
    else if "dsw".toList.contains c then some (.class true, rest)
    else if "DSW".toList.contains c then some (.class flags.unicode, rest)
    else if "aftnrv".toList.contains c then some (.literal c, rest)
    else if c == 'A' || c == 'z' then some (.assertion, rest)
    else if "bB<>".toList.contains c then if flags.unicode then none else some (.assertion, rest)
    else if c.isAlphanum || c.toNat ≥ 128 then none
    else some (.literal c, rest)

/-! ## Classes of characters -/

def skipBlanks (flags : Flags) (cs : List Char) : List Char :=
  if flags.skipsBlanks then cs.dropWhile Char.isWhitespace else cs

def classMember (flags : Flags) : List Char → Option (Option Char × List Char)
  | '\\' :: cs =>
    match escape flags cs with
    | some (.literal c, rest) => some (some c, rest)
    | some (.class _, rest) => some (none, rest)
    | _ => none
  | c :: rest => some (some c, rest)
  | [] => none

/-- A member, or a range of characters in order. -/
def classRange (flags : Flags) (cs : List Char) : Option (List Char) := do
  let (first, rest) ← classMember flags cs
  match skipBlanks flags rest with
  | [] => none
  | '-' :: after =>
    match skipBlanks flags after with
    | [] => none
    | ']' :: _ | '-' :: _ => return '-' :: after
    | after =>
      let (last, rest) ← classMember flags after
      match first, last with
      | some a, some b => if a ≤ b then return rest else none
      | _, _ => none
  | rest => return rest

def asciiClasses : List String := [
  "alnum", "alpha", "ascii", "blank", "cntrl", "digit", "graph", "lower", "print", "punct", "space",
  "upper", "word", "xdigit"]

/-- The rest after a class such as `[:alpha:]`. -/
def asciiClass (cs : List Char) : Option (List Char) :=
  match cs with
  | '[' :: ':' :: r =>
    let r := if r.head? == some '^' then r.tail else r
    let name := r.takeWhile (· != ':')
    match r.drop name.length with
    | ':' :: ']' :: rest =>
      if asciiClasses.contains (String.ofList name) then some rest else none
    | _ => none
  | _ => none

/-- The start of a class: after a caret, hyphens and then a closing bracket are members. -/
def classStart (flags : Flags) (cs : List Char) : Option (List Char) :=
  let cs := skipBlanks flags cs
  let isNegated := cs.head? == some '^'
  if isNegated && !flags.unicode then none
  else
    let cs := if isNegated then skipBlanks flags cs.tail else cs
    let rest := cs.dropWhile (· == '-')
    if rest.length == cs.length && rest.head? == some ']' then some rest.tail else some rest

def classes (flags : Flags) : Nat → Nat → List Char → Option (List Char)
  | 0, _, _ => none
  | _, 0, cs => some cs
  | fuel + 1, depth + 1, cs => do
    match skipBlanks flags cs with
    | [] => none
    | ']' :: rest => classes flags fuel depth rest
    | '[' :: rest =>
      match asciiClass ('[' :: rest) with
      | some rest => classes flags fuel (depth + 1) rest
      | none => classes flags fuel (depth + 2) (← classStart flags rest)
    | '&' :: '&' :: rest => classes flags fuel (depth + 1) rest
    | '-' :: '-' :: rest => classes flags fuel (depth + 1) rest
    | '~' :: '~' :: rest => classes flags fuel (depth + 1) rest
    | cs => classes flags fuel (depth + 1) (← classRange flags cs)

/-! ## Groups -/

structure Opening where
  flags : Flags
  /-- Only sets flags for what follows. -/
  isBare : Bool
  name : Option (List Char) := none
  rest : List Char

def Flags.set (flags : Flags) (c : Char) (value : Bool) : Flags :=
  if c == 'u' then { flags with unicode := value }
  else if c == 'x' then { flags with skipsBlanks := value }
  else flags

def readFlags (flags : Flags) (seen : List Char) (negated : Bool) : List Char → Option Opening
  | [] => none
  | c :: rest =>
    if c == ':' || c == ')' then
      if (c == ')' && seen.isEmpty) || seen.head? == some '-' then none
      else some { flags := flags, isBare := c == ')', rest := rest }
    else if seen.contains c then none
    else if c == '-' then readFlags flags (c :: seen) true rest
    else if "imsURux".toList.contains c then
      readFlags (flags.set c !negated) (c :: seen) negated rest
    else none

def isNameChar (c : Char) : Bool :=
  c == '_' || c == '.' || c == '[' || c == ']' || Text.isAlphabetic c || Text.isNumeric c

def readName (flags : Flags) (cs : List Char) : Option Opening :=
  let name := cs.takeWhile isNameChar
  let startsWell := name.head?.any fun c => c == '_' || Text.isAlphabetic c
  match cs.drop name.length with
  | '>' :: rest =>
    if startsWell then some { flags := flags, isBare := false, name := some name, rest := rest }
    else none
  | _ => none

def readOpening (flags : Flags) (cs : List Char) : Option Opening :=
  match cs with
  | '?' :: 'P' :: '<' :: rest => readName flags rest
  | '?' :: '<' :: rest => readName flags rest
  | '?' :: rest => readFlags flags [] false rest
  | rest => some { flags := flags, isBare := false, rest := rest }

def nestingLimit : Nat := 250

/-- Reads an expression. `outer` has the flags around each open group, `names` those of the groups so
far; `canRepeat` tells whether there is something to repeat. -/
def check : Nat → Flags → List Flags → List (List Char) → Bool → List Char → Bool
  | 0, _, _, _, _, _ => false
  | _, _, outer, _, _, [] => outer.isEmpty
  | fuel + 1, flags, outer, names, canRepeat, c :: rest =>
    let next (canRepeat : Bool) (rest : List Char) : Bool :=
      check fuel flags outer names canRepeat rest
    if flags.skipsBlanks && c.isWhitespace then next canRepeat rest
    else if flags.skipsBlanks && c == '#' then next canRepeat (rest.dropWhile (· != '\n'))
    else if c == '|' then next false rest
    else if c == '*' || c == '+' || c == '?' then
      if canRepeat then next true (if rest.head? == some '?' then rest.tail else rest) else false
    else if c == '\x7b' then false
    else if c == '\\' then
      match escape flags rest with
      | some (.class isUnicode, rest) => isUnicode && next true rest
      | some (_, rest) => next true rest
      | none => false
    else if c == '[' then
      match (classStart flags rest).bind (classes flags (rest.length + 1) 1) with
      | some rest => next true rest
      | none => false
    else if c == '(' then
      match readOpening flags rest with
      | none => false
      | some o =>
        if o.isBare then check fuel o.flags outer names false o.rest
        else if nestingLimit ≤ outer.length || o.name.any names.contains then false
        else check fuel o.flags (flags :: outer) (o.name.toList ++ names) false o.rest
    else if c == ')' then
      match outer with
      | [] => false
      | around :: outer => check fuel around outer names true rest
    else if c == '.' && !flags.unicode then false
    else next true rest

def isSignedNumber (cs : List Char) : Bool :=
  match cs with
  | '+' :: body =>
    let lower := String.ofList (body.map Char.toLower)
    let digits := body.takeWhile Char.isDigit
    let rest := body.drop digits.length
    let places := if rest.head? == some '.' then rest.tail.takeWhile Char.isDigit else []
    let rest := if rest.head? == some '.' then rest.tail.drop places.length else rest
    let exponentGood :=
      match rest with
      | [] => true
      | e :: r =>
        let r := if r.head? == some '+' || r.head? == some '-' then r.tail else r
        (e == 'e' || e == 'E') && !r.isEmpty && r.all Char.isDigit
    ["inf", "infinity", "nan"].contains lower ||
      (!(digits.isEmpty && places.isEmpty) && exponentGood)
  | _ => false

/-- Whether a value of a field can be matched. -/
def isValid (value : List Char) : Bool :=
  isSignedNumber value || check (value.length + 1) {} [] [] false value

end JavaAtlas.Log.FieldPattern
