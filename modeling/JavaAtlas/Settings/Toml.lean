/-!
# Reading TOML

A document is read line by line into one table. Headers open tables, dotted keys make tables of
their own, and a name is defined once: a table that a header or an inline value closed is not
extended by dotted keys, and a table of dotted keys is not reopened by a header.
-/

namespace JavaAtlas.Toml

set_option autoImplicit false

inductive Origin
  /-- Opened by its own header. -/
  | header
  /-- Passed through by the header of a table below it. -/
  | passed
  /-- Made by a dotted key. -/
  | dotted
  /-- Written between braces. -/
  | inlined
deriving DecidableEq

inductive Value
  | text (s : String)
  | whole (n : Int)
  | real
  | flag (b : Bool)
  | moment
  | array (items : List Value)
  | table (origin : Origin) (entries : List (String × Value))
  | tables (items : List (List (String × Value)))

abbrev Entries := List (String × Value)

def lookup (entries : Entries) (key : String) : Option Value :=
  (entries.find? fun e => e.1 == key).map (·.2)

def replace (entries : Entries) (key : String) (v : Value) : Entries :=
  entries.map fun e => if e.1 == key then (key, v) else e

/-- Defines a dotted key below `entries`. The table that the last part goes to is one of dotted keys,
unless there is one part only. The last table of an array of tables stands for the array. -/
def define (value : Value) : List String → Entries → Option Entries
  | [], _ => none
  | [key], entries =>
    match lookup entries key with
    | none => some (entries ++ [(key, value)])
    | some _ => none
  | key :: rest, entries =>
    match lookup entries key with
    | none => (define value rest []).map fun inner => entries ++ [(key, .table .dotted inner)]
    | some (.table .dotted inner) =>
      (define value rest inner).map fun inner => replace entries key (.table .dotted inner)
    | some (.table .passed inner) =>
      if rest.length == 1 then none
      else (define value rest inner).map fun inner => replace entries key (.table .passed inner)
    | some (.tables items) =>
      match items.getLast? with
      | none => none
      | some inner =>
        if rest.length == 1 then none
        else
          (define value rest inner).map fun inner =>
            replace entries key (.tables (items.dropLast ++ [inner]))
    | some _ => none

/-- Changes the table that a header path leads to. The last table of an array of tables stands for
the array. -/
def modifyTable (change : Entries → Option Entries) : List String → Entries → Option Entries
  | [], entries => change entries
  | key :: rest, entries =>
    match lookup entries key with
    | none => (modifyTable change rest []).map fun inner => entries ++ [(key, .table .passed inner)]
    | some (.table .inlined _) => none
    | some (.table origin inner) =>
      (modifyTable change rest inner).map fun inner => replace entries key (.table origin inner)
    | some (.tables items) =>
      match items.getLast? with
      | none => none
      | some inner =>
        (modifyTable change rest inner).map fun inner =>
          replace entries key (.tables (items.dropLast ++ [inner]))
    | some _ => none

def openTable (key : String) (entries : Entries) : Option Entries :=
  match lookup entries key with
  | none => some (entries ++ [(key, .table .header [])])
  | some (.table .passed inner) => some (replace entries key (.table .header inner))
  | some _ => none

def openArray (key : String) (entries : Entries) : Option Entries :=
  match lookup entries key with
  | none => some (entries ++ [(key, .tables [[]])])
  | some (.tables items) => some (replace entries key (.tables (items ++ [[]])))
  | some _ => none

/-! ## Characters -/

abbrev Reader := StateT (List Char) Option

def peek : Reader (Option Char) := do return (← get).head?

def skip : Reader Unit := do set (← get).tail

def expect (text : String) : Reader Unit := do
  let cs ← get
  if text.toList.isPrefixOf cs then set (cs.drop text.length) else failure

def looksAt (text : String) : Reader Bool := do return text.toList.isPrefixOf (← get)

def takeWhile (p : Char → Bool) : Reader (List Char) := do
  let cs ← get
  set (cs.dropWhile p)
  return cs.takeWhile p

def skipSpaces : Reader Unit := do let _ ← takeWhile fun c => c == ' ' || c == '\t'

/-- Characters that may stand in comments and strings. -/
def isPlain (c : Char) : Bool := c == '\t' || (c.toNat ≥ 0x20 && c.toNat != 0x7F)

def skipComment : Reader Unit := do
  if (← peek) == some '#' then
    skip
    let _ ← takeWhile isPlain

/-- A line end, or the end of the text. -/
def lineEnd : Reader Unit := do
  match (← get) with
  | [] => pure ()
  | '\n' :: rest => set rest
  | '\r' :: '\n' :: rest => set rest
  | _ => failure

/-- Blanks, line ends and comments between the items of an array; `fuel` bounds the lines. -/
def skipLines : Nat → Reader Unit
  | 0 => failure
  | fuel + 1 => do
    skipSpaces
    skipComment
    match (← get) with
    | '\n' :: rest => set rest; skipLines fuel
    | '\r' :: '\n' :: rest => set rest; skipLines fuel
    | _ => pure ()

/-! ## Strings and keys -/

def isHexDigit (c : Char) : Bool := c.isDigit || ('a' ≤ c && c ≤ 'f') || ('A' ≤ c && c ≤ 'F')

def hexDigitValue (c : Char) : Nat :=
  if c.isDigit then c.toNat - 48 else if 'a' ≤ c then c.toNat - 87 else c.toNat - 55

/-- The scalar value written by exactly `n` hexadecimal digits. -/
def codePoint (n : Nat) : Reader Char := do
  let cs ← get
  let digits := cs.take n
  if digits.length == n && digits.all isHexDigit then
    let value := digits.foldl (fun v c => v * 16 + hexDigitValue c) 0
    if value.isValidChar then
      set (cs.drop n)
      return Char.ofNat value
    else failure
  else failure

def escape : Reader Char := do
  match (← peek) with
  | some 'b' => skip; return Char.ofNat 8
  | some 't' => skip; return '\t'
  | some 'n' => skip; return '\n'
  | some 'f' => skip; return Char.ofNat 12
  | some 'r' => skip; return '\r'
  | some '"' => skip; return '"'
  | some '\\' => skip; return '\\'
  | some 'u' => skip; codePoint 4
  | some 'U' => skip; codePoint 8
  | _ => failure

def basicString : Nat → Reader (List Char)
  | 0 => failure
  | fuel + 1 => do
    match (← peek) with
    | some '"' => skip; return []
    | some '\\' => do
      skip
      let c ← escape
      return c :: (← basicString fuel)
    | some c => if isPlain c then do skip; return c :: (← basicString fuel) else failure
    | none => failure

def literalString : Reader (List Char) := do
  let cs ← takeWhile fun c => isPlain c && c != '\''
  expect "'"
  return cs

/-- The quotes that end a string of several lines: three close it, and up to two before them belong
to the text. -/
def closingQuotes (quote : Char) : Reader (Option (List Char)) := do
  let cs ← get
  let run := (cs.takeWhile (· == quote)).length
  if run < 3 then return none
  else
    let kept := min (run - 3) 2
    set (cs.drop (kept + 3))
    return some (List.replicate kept quote)

/-- Blanks and line ends after a backslash at the end of a line. -/
def foldLines : Nat → Reader Unit
  | 0 => failure
  | fuel + 1 => do
    match (← get) with
    | ' ' :: rest | '\t' :: rest | '\n' :: rest => set rest; foldLines fuel
    | '\r' :: '\n' :: rest => set rest; foldLines fuel
    | _ => pure ()

def blockString (escapes : Bool) (quote : Char) : Nat → Reader (List Char)
  | 0 => failure
  | fuel + 1 => do
    match (← get) with
    | [] => failure
    | '\n' :: rest => set rest; return '\n' :: (← blockString escapes quote fuel)
    | '\r' :: '\n' :: rest => set rest; return '\n' :: (← blockString escapes quote fuel)
    | c :: rest =>
      if c == quote then
        match (← closingQuotes quote) with
        | some kept => return kept
        | none => set rest; return c :: (← blockString escapes quote fuel)
      else if escapes && c == '\\' then
        set rest
        let blanks := rest.takeWhile fun c => c == ' ' || c == '\t'
        match rest.drop blanks.length with
        | '\n' :: _ | '\r' :: '\n' :: _ => do
          foldLines rest.length
          blockString escapes quote fuel
        | _ => do
          let c ← escape
          return c :: (← blockString escapes quote fuel)
      else if isPlain c then
        set rest
        return c :: (← blockString escapes quote fuel)
      else failure

/-- A line end right behind the opening quotes does not count. -/
def blockBody (escapes : Bool) (quote : Char) : Reader String := do
  match (← get) with
  | '\n' :: rest => set rest
  | '\r' :: '\n' :: rest => set rest
  | _ => pure ()
  return String.ofList (← blockString escapes quote ((← get).length + 1))

def string : Reader String := do
  if (← looksAt "\"\"\"") then expect "\"\"\""; blockBody true '"'
  else if (← looksAt "'''") then expect "'''"; blockBody false '\''
  else if (← looksAt "\"") then
    skip
    return String.ofList (← basicString ((← get).length + 1))
  else if (← looksAt "'") then
    skip
    return String.ofList (← literalString)
  else failure

def isKeyChar (c : Char) : Bool := c.isAlphanum || c == '_' || c == '-'

def simpleKey : Reader String := do
  match (← peek) with
  | some '"' => skip; return String.ofList (← basicString ((← get).length + 1))
  | some '\'' => skip; return String.ofList (← literalString)
  | _ =>
    let cs ← takeWhile isKeyChar
    if cs.isEmpty then failure else return String.ofList cs

def nestingLimit : Nat := 80

/-- A key and the keys after further dots; `fuel` bounds their number. -/
def keyParts : Nat → Reader (List String)
  | 0 => failure
  | fuel + 1 => do
    skipSpaces
    let key ← simpleKey
    skipSpaces
    if (← peek) == some '.' then
      skip
      return key :: (← keyParts fuel)
    else return [key]

def dottedKey : Reader (List String) := keyParts (nestingLimit - 1)

/-! ## Numbers and dates -/

/-- Digits with single underscores between them. -/
def digitsOf? (isDigit : Char → Bool) (cs : List Char) : Option (List Char) :=
  let good := cs.head?.any isDigit && cs.getLast?.any isDigit &&
    cs.all (fun c => isDigit c || c == '_') &&
    (cs.zip cs.tail).all fun e => !(e.1 == '_' && e.2 == '_')
  if good then some (cs.filter (· != '_')) else none

def numberIn (base : Nat) (digits : List Char) : Nat :=
  digits.foldl (fun n c => n * base + hexDigitValue c) 0

def inRange (n : Int) : Bool := -9223372036854775808 ≤ n && n ≤ 9223372036854775807

def whole? (cs : List Char) : Option Value :=
  let (negative, signed, body) :=
    match cs with
    | '-' :: r => (true, true, r)
    | '+' :: r => (false, true, r)
    | r => (false, false, r)
  let value? : Option Int :=
    match body with
    | '0' :: 'x' :: r =>
      if signed then none else (digitsOf? isHexDigit r).map fun d => Int.ofNat (numberIn 16 d)
    | '0' :: 'o' :: r =>
      if signed then none
      else (digitsOf? (fun c => '0' ≤ c && c ≤ '7') r).map fun d => Int.ofNat (numberIn 8 d)
    | '0' :: 'b' :: r =>
      if signed then none
      else (digitsOf? (fun c => c == '0' || c == '1') r).map fun d => Int.ofNat (numberIn 2 d)
    | ['0'] => some 0
    | '0' :: _ => none
    | r =>
      (digitsOf? Char.isDigit r).map fun d =>
        let n := Int.ofNat (numberIn 10 d)
        if negative then -n else n
  value?.bind fun n => if inRange n then some (.whole n) else none

/-- The least whole number that rounds to infinity: half a step beyond the largest real, which is
`2 ^ 1024 - 2 ^ 971`. -/
def overflowBound : Nat := (1 <<< 1024) - (1 <<< 970)

/-- Whether `digits`, taken as a whole number times ten to the `exponent`, is too large for a real. -/
def overflows (digits : List Char) (exponent : Int) : Bool :=
  let digits := digits.dropWhile (· == '0')
  let places : Int := digits.length + exponent
  if digits.isEmpty || places < 300 then false
  else if places > 320 then true
  else
    let n := numberIn 10 digits
    if exponent < 0 then overflowBound * Nat.pow 10 exponent.natAbs ≤ n
    else overflowBound ≤ n * Nat.pow 10 exponent.natAbs

def exponentOf (cs : List Char) : Int :=
  match cs with
  | '-' :: r => -(numberIn 10 (r.filter (· != '_')) : Int)
  | '+' :: r | r => numberIn 10 (r.filter (· != '_'))

/-- Whether the characters are a number with a fraction or an exponent, or one of the named ones. A
number that rounds to infinity is none, only its negative is. -/
def isReal (cs : List Char) : Bool :=
  let body := match cs with | '-' :: r | '+' :: r => r | r => r
  if body == "inf".toList || body == "nan".toList then true
  else
    let mantissa := body.takeWhile fun c => c != 'e' && c != 'E'
    let exponent := body.drop mantissa.length
    let lead := mantissa.takeWhile (· != '.')
    let fraction := mantissa.drop lead.length
    let leadGood := lead == ['0'] ||
      (lead.head? != some '0' && (digitsOf? Char.isDigit lead).isSome)
    let fractionGood :=
      match fraction with
      | [] => true
      | _ :: r => (digitsOf? Char.isDigit r).isSome
    let exponentGood :=
      match exponent with
      | [] => true
      | _ :: '+' :: r | _ :: '-' :: r | _ :: r => (digitsOf? Char.isDigit r).isSome
    let places := fraction.filter Char.isDigit
    let fits := cs.head? == some '-' ||
      !overflows (lead.filter Char.isDigit ++ places) (exponentOf exponent.tail - places.length)
    leadGood && fractionGood && exponentGood && !(fraction.isEmpty && exponent.isEmpty) && fits

/-- The number written by exactly the given characters, when they are digits. -/
def field? (cs : List Char) : Option Nat :=
  if !cs.isEmpty && cs.all Char.isDigit then some (numberIn 10 cs) else none

def isDate (cs : List Char) : Bool :=
  match cs with
  | [a, b, c, d, '-', e, f, '-', g, h] =>
    match field? [a, b, c, d], field? [e, f], field? [g, h] with
    | some year, some month, some day =>
      let leap := year % 4 == 0 && (year % 100 != 0 || year % 400 == 0)
      let last :=
        if month == 2 then (if leap then 29 else 28)
        else if [4, 6, 9, 11].contains month then 30 else 31
      1 ≤ month && month ≤ 12 && 1 ≤ day && day ≤ last
    | _, _, _ => false
  | _ => false

def isTime (cs : List Char) : Bool :=
  match cs with
  | a :: b :: ':' :: c :: d :: ':' :: e :: f :: rest =>
    let fraction :=
      match rest with
      | [] => true
      | '.' :: r => (field? r).isSome
      | _ => false
    match field? [a, b], field? [c, d], field? [e, f] with
    | some hour, some minute, some second =>
      hour ≤ 23 && minute ≤ 59 && second ≤ 60 && fraction
    | _, _, _ => false
  | _ => false

def isOffset (cs : List Char) : Bool :=
  match cs with
  | [] | ['Z'] | ['z'] => true
  | [sign, a, b, ':', c, d] =>
    (sign == '+' || sign == '-') &&
      (field? [a, b]).any (· ≤ 23) && (field? [c, d]).any (· ≤ 59)
  | _ => false

def isMoment (cs : List Char) : Bool :=
  if isDate cs || isTime cs then true
  else
    let separated := (cs.drop 10).head?.any fun c => c == 'T' || c == 't' || c == ' '
    let clock := cs.drop 11
    let time := clock.takeWhile fun c => c.isDigit || c == ':' || c == '.'
    separated && isDate (cs.take 10) && isTime time && isOffset (clock.drop time.length)

/-- The characters of a bare value: a date may be parted from its time by one space. -/
def bareWord : Reader (List Char) := do
  let part (c : Char) : Bool :=
    c.isAlphanum || c == '_' || c == '+' || c == '-' || c == '.' || c == ':'
  let first ← takeWhile part
  let cs ← get
  if isDate first && cs.head? == some ' ' && (cs.drop 1).head?.any Char.isDigit then
    skip
    return first ++ ' ' :: (← takeWhile part)
  else return first

def bareValue : Reader Value := do
  let cs ← bareWord
  if cs == "true".toList then return .flag true
  else if cs == "false".toList then return .flag false
  else if isMoment cs then return .moment
  else if let some v := whole? cs then return v
  else if isReal cs then return .real
  else failure

/-! ## Values and lines -/

mutual

def value : Nat → Nat → Reader Value
  | 0, _ => failure
  | fuel + 1, depth => do
    match (← peek) with
    | some '"' | some '\'' => return .text (← string)
    | some '[' => do
      if nestingLimit ≤ depth + 1 then failure
      skip
      return .array (← items fuel (depth + 1))
    | some '\x7b' => do
      if nestingLimit ≤ depth + 1 then failure
      skip
      skipSpaces
      if (← peek) == some '\x7d' then skip; return .table .inlined []
      else return .table .inlined (← pairs fuel (depth + 1) [])
    | _ => bareValue

def items : Nat → Nat → Reader (List Value)
  | 0, _ => failure
  | fuel + 1, depth => do
    skipLines ((← get).length + 1)
    if (← peek) == some ']' then skip; return []
    else
      let v ← value fuel depth
      skipLines ((← get).length + 1)
      match (← peek) with
      | some ',' => skip; return v :: (← items fuel depth)
      | some ']' => skip; return [v]
      | _ => failure

def pairs : Nat → Nat → Entries → Reader Entries
  | 0, _, _ => failure
  | fuel + 1, depth, entries => do
    let key ← dottedKey
    expect "="
    skipSpaces
    let v ← value fuel depth
    let entries ← (define v key entries : Option Entries)
    skipSpaces
    match (← peek) with
    | some ',' => skip; pairs fuel depth entries
    | some '\x7d' => skip; return entries
    | _ => failure

end

structure Document where
  root : Entries := []
  current : List String := []

def restOfLine : Reader Unit := do skipSpaces; skipComment; lineEnd

def header (doc : Document) : Reader Document := do
  let array ← looksAt "[["
  expect (if array then "[[" else "[")
  let path ← dottedKey
  expect (if array then "]]" else "]")
  restOfLine
  match path.getLast? with
  | none => failure
  | some last =>
    let change := if array then openArray last else openTable last
    let root ← (modifyTable change path.dropLast doc.root : Option Entries)
    return { root, current := path }

def assignment (doc : Document) : Reader Document := do
  let key ← dottedKey
  expect "="
  skipSpaces
  let v ← value ((← get).length + 1) 0
  restOfLine
  let root ← (modifyTable (define v key) doc.current doc.root : Option Entries)
  return { doc with root }

def lines : Nat → Document → Reader Document
  | 0, doc => return doc
  | fuel + 1, doc => do
    skipSpaces
    match (← peek) with
    | none => return doc
    | some '#' => restOfLine; lines fuel doc
    | some '\n' | some '\r' => lineEnd; lines fuel doc
    | some '[' => do lines fuel (← header doc)
    | some _ => do lines fuel (← assignment doc)

def parse? (text : String) : Option Entries :=
  let cs := text.toList
  let cs := if cs.head? == some (Char.ofNat 0xFEFF) then cs.tail else cs
  ((lines (cs.length + 1) {}).run cs).map fun r => r.1.root

end JavaAtlas.Toml
