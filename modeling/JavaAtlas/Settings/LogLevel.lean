import JavaAtlas.Settings.FieldPattern
import JavaAtlas.Text.Blank
import JavaAtlas.Text.Identifier
import JavaAtlas.Text.Split

/-!
# How much is logged

A filter is a list of directives `level`, `target=level` or `target[span]=level`. What bounds the
output is the most verbose level among them.
-/

namespace JavaAtlas.Log

set_option autoImplicit false

inductive Level
  | off
  | error
  | warn
  | info
  | debug
  | trace
deriving DecidableEq

namespace Level

def rank : Level → Nat
  | off => 0
  | error => 1
  | warn => 2
  | info => 3
  | debug => 4
  | trace => 5

def name : Level → String
  | off => "OFF"
  | error => "ERROR"
  | warn => "WARN"
  | info => "INFO"
  | debug => "DEBUG"
  | trace => "TRACE"

def all : List Level := [off, error, warn, info, debug, trace]

def max (a b : Level) : Level := if a.rank < b.rank then b else a

def ofText? (s : String) : Option Level :=
  let digits := match s.toList with | '+' :: r => r | r => r
  if !digits.isEmpty && digits.all Char.isDigit then
    let n := digits.foldl (fun n c => n * 10 + (c.toNat - 48)) 0
    all.find? fun l => l.rank == n
  else if s = "" then some error
  else all.find? fun l => l.name == s.map Char.toUpper

end Level

/-- One directive: its level, and whether it looks at the values of span fields. -/
structure Directive where
  level : Level
  looksAtValues : Bool := false

/-- How far a directive has been read. A number is the place where the current part began. -/
inductive Reading
  | start
  | levelOrTarget (since : Nat)
  | span
  | field (since : Nat)
  | fields
  | target
  | level (since : Nat)

/-- A field pattern is a name, or a name and a value. -/
def hasValue (field : List Char) : Bool := field.contains '='

/-- The value in a field pattern ends at a further sign of equality. -/
def valueOf (field : List Char) : List Char :=
  ((field.dropWhile (· != '=')).drop 1).takeWhile (· != '=')

/-- A field pattern is not empty, and its value can be matched. -/
def isFieldPattern (field : List Char) : Bool :=
  !field.isEmpty && (!hasValue field || FieldPattern.isValid (valueOf field))

/-- One character of the directive `text`, the `i`th; `none` when it cannot stand there. -/
def Reading.step (text : List Char) (i : Nat) (values : Bool) :
    Reading → Char → Option (Reading × Bool)
  | .start, c =>
    if c == '[' then some (.span, values)
    else if ['-', ':', '_'].contains c || Text.isAlphabetic c || Text.isNumeric c then
      some (.levelOrTarget i, values)
    else none
  | .levelOrTarget since, c =>
    if c == '=' then some (.level (i + 1), values)
    else if c == '[' then some (.span, values)
    else some (.levelOrTarget since, values)
  | .span, c =>
    if c == ']' then some (.target, values)
    else if c == '\x7b' then some (.field (i + 1), values)
    else some (.span, values)
  | .field since, c =>
    if c == '\x7d' then
      let read := (text.take i).drop since
      if isFieldPattern read then some (.fields, values || hasValue read) else none
    else some (.field since, values)
  | .fields, c => if c == ']' then some (.target, values) else none
  | .target, c => if c == '=' then some (.level (i + 1), values) else none
  | .level since, _ => some (.level since, values)

def readAll (text : List Char) : Nat → Reading → Bool → List Char → Option (Reading × Bool)
  | _, r, values, [] => some (r, values)
  | i, r, values, c :: cs =>
    match r.step text i values c with
    | none => none
    | some (r', values') => readAll text (i + 1) r' values' cs

/-- A directive as written. Blanks around it are passed over to find its parts, but they count in
the text of a part, so a level next to a blank is no level. A name that is no level is a target, of
which everything is logged. -/
def Directive.parse? (text : String) : Option Directive := do
  let written := text.toList
  let (reading, looksAtValues) ← readAll written 0 .start false (Text.trim written)
  match reading with
  | .levelOrTarget since =>
    return ⟨(Level.ofText? (String.ofList (written.drop since))).getD .trace, looksAtValues⟩
  | .level since =>
    match written.drop since with
    | [] => return ⟨.trace, looksAtValues⟩
    | read => do return ⟨← Level.ofText? (String.ofList read), looksAtValues⟩
  | .target => return ⟨.trace, looksAtValues⟩
  | _ => none

def parseFilter? (text : String) : Option (List Directive) :=
  ((Text.split ',' text).filter (· ≠ "")).mapM Directive.parse?

/-- The most verbose level of a filter. A filter on values must see everything. -/
def maxLevel (filter : List Directive) : Level :=
  if filter.any (·.looksAtValues) then .trace
  else (filter.map (·.level)).foldl Level.max .off

/-- The filter text for a configured level: a plain level name in any case is taken at its word. -/
def normalizeDirectives (input : String) : String :=
  let trimmed := String.ofList (Text.trim input.toList)
  let lower := trimmed.map Char.toLower
  if trimmed = "" then "info"
  else if ["trace", "debug", "info", "warn", "error", "off"].contains lower then lower
  else if lower = "warning" then "warn"
  else trimmed

def configuredLevel (level : String) : Level :=
  match parseFilter? (normalizeDirectives level) with
  | some filter => maxLevel filter
  | none => .info

/-- The bound when the environment may add directives of its own. If the two together make no
filter, the environment's alone counts, and failing that the configured one. -/
def effectiveLevel (level : String) (environment : Option String) : Level :=
  let extra := String.ofList (Text.trim (environment.getD "").toList)
  if extra = "" then configuredLevel level
  else
    match parseFilter? (normalizeDirectives level ++ "," ++ extra) with
    | some filter => maxLevel filter
    | none =>
      match parseFilter? extra with
      | some filter => maxLevel filter
      | none => configuredLevel level

end JavaAtlas.Log
