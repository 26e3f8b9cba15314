import JavaAtlas.Parsing.Table

/-!
# Tokens of a text

A text is read by the classes of its characters. In each state of a reader the next token is the
longest one looked for there. Where there is none, any token will do; where there is none either,
characters are passed over up to the next token.
-/

namespace JavaAtlas.Parsing

set_option autoImplicit false

structure Extent where
  chars : Nat := 0
  bytes : Nat := 0
  lines : Nat := 0
deriving DecidableEq, Inhabited

namespace Extent

instance : Add Extent := ⟨fun a b => ⟨a.chars + b.chars, a.bytes + b.bytes, a.lines + b.lines⟩⟩

instance : Sub Extent := ⟨fun a b => ⟨a.chars - b.chars, a.bytes - b.bytes, a.lines - b.lines⟩⟩

def ofChar (c : Char) : Extent := ⟨1, c.utf8Size, if c == '\n' then 1 else 0⟩

end Extent

structure Source where
  chars : Array Char
  classes : Array Nat
  /-- The extents of the first characters, from none of them to all. -/
  extents : Array Extent

namespace Source

def ofString (s : String) : Source :=
  let chars := s.toList.toArray
  { chars := chars
    classes := chars.map classOf
    extents := chars.foldl (fun all c => all.push (all.back?.getD {} + Extent.ofChar c)) #[{}] }

def size (s : Source) : Nat := s.chars.size

def before (s : Source) (i : Nat) : Extent := s.extents.getD i default

def slice (s : Source) (start stop : Nat) : String := .ofList (s.chars.extract start stop).toList

/-- A mark of the byte order at the start of the text is not part of it. -/
def skipMark (s : Source) (i : Nat) : Nat :=
  if i == 0 && s.chars[0]? == some '\ufeff' then 1 else i

end Source

structure Scan where
  /-- The token, and where it ends. -/
  found : Option (Nat × Nat)
  start : Nat
  reach : Nat

structure Lexed where
  symbol : Option Nat
  start : Nat
  stop : Nat

namespace Table

variable (t : Table) (s : Source)

def scanFrom : Nat → Nat → Nat → Nat → Option (Nat × Nat) → Scan
  | 0, _, start, i, found => ⟨found, start, i⟩
  | fuel + 1, state, start, i, found =>
    let ls := t.lexStates.getD state default
    let found := (ls.accepts.map fun symbol => (symbol, i)).or found
    match s.classes[i]? with
    | none =>
      if ls.acceptsEnd then ⟨some (Grammar.endSymbol, i), start, i⟩ else ⟨found, start, i⟩
    | some c =>
      match ls.next.getD c none with
      | none => ⟨found, start, i⟩
      | some (next, isBlank) =>
        scanFrom fuel next (if isBlank then i + 1 else start) (i + 1) found

def scan (state i : Nat) : Scan :=
  let i := s.skipMark i
  t.scanFrom s (s.size - i + 1) (t.lexStarts.getD state 0) i i none

def passOver : Nat → Nat → Nat → Nat
  | 0, stop, _ => stop
  | fuel + 1, stop, i =>
    let r := t.scan s 0 i
    if r.found.isSome then stop
    else if r.reach != stop then passOver fuel r.reach r.reach
    else if s.size ≤ stop then stop
    else passOver fuel (stop + 1) (stop + 1)

/-- A keyword is told from other words by its text, where it is looked for. -/
def keywordOf (state symbol start stop : Nat) : Nat :=
  if symbol != Grammar.wordSymbol then symbol
  else
    match t.keywords[s.slice start stop]? with
    | some k => if (t.actions state k).isEmpty then symbol else k
    | none => symbol

def lex (state i : Nat) : Lexed :=
  let r := t.scan s state i
  let r := if r.found.isNone then t.scan s 0 i else r
  match r.found with
  | some (symbol, stop) =>
    let start := min r.start stop
    ⟨some (t.keywordOf s state symbol start stop), start, stop⟩
  | none => ⟨none, r.start, t.passOver s (s.size + 1) r.start i⟩

end Table

end JavaAtlas.Parsing
