import JavaAtlas.Parsing.Recovery

/-!
# Reading a text

All heads are moved on token by token. Heads that do worse than others are given up, and heads that
have come to the same place are joined. The text is read when no head can give a better tree any
more.
-/

namespace JavaAtlas.Parsing

set_option autoImplicit false

variable (t : Table) (src : Source)

inductive Outcome
  | done
  /-- Phrases were completed first, the last of them on some new head. -/
  | completed (head : Option Nat)

/-- Does what a state asks for before a token. -/
def perform (v state : Nat) (token : Subtree) :
    List Action → Option Nat → Reading Outcome
  | [], fresh => return .completed fresh
  | a :: rest, fresh =>
    match a with
    | .shift target isRow => do
      if isRow then perform v state token rest fresh
      else
        modifyStack (·.push v (some (token.asExtra false)) target)
        return .done
    | .extra => do
      modifyStack (·.push v (some (token.asExtra true)) state)
      return .done
    | .reduce r => do
      let w ← reduce t v (t.reductionAt r)
      perform v state token rest (w.or fresh)
    | .accept => do
      accept t v token
      return .done
    | .recover => do
      recover t v token
      return .done

/-- Reads a token on head `v`, after completing what ends before it. A keyword that does not fit is
taken for a word. -/
def readToken (v : Nat) : Nat → Subtree → Reading Unit
  | 0, _ => return ()
  | fuel + 1, token => do
    let state ← stateOf v
    let actions := if token.isError then [] else t.actions state token.tokenOf
    match ← perform t v state token actions none with
    | .done => return ()
    | .completed (some w) =>
      modifyStack (·.moveHead w v)
      readToken v fuel token
    | .completed none =>
      let symbol := token.tokenOf
      let isKeyword := t.keywords.any fun _ k => k == symbol
      if !token.isError && isKeyword && !(t.actions state Grammar.wordSymbol).isEmpty then
        readToken v fuel
          (token.modifyInfo ({ · with symbol := .symbol Grammar.wordSymbol }))
      else if state == 0 then recover t v token
      else
        modifyStack (·.pause v token)

def advance (fuel v : Nat) : Reading Unit := do
  let position ← positionOf v
  let state ← stateOf v
  let token := Subtree.ofLexed src position (t.lex src state position.chars)
  readToken t v fuel token

/-- Moves head `v` on until it is past `last`, or as far as an earlier head. -/
def advancePast (limit v : Nat) : Nat → Nat → Reading Nat
  | 0, last => return last
  | fuel + 1, last => do
    if ← isActiveHead v then
      advance t src limit v
      let here := (← positionOf v).bytes
      if last < here || (v > 0 && here == last) then return here
      advancePast limit v fuel last
    else return last

def advanceAll (limit : Nat) : Nat → Nat → Nat → Reading Nat
  | 0, _, last => return last
  | fuel + 1, v, last => do
    if v < (← headCount) then
      let last ← advancePast t src limit v limit last
      advanceAll limit fuel (v + 1) last
    else return last

/-! ## Giving heads up -/

/-- Compares head `i` with the heads from `j` on before it. Gives the next head to look at. -/
def compareEarlier (mine : Standing) : Nat → Nat → Nat → Reading Nat
  | 0, i, _ => return i + 1
  | fuel + 1, i, j => do
    if i ≤ j then return i + 1
    let other ← standing j
    match other.compare mine with
    | .takeFirst =>
      modifyStack (·.remove i)
      return i
    | .preferFirst | .neither =>
      if ← joinInto i [j] then return i
      compareEarlier mine fuel i (j + 1)
    | .preferSecond =>
      if ← joinInto i [j] then return i
      modifyStack fun s => { s with heads := s.heads.swapIfInBounds i j }
      compareEarlier mine fuel i (j + 1)
    | .takeSecond =>
      modifyStack (·.remove j)
      compareEarlier mine fuel (i - 1) j

def lowerCost (best : Option Nat) (cost : Nat) : Option Nat := some ((best.map (min cost)).getD cost)

def compareHeads : Nat → Nat → Option Nat → Reading (Option Nat)
  | 0, _, best => return best
  | fuel + 1, i, best => do
    let s ← getStack
    let count := s.heads.size
    if count ≤ i then return best
    if (s.head i).isHalted then
      modifyStack (·.remove i)
      compareHeads fuel i best
    else
      let mine ← standing i
      let next ← compareEarlier mine (count + 1) i 0
      compareHeads fuel next (if mine.isLost then best else lowerCost best mine.cost)

/-- Lets a paused head go on if there is no other, and gives the others up. -/
def resume : Nat → Nat → Nat → Bool → Option Nat → Reading (Option Nat)
  | 0, _, _, _, best => return best
  | fuel + 1, i, n, hasActive, best => do
    if n ≤ i then return best
    let m ← get
    match (m.stack.head i).status with
    | .paused token =>
      if !hasActive && m.accepted < maxHeads then
        let cost := m.stack.costOf i
        modifyStack (·.setStatus i .active)
        handleMistake t i token
        resume fuel (i + 1) n true (some cost)
      else
        modifyStack (·.remove i)
        resume fuel i (n - 1) hasActive best
    | _ => resume fuel (i + 1) n true best

/-- Gives up heads that do worse than others. Gives the least cost there is. -/
def condense : Reading (Option Nat) := do
  let count ← headCount
  let best ← compareHeads (2 * count + 2) 0 none
  modifyStack fun s => { s with heads := s.heads.extract 0 maxHeads }
  let count ← headCount
  resume t (2 * count + 2) 0 count false best

/-- Reads on until no head is left, or the best tree cannot be bettered. -/
def readOn (limit : Nat) : Nat → Nat → Reading Unit
  | 0, _ => return ()
  | fuel + 1, last => do
    let last ← advanceAll t src limit limit 0 last
    let best ← condense t
    let m ← get
    let isBest := m.finished.any fun tree => best.all fun cost => tree.cost < cost
    if !isBest && m.stack.heads.size > 0 then readOn limit fuel last

/-- More steps than reading a text takes. -/
def Source.stepLimit (s : Source) : Nat := 256 * (s.size + 64)

def Table.read (t : Table) (s : Source) : Subtree :=
  let m := ((readOn t s s.stepLimit s.stepLimit 0).run {}).2
  m.finished.getD (Subtree.branch t .error 0 [])

end JavaAtlas.Parsing
