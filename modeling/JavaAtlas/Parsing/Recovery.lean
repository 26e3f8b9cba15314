import JavaAtlas.Parsing.Machine

/-!
# Finding the way back

Where a token does not fit, all phrases that can be completed are. Then a missing token is assumed if
that helps. In any case the reader is lost there, and either goes back to a state in which the token
fits, or passes over the token. What is passed over becomes an error in the tree.
-/

namespace JavaAtlas.Parsing

set_option autoImplicit false

def maxDepth : Nat := 16

def maxCompletions : Nat := 6

variable (t : Table)

def actionsBefore (state token : Nat) : List Action :=
  if token == Grammar.endSymbol then
    (List.range t.tokenCount).tail.flatMap (t.actions state)
  else t.actions state token

/-- Whether an action reads on. -/
def Action.readsOn : Action → Bool
  | .shift _ isRow => !isRow
  | .recover => true
  | _ => false

/-- The phrases that actions complete, one for each symbol and number of parts. -/
def completionsOf (actions : List Action) : List Reduction :=
  let found := actions.filterMap fun
    | .reduce r => some (t.reductionAt r)
    | _ => none
  ((found.filter fun r => r.count > 0).foldl (fun out r =>
    if out.any fun o => o.symbol == r.symbol && o.count == r.count then out else r :: out)
    []).reverse

/-- Completes what can be completed on head `start` and the heads that arise, the first of which is
`first`. Where a token is given, heads that it does not lead on from are removed. Tells whether it
can be read. -/
def completeAll (start token first : Nat) : Nat → Nat → Nat → Bool → Reading Bool
  | 0, _, _, canRead => return canRead
  | fuel + 1, i, v, canRead => do
    let count ← headCount
    if count ≤ v then return canRead
    if ← joinInto v ((List.range v).drop first) then
      completeAll start token first fuel (i + 1) v canRead
    else
      let actions := actionsBefore t (← stateOf v) token
      let reads := actions.any Action.readsOn
      let mut fresh : Option Nat := none
      for r in completionsOf t actions do
        fresh ← reduce t v r
      let next := if v == start then count else v + 1
      if reads then completeAll start token first fuel (i + 1) next true
      else
        match (if i < maxCompletions then fresh else none) with
        | some w =>
          modifyStack (·.moveHead w v)
          completeAll start token first fuel (i + 1) v canRead
        | none =>
          if token != Grammar.endSymbol then modifyStack (·.remove v)
          completeAll start token first fuel (i + 1) next canRead

def completionLimit : Nat := 10000

def completePhrases (v token : Nat) : Reading Bool := do
  let first ← headCount
  completeAll t v token first completionLimit 0 v false

/-- Goes back to a state `depth` trees ago. What was read since becomes an error. -/
def returnTo (v depth goal : Nat) : Reading Bool := do
  let slices ← takeSlices fun s => s.pop v depth
  let mut previous : Option Nat := none
  for slice in slices do
    let w := slice.version
    if previous != some w then
      if (← stateOf w) != goal then modifyStack (·.setStatus w .halted)
      else
        let inside ← takeSlices fun s => s.popError w
        let (trees, extras) := Subtree.splitExtras (inside ++ slice.trees)
        let error := if trees.isEmpty then [] else [(Subtree.branch t .error 0 trees).asExtra true]
        modifyStack fun s => s.pushAll w (error ++ extras) goal
        previous := some w
  return previous.isSome

/-- Tries to go back to a state in which `token` fits. -/
def tryPast (v cost : Nat) (isSettled : Bool) (heads : Nat) (token : Nat) :
    List PastState → Reading Bool
  | [] => return false
  | p :: rest => do
    let s ← getStack
    let here := s.position v
    let isTaken := (List.range heads).any fun w =>
      s.state w == p.state && (s.position w).bytes == here.bytes
    if p.state == 0 || p.position.bytes == here.bytes || isTaken then
      tryPast v cost isSettled heads token rest
    else
      let price := cost + p.depth * costOfTree + costOfText (here - p.position)
      if ← betterExists v price then return false
      if (t.actions p.state token).isEmpty then tryPast v cost isSettled heads token rest
      else if ← returnTo t v (if isSettled then p.depth else p.depth + 1) p.state then return true
      else tryPast v cost isSettled heads token rest

def Stack.keepOnly (s : Stack) (w v : Nat) : Stack :=
  { s with heads := s.heads.extract 0 (w + 1) }.moveHead w v

def passOverToken (v : Nat) (isSettled : Bool) (token : Subtree) : Reading Unit := do
  let passed := Subtree.branch t .passedOver 0 [token]
  if isSettled then modifyStack (·.push v (some passed) 0)
  else
    let slices ← takeSlices fun s => s.pop v 1
    match slices with
    | [] => return ()
    | slice :: _ =>
      let row := Subtree.branch t .passedOver 0 (slice.trees ++ [passed])
      modifyStack (·.keepOnly slice.version v)
      modifyStack (·.push v (some row) 0)

def Subtree.tokenOf (tree : Subtree) : Nat :=
  match tree.symbol with
  | .symbol n => n
  | _ => Grammar.endSymbol

/-- Finds a way on for a lost head. -/
def recover (v : Nat) (token : Subtree) : Reading Unit := do
  let s ← getStack
  let heads := s.heads.size
  let past := (s.head v).past
  let isSettled := (← countSince v) == 0
  let cost := s.costOf v
  let returned ←
    if token.isError then pure false
    else tryPast t v cost isSettled heads token.tokenOf past
  modifyStack fun s =>
    { s with
      heads := s.heads.extract 0 heads ++
        (s.heads.extract heads s.heads.size).filter (·.isActive) }
  if returned && (← headCount) > maxHeads then modifyStack (·.setStatus v .halted)
  else if token.symbol == .symbol Grammar.endSymbol then
    modifyStack (·.push v (some (Subtree.branch t .error 0 [])) 1)
    accept t v token
  else if ← betterExists v (cost + costOfTree + costOfText token.extent) then
    modifyStack (·.setStatus v .halted)
  else
    let isExtra := !token.isError && (t.actions 1 token.tokenOf).getLast? == some .extra
    passOverToken t v isSettled (if isExtra then token.asExtra true else token)

/-- Assumes a missing token on head `w`, after which `token` can be read. -/
def assumeMissing (w token : Nat) : List Nat → Reading Bool
  | [] => return false
  | m :: rest => do
    let state ← stateOf w
    let after := t.afterToken state m
    if after == 0 || after == state || !t.completesFirst after token then
      assumeMissing w token rest
    else
      let fresh ← headCount
      modifyStack (·.copy w)
      modifyStack (·.push fresh (some (.missing m)) after)
      if ← completePhrases t fresh token then return true
      assumeMissing w token rest

def handleMistake (v : Nat) (token : Subtree) : Reading Unit := do
  let before ← headCount
  let _ ← completePhrases t v Grammar.endSymbol
  let count ← headCount
  let mut isAssumed := false
  for w in v :: (List.range count).drop before do
    if !isAssumed && !token.isError then
      isAssumed ← assumeMissing t w token.tokenOf (List.range t.tokenCount).tail
    modifyStack (·.push w none 0)
  for _ in [before:count] do
    let _ ← joinInto before [v]
  modifyStack fun s => s.modifyHead v ({ · with past := s.pastStates v maxDepth })
  recover t v token

end JavaAtlas.Parsing
