import JavaAtlas.Parsing.Grammar
import JavaAtlas.Parsing.Nfa
import Std.Data.HashSet

/-!
# Tokens that get in each other's way

Two tokens overlap where a text can be read as either of them, or where one of them is the start of
the other. Places of a grammar can be read alike only where the tokens that are looked for in one of
them do not get in the way of the tokens looked for in the other.
-/

namespace JavaAtlas.Parsing

set_option autoImplicit false

open Std (HashSet)

structure Clash where
  /-- Has the same text and is preferred. -/
  isSame : Bool := false
  /-- Is complete, and preferred, where the other could go on. -/
  isShorter : Bool := false
  /-- Goes on where the other is complete. -/
  isLonger : Bool := false
  /-- Goes on there with a character that may follow the other. -/
  takesNext : Bool := false
  /-- Is complete where white space before the other is still passed over. -/
  isBlank : Bool := false

structure ClashPair where
  first : Clash := {}
  second : Clash := {}

namespace ClashPair

def modify (p : ClashPair) (isFirst : Bool) (f : Clash → Clash) : ClashPair :=
  if isFirst then { p with first := f p.first } else { p with second := f p.second }

/-- Notes the tokens that are complete at the same place, and which of them is preferred. -/
def noteCompletions (n : Nfa) (first : Nat) (nearBlanks : Bool) :
    List Nat → Option Nat → ClashPair → Option Nat × ClashPair
  | [], best, p => (best, p)
  | t :: rest, best, p =>
    let p := if nearBlanks then p.modify (t == first) ({ · with isBlank := true }) else p
    match best with
    | none => noteCompletions n first nearBlanks rest (some t) p
    | some b =>
      if b == t then noteCompletions n first nearBlanks rest best p
      else
        let better := if n.prefers b t then b else t
        noteCompletions n first nearBlanks rest (some better)
          (p.modify (better == first) ({ · with isSame := true }))

/-- Notes how a move goes on after `complete`. `follow` has the characters that may stand after each
token. -/
def noteMove (n : Nfa) (follow : Array BitSet) (first second : Nat) (nearBlanks : Bool)
    (complete : Nat) (p : ClashPair) (m : Move) : ClashPair :=
  let owners := n.ownersOf m.next
  if owners.isEmpty || owners.contains complete then p
  else if n.readsOn m complete nearBlanks then
    let goesOn := complete == second
    let taken := m.chars.meets (follow.getD complete .empty)
    p.modify goesOn fun c => { c with isLonger := true, takesNext := c.takesNext || taken }
  else p.modify (complete == first) ({ · with isShorter := true })

/-- Compares two tokens at some positions, and gives the positions after. -/
def inspect (n : Nfa) (follow : Array BitSet) (first second : Nat) (positions : List Nat)
    (p : ClashPair) : ClashPair × List (List Nat) :=
  if (n.ownersOf positions).length < 2 then (p, [])
  else
    let nearBlanks := n.readsBlanks positions
    let (complete, p) := noteCompletions n first nearBlanks (n.completions positions) none p
    let moves := n.moves positions
    let p :=
      match complete with
      | none => p
      | some t => moves.foldl (noteMove n follow first second nearBlanks t) p
    (p, moves.map (·.next))

/-- Compares two tokens at all positions that a text can lead to, at most `fuel` of them. -/
def explore (n : Nfa) (follow : Array BitSet) (first second : Nat) :
    Nat → List (List Nat) → HashSet (List Nat) → ClashPair → ClashPair
  | 0, _, _, p => p
  | _, [], _, p => p
  | fuel + 1, positions :: rest, seen, p =>
    if seen.contains positions then explore n follow first second fuel rest seen p
    else
      let (p, next) := inspect n follow first second positions p
      explore n follow first second fuel (next ++ rest) (seen.insert positions) p

/-- More positions than two tokens have together. -/
def exploreLimit : Nat := 100000

def ofTokens (n : Nfa) (follow : Array BitSet) (first second : Nat) : ClashPair :=
  explore n follow first second exploreLimit
    [mergeIncreasing (n.startOf first) (n.startOf second)] {} {}

end ClashPair

/-- For each token, the tokens it clashes with in some way. -/
structure Overlaps where
  /-- Those of which it takes the place, or the text after. -/
  conflicts : Array BitSet
  /-- Those it is preferred to as the shorter one. -/
  shorter : Array BitSet
  /-- All. -/
  clashes : Array BitSet

namespace Overlaps

def following (g : Grammar) : Array BitSet :=
  let firstSets := g.firstSets
  let lastSets := g.lastSets
  let setOf (sets : Array BitSet) (symbol : Nat) : BitSet :=
    g.tokensOf (fun s => sets.getD (s - g.tokenCount) .empty) symbol
  let allTokens := (BitSet.below g.tokenCount).diff (.singleton Grammar.endSymbol)
  let extras : BitSet := .ofList g.extras
  let pairs := g.parts.toList.flatMap fun v => v.productions.flatMap fun p =>
    p.steps.zip (p.steps.drop 1)
  let sets := pairs.foldl (fun sets (s, t) =>
    let next := setOf firstSets t.symbol
    ((setOf lastSets s.symbol).toListBelow g.tokenCount).foldl
      (fun (sets : Array BitSet) l => sets.modify l (·.union next)) sets)
    (Array.replicate g.tokenCount BitSet.empty)
  sets.mapIdx fun i s => if extras.contains i then allTokens else s.union extras

def followingChars (g : Grammar) (n : Nfa) : Array BitSet :=
  let starting : Array BitSet := (Array.range g.tokenCount).map fun symbol =>
    (n.moves (n.startOf (symbol - 1))).foldl (fun s m => s.union m.chars) .empty
  (following g).map fun tokens =>
    (tokens.toListBelow g.tokenCount).foldl (fun s t => s.union (starting.getD t .empty)) .empty

def ofGrammar (g : Grammar) (n : Nfa) : Overlaps := Id.run do
  let follow := (followingChars g n).extract 1 g.tokenCount
  let none' := Array.replicate g.tokenCount BitSet.empty
  let mut conflicts := none'
  let mut shorter := none'
  let mut clashes := none'
  for i in [0:n.lexemes.size] do
    for j in [0:i] do
      let p := ClashPair.ofTokens n follow i j
      for (c, a, b) in [(p.first, i + 1, j + 1), (p.second, j + 1, i + 1)] do
        if c.takesNext || c.isBlank || c.isSame then conflicts := conflicts.modify a (·.insert b)
        if c.isShorter then shorter := shorter.modify a (·.insert b)
        if c.isBlank || c.isShorter || c.isSame || c.isLonger then
          clashes := clashes.modify a (·.insert b)
  return ⟨conflicts, shorter, clashes⟩

end Overlaps

end JavaAtlas.Parsing
