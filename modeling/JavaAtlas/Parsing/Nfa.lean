import JavaAtlas.Parsing.Pattern

/-!
# Reading patterns with sets of positions

The patterns of all tokens become one automaton. A *position* either reads a character or ends a
token; a set of positions is kept as an increasing list. What a set can do next is a list of moves,
one for each group of characters that lead on in the same way.
-/

namespace JavaAtlas.Parsing

set_option autoImplicit false

inductive NfaState
  /-- Goes on at each of the targets. -/
  | fork (targets : List Nat)
  | read (chars : BitSet) (next : Nat) (isBlank : Bool)
  | accept
deriving Inhabited

structure NfaBuilder where
  states : Array NfaState := #[]
  owners : Array Nat := #[]

namespace NfaBuilder

def add (b : NfaBuilder) (token : Nat) (s : NfaState) : Nat × NfaBuilder :=
  (b.states.size, ⟨b.states.push s, b.owners.push token⟩)

def addPattern (token : Nat) (isBlank : Bool) : Pattern → Nat → NfaBuilder → Nat × NfaBuilder
  | .nothing, next, b => (next, b)
  | .one chars, next, b => b.add token (.read chars next isBlank)
  | .seq first second, next, b =>
    let (middle, b) := addPattern token isBlank second next b
    addPattern token isBlank first middle b
  | .either first second, next, b =>
    let (left, b) := addPattern token isBlank first next b
    let (right, b) := addPattern token isBlank second next b
    b.add token (.fork [left, right])
  | .many1 body, next, b =>
    let (again, b) := b.add token (.fork [])
    let (start, b) := addPattern token isBlank body again b
    (start, { b with states := b.states.setIfInBounds again (.fork [start, next]) })

def addLexeme (b : NfaBuilder) (token : Nat) (l : Lexeme) : Nat × NfaBuilder :=
  let (stop, b) := b.add token .accept
  let (start, b) := addPattern token false l.pattern stop b
  if l.isImmediate then (start, b) else addPattern token true (.many (.one blanks)) start b

end NfaBuilder

def mergeIncreasing : List Nat → List Nat → List Nat
  | [], ys => ys
  | xs, [] => xs
  | x :: xs, y :: ys =>
    if x < y then x :: mergeIncreasing xs (y :: ys)
    else if y < x then y :: mergeIncreasing (x :: xs) ys
    else x :: mergeIncreasing xs ys

structure Nfa where
  lexemes : Array Lexeme
  states : Array NfaState
  owners : Array Nat
  /-- The positions that each place stands for. -/
  closures : Array (List Nat)
  /-- The places where the tokens start. -/
  starts : Array Nat

namespace Nfa

/-- The positions reached from a place without reading; `fuel` bounds the number of forks on a
path. -/
def positionsFrom (states : Array NfaState) : Nat → Nat → List Nat
  | 0, _ => []
  | fuel + 1, i =>
    match states.getD i .accept with
    | .fork targets => targets.foldl (fun acc t => mergeIncreasing acc (positionsFrom states fuel t)) []
    | _ => [i]

def forkLimit : Nat := 64

def ofLexemes (lexemes : Array Lexeme) : Nfa :=
  let (b, starts) := lexemes.toList.zipIdx.foldl (fun (b, starts) (l, i) =>
    let (start, b) := NfaBuilder.addLexeme b i l
    (b, starts.push start)) (({} : NfaBuilder), (#[] : Array Nat))
  { lexemes := lexemes
    states := b.states
    owners := b.owners
    closures := (Array.range b.states.size).map (positionsFrom b.states forkLimit)
    starts := starts }

def startOf (n : Nfa) (token : Nat) : List Nat := n.closures.getD (n.starts.getD token 0) []

def ownerOf (n : Nfa) (position : Nat) : Nat := n.owners.getD position 0

def lexemeOf (n : Nfa) (token : Nat) : Lexeme := n.lexemes.getD token default

def ownersOf (n : Nfa) (positions : List Nat) : List Nat :=
  (positions.map n.ownerOf).eraseDups

def completions (n : Nfa) (positions : List Nat) : List Nat :=
  positions.filterMap fun i =>
    match n.states.getD i .accept with
    | .accept => some (n.ownerOf i)
    | _ => none

/-- White space can be read before the token proper. -/
def readsBlanks (n : Nfa) (positions : List Nat) : Bool :=
  positions.any fun i =>
    match n.states.getD i .accept with
    | .read _ _ isBlank => isBlank
    | _ => false

end Nfa

/-- Reading one of `chars` leads to the positions `next`. -/
structure Move where
  chars : BitSet
  next : List Nat
  /-- Only white space in front of a token is read. -/
  isBlank : Bool
  precedence : Nat

namespace Move

/-- Splits moves so that the characters of one more move lead on to its positions too. -/
def overlay (chars : BitSet) (next : List Nat) (isBlank : Bool) (precedence : Nat) :
    List Move → List Move
  | [] => if chars.isEmpty then [] else [⟨chars, next, isBlank, precedence⟩]
  | m :: rest =>
    let common := m.chars.inter chars
    if common.isEmpty then m :: overlay chars next isBlank precedence rest
    else
      let both : Move :=
        ⟨common, mergeIncreasing m.next next, m.isBlank && isBlank, max m.precedence precedence⟩
      let others := overlay (chars.diff common) next isBlank precedence rest
      let left := m.chars.diff common
      if left.isEmpty then both :: others else { m with chars := left } :: both :: others

end Move

namespace Nfa

/-- What can be read at some positions. No character is in two moves. -/
def moves (n : Nfa) (positions : List Nat) : List Move :=
  positions.foldl (fun ms i =>
    match n.states.getD i .accept with
    | .read chars next isBlank =>
      let precedence := if isBlank then 0 else (n.lexemeOf (n.ownerOf i)).precedence
      Move.overlay chars (n.closures.getD next []) isBlank precedence ms
    | _ => ms) []

def prefers (n : Nfa) (a b : Nat) : Bool :=
  let la := n.lexemeOf a
  let lb := n.lexemeOf b
  if la.precedence != lb.precedence then la.precedence > lb.precedence
  else if la.rank != lb.rank then la.rank > lb.rank
  else a < b

/-- After `token` is complete, it is preferred to read on by `m`. `nearBlanks` tells whether white
space could be read there too. -/
def readsOn (n : Nfa) (m : Move) (token : Nat) (nearBlanks : Bool) : Bool :=
  let p := (n.lexemeOf token).precedence
  if m.precedence < p then false
  else if m.precedence == p then
    !m.isBlank && !(nearBlanks && !(n.ownersOf m.next).contains token)
  else true

def completion? (n : Nfa) (positions : List Nat) : Option Nat :=
  (n.completions positions).foldl (fun best t =>
    match best with
    | some b => if n.prefers b t then some b else some t
    | none => some t) none

end Nfa

end JavaAtlas.Parsing
