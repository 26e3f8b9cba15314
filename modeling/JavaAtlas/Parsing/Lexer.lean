import JavaAtlas.Parsing.Automaton
import JavaAtlas.Parsing.Overlap

/-!
# Lexers

Which tokens are looked for depends on the state of the reader. States are read in the same *mode*
where their tokens do not get in each other's way. A mode is a state of one deterministic automaton
over classes of characters, in which the longest token is read.
-/

namespace JavaAtlas.Parsing

set_option autoImplicit false

open Std (HashMap HashSet)

/-! ## Modes -/

def distinctSets (sets : List BitSet) : List BitSet := (HashSet.ofList sets).toList

/-- For each token, the tokens that occur together with it in some state. -/
def companions (tokenCount : Nat) (sets : List BitSet) : Array BitSet :=
  sets.foldl (fun together s =>
    (s.toListBelow tokenCount).foldl
      (fun (together : Array BitSet) t => together.modify t (·.union s)) together)
    (Array.replicate tokenCount .empty)

/-- For each token, the tokens that it cannot share a mode with, unless a state asks for both. -/
def rivals (tokenCount : Nat) (o : Overlaps) (together : Array BitSet) : Array BitSet :=
  (Array.range tokenCount).map fun i =>
    let clashing := (List.range tokenCount).filter fun j =>
      i != j &&
        ((o.conflicts.getD i .empty).contains j || (o.shorter.getD i .empty).contains j ||
          (!(together.getD i .empty).contains j &&
            ((o.clashes.getD i .empty).contains j || (o.clashes.getD j .empty).contains i)))
    .ofList clashing

/-- No token that is in one of the sets only has a rival in the other. -/
def canShare (tokenCount : Nat) (rivals : Array BitSet) (s t : BitSet) : Bool :=
  let free (a b : BitSet) : Bool :=
    ((a.diff b).toListBelow tokenCount).all fun x => !(rivals.getD x .empty).meets b
  free s t && free t s

def addMode (canShare : BitSet → BitSet → Bool) (tokens : BitSet) (modes : List BitSet) :
    Nat × List BitSet :=
  match modes with
  | [] => (0, [tokens])
  | m :: rest =>
    if canShare m tokens then (0, m.union tokens :: rest)
    else
      let (i, rest) := addMode canShare tokens rest
      (i + 1, m :: rest)

def modesOf (canShare : BitSet → BitSet → Bool) (sets : List BitSet) : Array Nat × List BitSet :=
  sets.foldl (fun (numbers, modes) s =>
    let (i, modes) := addMode canShare s modes
    (numbers.push i, modes)) (#[], [])

/-! ## The automaton of the lexer -/

structure LexState where
  /-- The token that is complete here. -/
  accepts : Option Nat
  /-- The end of the text may be here, after nothing but white space. -/
  acceptsEnd : Bool
  /-- For each class of characters, the next state, and whether the character is white space in
  front of the token. -/
  next : Array (Option (Nat × Bool))
deriving Inhabited

/-- Positions, and whether the end of the text may be here. -/
abbrev LexKernel := List Nat × Bool

structure LexExploration where
  kernels : Array LexKernel := #[]
  numbers : HashMap LexKernel Nat := {}
  states : Array LexState := #[]

namespace LexExploration

def number (e : LexExploration) (kernel : LexKernel) : Nat × LexExploration :=
  match e.numbers[kernel]? with
  | some n => (n, e)
  | none =>
    let n := e.kernels.size
    (n, { e with kernels := e.kernels.push kernel, numbers := e.numbers.insert kernel n })

def visit (n : Nfa) (e : LexExploration) (kernel : LexKernel) : LexExploration :=
  let (positions, atEnd) := kernel
  let complete := n.completion? positions
  let nearBlanks := n.readsBlanks positions
  let moves := (n.moves positions).filter fun m =>
    match complete with
    | none => true
    | some t => n.readsOn m t nearBlanks
  let (next, e) := moves.foldl (fun (next, e) m =>
    let (target, e) := number e (m.next, atEnd && m.isBlank)
    ((m.chars.toListBelow classCount).foldl
      (fun (next : Array (Option (Nat × Bool))) c =>
        next.setIfInBounds c (some (target, m.isBlank))) next, e))
    (Array.replicate classCount none, e)
  { e with states := e.states.push ⟨complete.map (· + 1), atEnd, next⟩ }

def run (n : Nfa) : Nat → LexExploration → LexExploration
  | 0, e => e
  | fuel + 1, e =>
    match e.kernels[e.states.size]? with
    | none => e
    | some kernel => run n fuel (e.visit n kernel)

end LexExploration

structure Lexer where
  states : Array LexState
  /-- For each mode, the state to start in. -/
  starts : Array Nat

namespace Lexer

/-- More states than a lexer has here. -/
def stateLimit : Nat := 100000

def kernelOf (g : Grammar) (n : Nfa) (tokens : BitSet) : LexKernel :=
  let symbols := (tokens.toListBelow g.tokenCount).filter (· != Grammar.endSymbol)
  (symbols.foldl (fun positions t => mergeIncreasing positions (n.startOf (t - 1))) [],
    tokens.contains Grammar.endSymbol)

def ofModes (g : Grammar) (n : Nfa) (modes : List BitSet) : Lexer :=
  let (starts, e) := modes.foldl (fun (starts, e) tokens =>
    let (i, e) := LexExploration.number e (kernelOf g n tokens)
    (Array.push starts i, e)) (#[], {})
  ⟨(e.run n stateLimit).states, starts⟩

end Lexer

/-- The tokens that are looked for in a state; keywords are looked for as words. -/
def lexTokens (g : Grammar) (tokens : BitSet) : BitSet :=
  .ofList ((tokens.toListBelow g.tokenCount).map fun t =>
    if g.isKeyword t then Grammar.wordSymbol else t)

end JavaAtlas.Parsing
