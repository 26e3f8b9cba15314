import JavaAtlas.Parsing.Grammar
import Std.Data.HashMap

/-!
# Items

An item is a production with a dot in it: what stands before the dot has been read. The items of a
grammar are numbered, those of one production in a row, so that reading a symbol goes to the next
number.

Two items of the same *class* can go on in the same way and give the same node in the end. Which
symbols stand before the dot does not matter for that, unless one of them passes roles of its own
children on to the node.
-/

namespace JavaAtlas.Parsing

set_option autoImplicit false

open Java (Phrase Field)
open Std (HashMap)

structure ChildLabel where
  shownAs : Option Phrase := none
  role : Option Field := none
  /-- Roles that the children of a hidden child have. -/
  inherited : BitSet := {}
deriving DecidableEq, Hashable, Inhabited

/-- Replaces `count` trees by one for `symbol`. -/
structure Reduction where
  symbol : Nat
  count : Nat
  weight : Nat
  /-- The number of the labels of the children. -/
  labels : Nat
deriving DecidableEq, Hashable, Inhabited

/-- All that decides how an item goes on. -/
structure ItemClass where
  dot : Nat
  symbol : Nat
  weight : Nat
  level : Int
  associativity : Option Associativity
  inherits : Bool
  before : List (Option Phrase × Option Field × Nat)
  after : List Step
deriving DecidableEq, Hashable

/-- A variable that a phrase can begin with, and what can follow it there: `tokens`, and if `isLast`
also what follows the phrase. -/
structure Opening where
  part : Nat
  tokens : BitSet
  isLast : Bool

structure Items where
  grammar : Grammar
  firstSets : Array BitSet
  /-- For each variable, the variables that it can begin with. -/
  openings : Array (List Opening)
  /-- For each variable, the first items of its productions. -/
  starts : Array (List Nat)
  /-- For each item, the symbol after the dot; the end where there is none. -/
  next : Array Nat
  /-- For each item, what can follow the symbol after the dot, where that is fixed. -/
  follow : Array (Option BitSet)
  classes : Array Nat
  dots : Array Nat
  /-- For each item, the variable it is for. -/
  symbols : Array Nat
  levels : Array Int
  associativities : Array (Option Associativity)
  /-- For each item at the end of its production, the number of the reduction. -/
  reductionOf : Array Nat
  reductions : Array Reduction
  labels : Array (List ChildLabel)
  /-- The first item of all, before the variable for a whole text. -/
  origin : Nat

namespace Items

def openingsOf (g : Grammar) (firstSets : Array BitSet) (start : Nat) : List Opening :=
  let firstOf (symbol : Nat) : BitSet :=
    g.tokensOf (fun s => firstSets.getD (s - g.tokenCount) .empty) symbol
  let visit (known : Array (Option (BitSet × Bool))) (o : Opening) :
      Option (Array (Option (BitSet × Bool))) :=
    match (known.getD o.part none) with
    | none => some (known.setIfInBounds o.part (some (o.tokens, o.isLast)))
    | some (tokens, isLast) =>
      let tokens' := tokens.union o.tokens
      let isLast' := isLast || o.isLast
      if tokens' == tokens && isLast' == isLast then none
      else some (known.setIfInBounds o.part (some (tokens', isLast')))
  let rec go : Nat → List Opening → Array (Option (BitSet × Bool)) → Array (Option (BitSet × Bool))
    | 0, _, known => known
    | _, [], known => known
    | fuel + 1, o :: rest, known =>
      match visit known o with
      | none => go fuel rest known
      | some known =>
        let more := (g.parts.getD o.part default).productions.filterMap fun p =>
          match p.steps with
          | [] => none
          | s :: after =>
            if g.isToken s.symbol then none
            else
              let part := s.symbol - g.tokenCount
              match after with
              | [] => some { o with part := part }
              | t :: _ => some ⟨part, firstOf t.symbol, false⟩
        go fuel (more ++ rest) known
  let known := go 1000000 [⟨start, .empty, true⟩] (Array.replicate g.parts.size none)
  (List.range g.parts.size).filterMap fun i =>
    (known.getD i none).map fun (tokens, isLast) => ⟨i, tokens, isLast⟩

/-- The labels of the children of a production, without those at the end that say nothing. -/
def labelsOf (g : Grammar) (inherited : Array BitSet) (p : Production) : List ChildLabel :=
  let labels : List ChildLabel := p.steps.map fun s =>
    let below :=
      if g.isToken s.symbol || (g.variableOf s.symbol).kind == .shown then .empty
      else inherited.getD (s.symbol - g.tokenCount) .empty
    ⟨s.shownAs, s.role, below⟩
  (labels.reverse.dropWhile (· == {})).reverse

/-- Some symbol before the dot passes roles on. -/
def inherits (g : Grammar) (inherited : Array BitSet) (before : List Step) : Bool :=
  before.any fun s =>
    !g.isToken s.symbol && (g.variableOf s.symbol).kind != .shown &&
      !(inherited.getD (s.symbol - g.tokenCount) .empty).isEmpty

def classOf (g : Grammar) (inherited : Array BitSet) (symbol : Nat) (p : Production) (dot : Nat) :
    ItemClass :=
  let before := p.steps.take dot
  let inherits := inherits g inherited before
  { dot := dot
    symbol := symbol
    weight := p.weight
    level := p.level
    associativity := p.associativity
    inherits := inherits
    before := before.map fun s => (s.shownAs, s.role, if inherits then s.symbol else 0)
    after := p.steps.drop dot }

def intern {α : Type} [BEq α] [Hashable α] (a : α) (table : HashMap α Nat × Array α) :
    Nat × (HashMap α Nat × Array α) :=
  match table.1[a]? with
  | some i => (i, table)
  | none => (table.2.size, (table.1.insert a table.2.size, table.2.push a))

def ofGrammar (g : Grammar) : Items := Id.run do
  let firstSets := g.firstSets
  let inherited := g.inheritedRoles
  let firstOf (symbol : Nat) : BitSet :=
    g.tokensOf (fun s => firstSets.getD (s - g.tokenCount) .empty) symbol
  let whole : Production := { steps := [{ symbol := g.tokenCount }] }
  let productions : Array (Nat × Production) :=
    (g.parts.zipIdx.toList.flatMap fun (v, i) =>
      v.productions.map fun p => (g.tokenCount + i, p)).toArray.push (g.symbolCount, whole)
  let mut starts : Array (List Nat) := Array.replicate g.parts.size []
  let mut places : Array (Nat × Production × Nat) := #[]
  let mut bases : Array Nat := #[]
  for (symbol, p) in productions do
    bases := bases.push places.size
    starts := starts.modify (symbol - g.tokenCount) (· ++ [places.size])
    for dot in [0:p.steps.length + 1] do
      places := places.push (symbol, p, dot)
  -- Classes are numbered by the place of the dot first, then by variable.
  let mut classes : Array Nat := Array.replicate places.size 0
  let mut table : HashMap ItemClass Nat × Array ItemClass := ({}, #[])
  let longest := productions.foldl (fun n (_, p) => max n p.steps.length) 0
  for dot in [0:longest + 1] do
    for ((symbol, p), base) in productions.zip bases do
      if dot ≤ p.steps.length then
        let (c, table') := intern (classOf g inherited symbol p dot) table
        table := table'
        classes := classes.setIfInBounds (base + dot) c
  let mut labels : HashMap (List ChildLabel) Nat × Array (List ChildLabel) :=
    (intern [] ({}, #[])).2
  let mut reductions : HashMap Reduction Nat × Array Reduction := ({}, #[])
  let mut reductionOf : Array Nat := Array.replicate places.size 0
  for ((symbol, p), base) in productions.zip bases do
    let (l, labels') := intern (labelsOf g inherited p) labels
    labels := labels'
    let (r, reductions') := intern ⟨symbol, p.steps.length, p.weight, l⟩ reductions
    reductions := reductions'
    reductionOf := reductionOf.setIfInBounds (base + p.steps.length) r
  return {
    grammar := g
    firstSets := firstSets
    openings := (Array.range g.parts.size).map (openingsOf g firstSets)
    starts := starts
    next := places.map fun (_, p, dot) => ((p.steps.drop dot).head?.map (·.symbol)).getD 0
    follow := places.map fun (_, p, dot) => (p.steps.drop (dot + 1)).head?.map fun s => firstOf s.symbol
    classes := classes
    dots := places.map (·.2.2)
    symbols := places.map (·.1)
    levels := places.map fun (_, p, dot) => if dot == 0 then 0 else p.level
    associativities := places.map fun (_, p, dot) => if dot == 0 then none else p.associativity
    reductionOf := reductionOf
    reductions := reductions.2
    labels := labels.2
    origin := bases.back?.getD 0 }

end Items

end JavaAtlas.Parsing
