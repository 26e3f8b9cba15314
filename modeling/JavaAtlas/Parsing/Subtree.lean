import JavaAtlas.Parsing.Source

/-!
# Trees under construction

A tree knows its symbol and its extent, and what it costs: trees that hold mistakes cost more than
trees that do not. Of two trees for the same text the cheaper one is taken, then the one of higher
weight.
-/

namespace JavaAtlas.Parsing

set_option autoImplicit false

inductive NodeSymbol
  | symbol (n : Nat)
  /-- Text that fits nowhere. -/
  | error
  /-- Tokens passed over, while more may follow. -/
  | passedOver
deriving DecidableEq, Inhabited

/-! ## The price of mistakes -/

def costOfMistake : Nat := 500

def costOfMissing : Nat := 610

def costOfTree : Nat := 100

def costOfLine : Nat := 30

def costOfText (e : Extent) : Nat := e.bytes + costOfLine * e.lines

structure NodeInfo where
  symbol : NodeSymbol
  /-- White space in front. -/
  padding : Extent := {}
  size : Extent := {}
  /-- May stand anywhere. -/
  isExtra : Bool := false
  /-- Is assumed, without a text. -/
  isMissing : Bool := false
  cost : Nat := 0
  weight : Nat := 0
  /-- The number of nodes. -/
  count : Nat := 1
  /-- The number of children that will have a node of their own. -/
  shownChildren : Nat := 0
  /-- The number of the labels of the children. -/
  labels : Nat := 0
deriving Inhabited

inductive Subtree
  | node (info : NodeInfo) (children : List Subtree)
deriving Inhabited

namespace Subtree

def info : Subtree → NodeInfo
  | node i _ => i

def children : Subtree → List Subtree
  | node _ cs => cs

def modifyInfo (f : NodeInfo → NodeInfo) : Subtree → Subtree
  | node i cs => node (f i) cs

def symbol (t : Subtree) : NodeSymbol := t.info.symbol

def cost (t : Subtree) : Nat := t.info.cost

def weight (t : Subtree) : Nat := t.info.weight

def isExtra (t : Subtree) : Bool := t.info.isExtra

def isError (t : Subtree) : Bool := t.symbol == .error

def extent (t : Subtree) : Extent := t.info.padding + t.info.size

def asExtra (t : Subtree) (isExtra : Bool) : Subtree := t.modifyInfo ({ · with isExtra := isExtra })

/-- The token that was read at some position. -/
def ofLexed (s : Source) (position : Extent) (l : Lexed) : Subtree :=
  let start := s.before l.start
  node
    { symbol := (l.symbol.map .symbol).getD .error
      padding := start - position
      size := s.before l.stop - start
      isExtra := l.symbol == some Grammar.endSymbol } []

def missing (token : Nat) : Subtree :=
  node { symbol := .symbol token, isMissing := true, cost := costOfMissing } []

def isShown (t : Table) (tree : Subtree) : Bool :=
  match tree.symbol with
  | .symbol n => t.isShown n
  | .error => true
  | .passedOver => false

/-- What a child adds to the price of passing over it. -/
def costAsPassedOver (t : Table) (child : Subtree) : Nat :=
  if child.isExtra || (child.isError && child.children.isEmpty) then 0
  else if child.isShown t then costOfTree
  else costOfTree * child.info.shownChildren

/-- The number of nodes that a child shows, where it is labelled by `label`. -/
def shownCount (t : Table) (label : ChildLabel) (child : Subtree) : Nat :=
  if (label.shownAs.isSome && !child.isExtra) || child.isShown t then 1
  else child.info.shownChildren

/-- Sums the shown nodes of all children. Extras have no label. -/
def sumShown (t : Table) : List ChildLabel → List Subtree → Nat
  | _, [] => 0
  | labels, c :: rest =>
    shownCount t (labels.headD {}) c + sumShown t (if c.isExtra then labels else labels.tail) rest

def branch (t : Table) (symbol : NodeSymbol) (labels : Nat) (children : List Subtree) : Subtree :=
  let padding := (children.head?.map (·.info.padding)).getD {}
  let size := children.foldl (fun e c => e + c.extent) {} - padding
  let costs := children.foldl (fun n c => if c.symbol == .passedOver then n else n + c.cost) 0
  let mistake :=
    match symbol with
    | .symbol _ => 0
    | _ =>
      children.foldl (fun n c => n + c.costAsPassedOver t) (costOfMistake + costOfText size)
  node
    { symbol := symbol
      padding := padding
      size := size
      cost := costs + mistake
      weight := children.foldl (fun n c => n + c.weight) 0
      count := children.foldl (fun n c => n + c.info.count) 1
      shownChildren := sumShown t (t.labels.getD labels []) children
      labels := labels } children

mutual

def compare : Subtree → Subtree → Ordering
  | node i cs, node j ds =>
    match i.symbol, j.symbol with
    | .symbol m, .symbol n =>
      ((Ord.compare m n).then (Ord.compare cs.length ds.length)).then (compareAll cs ds)
    | _, _ => .eq

def compareAll : List Subtree → List Subtree → Ordering
  | [], _ => .eq
  | _ :: _, [] => .eq
  | c :: cs, d :: ds => (compare c d).then (compareAll cs ds)

end

def prefersSecond (a b : Subtree) : Bool :=
  if a.cost != b.cost then b.cost < a.cost
  else if a.weight != b.weight then a.weight < b.weight
  else a.cost > 0 || compare a b == .gt

/-- Cuts the extras at the end off. -/
def splitExtras (trees : List Subtree) : List Subtree × List Subtree :=
  let extras := (trees.reverse.takeWhile isExtra).reverse
  (trees.take (trees.length - extras.length), extras)

end Subtree

end JavaAtlas.Parsing
