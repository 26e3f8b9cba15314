import JavaAtlas.Parsing.Subtree

/-!
# Stacks with several heads

Where a text can be read in several ways, all are followed for a while. Each way is a *head* of a
common stack: the nodes of the stack form a graph, in which a node can rest on several others. A
link from a node to one below it carries the tree between them; a link without a tree stands for a
place where the reader got lost.
-/

namespace JavaAtlas.Parsing

set_option autoImplicit false

structure Link where
  node : Nat
  tree : Option Subtree
deriving Inhabited

structure StackNode where
  state : Nat
  links : List Link := []
  /-- What has been read. -/
  position : Extent := {}
  cost : Nat := 0
  weight : Nat := 0
  /-- The number of nodes in the trees. -/
  count : Nat := 0
deriving Inhabited

/-- A state that the reader was in before it got lost, and how many trees ago. -/
structure PastState where
  position : Extent
  depth : Nat
  state : Nat

inductive Status
  | active
  /-- Waits with a token that does not fit. -/
  | paused (token : Subtree)
  | halted

structure Head where
  node : Nat
  /-- The number of nodes at the last mistake. -/
  countAtMistake : Nat := 0
  status : Status := .active
  past : List PastState := []

instance : Inhabited Head := ⟨{ node := 0 }⟩

namespace Head

def isActive (h : Head) : Bool :=
  match h.status with
  | .active => true
  | _ => false

def isPaused (h : Head) : Bool :=
  match h.status with
  | .paused _ => true
  | _ => false

def isHalted (h : Head) : Bool :=
  match h.status with
  | .halted => true
  | _ => false

end Head

/-- The node for a tree on top of another node; no tree where the reader is lost. -/
def StackNode.above (base : StackNode) (below : Nat) (tree : Option Subtree) (state : Nat) :
    StackNode :=
  match tree with
  | none => { base with state := state, links := [⟨below, none⟩] }
  | some t =>
    { state := state
      links := [⟨below, some t⟩]
      position := base.position + t.extent
      cost := base.cost + t.cost
      weight := base.weight + t.weight
      count := base.count + t.info.count }

def Head.raise (h : Head) (index : Nat) (fresh : StackNode) (isLost : Bool) : Head :=
  { h with
    node := index
    countAtMistake := if isLost then fresh.count else h.countAtMistake }

structure Stack where
  nodes : Array StackNode := #[]
  heads : Array Head := #[]

namespace Stack

def maxLinks : Nat := 8

def maxWalkers : Nat := 64

def start : Stack := { nodes := #[{ state := 1 }], heads := #[{ node := 0 }] }

def head (s : Stack) (v : Nat) : Head := s.heads.getD v default

def node (s : Stack) (v : Nat) : StackNode := s.nodes.getD (s.head v).node default

def state (s : Stack) (v : Nat) : Nat := (s.node v).state

def position (s : Stack) (v : Nat) : Extent := (s.node v).position

def modifyHead (s : Stack) (v : Nat) (f : Head → Head) : Stack :=
  { s with heads := s.heads.modify v f }

def setStatus (s : Stack) (v : Nat) (status : Status) : Stack :=
  s.modifyHead v ({ · with status := status })

def push (s : Stack) (v : Nat) (tree : Option Subtree) (state : Nat) : Stack :=
  match s with
  | ⟨nodes, heads⟩ =>
    let h := heads.getD v default
    let fresh := (nodes.getD h.node default).above h.node tree state
    let raised := h.raise nodes.size fresh tree.isNone
    ⟨nodes.push fresh, heads.setIfInBounds v raised⟩

def pushAll (s : Stack) (v : Nat) (trees : List Subtree) (state : Nat) : Stack :=
  trees.foldl (fun s t => s.push v (some t) state) s

/-! ## Joining heads -/

def alike : Option Subtree → Option Subtree → Bool
  | none, none => true
  | some a, some b =>
    a.symbol == b.symbol &&
      ((a.cost > 0 && b.cost > 0) ||
        (a.info.padding.bytes == b.info.padding.bytes && a.info.size.bytes == b.info.size.bytes &&
          a.children.length == b.children.length && a.isExtra == b.isExtra))
  | _, _ => false

def weightOf (tree : Option Subtree) : Nat := (tree.map (·.weight)).getD 0

/-- Lets a node rest on one more node. Where it does so already by a tree that stands for the same,
the links of the two nodes below are joined instead. -/
def addLink : Nat → Array StackNode → Nat → Link → Array StackNode
  | 0, nodes, _, _ => nodes
  | fuel + 1, nodes, i, link =>
    if link.node == i then nodes
    else
      let nodeAt (k : Nat) : StackNode := nodes.getD k default
      let below := nodeAt link.node
      let weight := below.weight + weightOf link.tree
      let same (l : Link) : Bool :=
        alike l.tree link.tree &&
          (l.node == link.node ||
            ((nodeAt l.node).state == below.state &&
              (nodeAt l.node).position.bytes == below.position.bytes))
      match (nodeAt i).links.findIdx? same with
      | some k =>
        let old := (nodeAt i).links.getD k default
        if old.node == link.node then
          if weightOf old.tree < weightOf link.tree then
            nodes.modify i fun n =>
              { n with links := n.links.set k { old with tree := link.tree }, weight := weight }
          else nodes
        else
          let nodes := below.links.foldl (fun nodes l => addLink fuel nodes old.node l) nodes
          nodes.modify i fun n => { n with weight := max n.weight weight }
      | none =>
        if (nodeAt i).links.length ≥ maxLinks then nodes
        else
          let count := below.count + ((link.tree.map (·.info.count)).getD 0)
          nodes.modify i fun n =>
            { n with
              links := n.links ++ [link]
              count := max n.count count
              weight := max n.weight weight }

def addLinks (fuel : Nat) (nodes : Array StackNode) (i : Nat) (links : List Link) :
    Array StackNode :=
  links.foldl (fun nodes l => addLink fuel nodes i l) nodes

/-- Two heads are at the same place in the same state. -/
def canMerge (s : Stack) (v w : Nat) : Bool :=
  (s.head v).isActive && (s.head w).isActive && s.state v == s.state w &&
    (s.position v).bytes == (s.position w).bytes && (s.node v).cost == (s.node w).cost

def remove (s : Stack) (v : Nat) : Stack := { s with heads := s.heads.eraseIdxIfInBounds v }

def merge (s : Stack) (v w : Nat) : Stack :=
  match s with
  | ⟨nodes, heads⟩ =>
    let h := heads.getD v default
    let links := (nodes.getD (heads.getD w default).node default).links
    let nodes := addLinks (nodes.size + 1) nodes h.node links
    let top := nodes.getD h.node default
    let h := if top.state == 0 then { h with countAtMistake := top.count } else h
    remove ⟨nodes, heads.setIfInBounds v h⟩ w

def partner? (s : Stack) (w : Nat) (candidates : List Nat) : Option Nat :=
  candidates.find? fun v => s.canMerge v w

def moveHead (s : Stack) (v w : Nat) : Stack :=
  if v == w then s
  else
    let source := s.head v
    let past := if source.past.isEmpty then (s.head w).past else source.past
    remove { s with heads := s.heads.setIfInBounds w { source with past := past } } v

def copy (s : Stack) (v : Nat) : Stack :=
  { s with heads := s.heads.push { s.head v with past := [] } }

/-! ## Ways down -/

/-- A way down from a head: where it has come to, and the trees on it. -/
structure Walker where
  node : Nat
  trees : List Subtree := []
  /-- The number of trees that are not extra. -/
  count : Nat := 0

def Walker.follow (w : Walker) (l : Link) : Walker :=
  match l.tree with
  | none => ⟨l.node, w.trees, w.count + 1⟩
  | some t => ⟨l.node, t :: w.trees, if t.isExtra then w.count else w.count + 1⟩

/-- The trees above a new head. -/
structure Slice where
  version : Nat
  trees : List Subtree

structure Step (σ : Type) where
  state : σ
  /-- Puts a new head here. -/
  takes : Bool := false
  stops : Bool := false

structure Walk (σ : Type) where
  stack : Stack
  state : σ
  slices : List Slice := []

/-- Puts a head at the end of a way. Ways that end at the same node share their head. -/
def Walk.take {σ : Type} (countAtMistake : Nat) (walk : Walk σ) (w : Walker) : Walk σ :=
  let here (slice : Slice) : Bool := (walk.stack.head slice.version).node == w.node
  match walk.slices.reverse.find? here with
  | some last =>
    let behind := walk.slices.reverse.takeWhile fun slice => !here slice
    let front := walk.slices.take (walk.slices.length - behind.length)
    { walk with slices := front ++ ⟨last.version, w.trees⟩ :: behind.reverse }
  | none =>
    let heads := walk.stack.heads
    { walk with
      stack := { walk.stack with
        heads := heads.push { node := w.node, countAtMistake := countAtMistake } }
      slices := walk.slices ++ [⟨heads.size, w.trees⟩] }

/-- Takes each way one link further. Ways that split come last. -/
def Walk.round {σ : Type} (visit : σ → StackNode → Walker → Step σ) (countAtMistake : Nat) :
    List Walker → List Walker → List Walker → Walk σ → List Walker × Walk σ
  | [], kept, fresh, walk => (kept.reverse ++ fresh.reverse, walk)
  | w :: rest, kept, fresh, walk =>
    let node := walk.stack.nodes.getD w.node default
    let step := visit walk.state node w
    let walk := { walk with state := step.state }
    let walk := if step.takes then walk.take countAtMistake w else walk
    if step.stops then round visit countAtMistake rest kept fresh walk
    else
      match node.links with
      | [] => round visit countAtMistake rest kept fresh walk
      | first :: others =>
        let room := maxWalkers - (kept.length + rest.length + 1 + fresh.length)
        let more := (others.take room).map w.follow
        round visit countAtMistake rest (w.follow first :: kept) (more.reverse ++ fresh) walk

/-- Goes on until all ways have ended. -/
def Walk.run {σ : Type} (visit : σ → StackNode → Walker → Step σ) (countAtMistake : Nat) :
    Nat → List Walker → Walk σ → Walk σ
  | 0, _, walk => walk
  | _, [], walk => walk
  | fuel + 1, walkers, walk =>
    let (walkers, walk) := walk.round visit countAtMistake walkers [] []
    run visit countAtMistake fuel walkers walk

/-- Follows all ways down from a head. -/
def walk {σ : Type} (s : Stack) (v : Nat) (visit : σ → StackNode → Walker → Step σ) (state : σ) :
    Walk σ :=
  let head := s.head v
  Walk.run visit head.countAtMistake (s.nodes.size + 1) [{ node := head.node }] ⟨s, state, []⟩

def pop (s : Stack) (v count : Nat) : List Slice × Stack :=
  let w := s.walk v (fun (_ : Unit) _ w => ⟨(), w.count == count, w.count == count⟩) ()
  (w.slices, w.stack)

def popAll (s : Stack) (v : Nat) : List Slice × Stack :=
  let w := s.walk v (fun (_ : Unit) n _ => ⟨(), n.links.isEmpty, false⟩) ()
  (w.slices, w.stack)

/-- Takes an error off a head, if there is one on top, and gives what is in it. -/
def popError (s : Stack) (v : Nat) : List Subtree × Stack :=
  let isError (l : Link) : Bool := l.tree.any Subtree.isError
  if (s.node v).links.any isError then
    let w := s.walk v (fun (found : Bool) _ w =>
      match w.trees with
      | [] => ⟨found, false, false⟩
      | t :: _ => if !found && t.isError then ⟨true, true, true⟩ else ⟨found, false, true⟩) false
    match w.slices with
    | [] => ([], w.stack)
    | slice :: _ =>
      ((slice.trees.head?.map (·.children)).getD [], w.stack.moveHead slice.version v)
  else ([], s)

def pastStates (s : Stack) (v maxDepth : Nat) : List PastState :=
  (s.walk v (fun (past : List PastState) n w =>
    if w.count > maxDepth then ⟨past, false, true⟩
    else
      let near := past.takeWhile fun p => w.count ≤ p.depth
      if near.any fun p => p.depth == w.count && p.state == n.state then ⟨past, false, false⟩
      else ⟨⟨n.position, w.count, n.state⟩ :: past, false, false⟩) []).state.reverse

/-! ## Mistakes -/

def costOf (s : Stack) (v : Nat) : Nat :=
  let node := s.node v
  let isLost := node.state == 0 && (node.links.head?.any (·.tree.isNone))
  if (s.head v).isPaused || isLost then node.cost + costOfMistake else node.cost

/-- Notes that there are fewer nodes than at the last mistake. -/
def settleCount (s : Stack) (v : Nat) : Stack :=
  let count := (s.node v).count
  s.modifyHead v fun h => { h with countAtMistake := min h.countAtMistake count }

def pause (s : Stack) (v : Nat) (token : Subtree) : Stack :=
  let count := (s.node v).count
  s.modifyHead v fun h => { h with status := .paused token, countAtMistake := count }

def countSince (s : Stack) (v : Nat) : Nat := (s.node v).count - (s.head v).countAtMistake

end Stack

end JavaAtlas.Parsing
