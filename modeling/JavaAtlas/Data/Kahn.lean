import JavaAtlas.Data.SortedSet

/-!
# Kahn's order

Nodes are numbered from zero and each lists the nodes it needs. A node is ready once all it needs
was taken. The least ready node is taken next; where none is ready, the first that still waits.
-/

namespace JavaAtlas

set_option autoImplicit false

namespace Kahn

structure State where
  /-- How many of the nodes it needs each node still waits for. -/
  missing : List Nat
  ready : SortedSet Nat
  taken : List Bool
  order : List Nat := []

variable (needs : List (List Nat))

def needsOf (node : Nat) : List Nat := needs[node]?.getD []

def users (node : Nat) : List Nat :=
  (List.range needs.length).filter fun user => (needsOf needs user).contains node

namespace State

def start : State where
  missing := needs.map List.length
  ready := SortedSet.ofList ((List.range needs.length).filter fun node => (needsOf needs node).isEmpty)
  taken := needs.map fun _ => false

/-- One of the nodes that `user` needs was taken. -/
def release (k : State) (user : Nat) : State :=
  let missing := k.missing.modify user (· - 1)
  let free := missing[user]? == some 0 && k.taken[user]? == some false
  { k with missing, ready := if free then k.ready.add user else k.ready }

def take (k : State) (node : Nat) : State :=
  (users needs node).foldl release
    { k with taken := k.taken.set node true, order := k.order ++ [node] }

def next? (k : State) : Option (Nat × SortedSet Nat) :=
  match k.ready.toList with
  | node :: _ => some (node, k.ready.erase node)
  | [] => (k.taken.findIdx? (! ·)).map fun node => (node, k.ready)

def run : Nat → State → State
  | 0, k => k
  | rounds + 1, k =>
    if needs.length ≤ k.order.length then k
    else
      match k.next? with
      | none => k
      | some (node, ready) =>
        if k.taken[node]? == some true then run rounds { k with ready }
        else run rounds (take needs { k with ready } node)

end State

/-- All nodes; there are as many rounds as nodes. -/
def order : List Nat := (State.run needs needs.length (State.start needs)).order

end Kahn

end JavaAtlas
