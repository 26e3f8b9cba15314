/-!
# Breadth-first reachability

The nodes reachable from a frontier, layer by layer: each round keeps the nodes of the frontier that
were not seen before and goes on with their successors.
-/

namespace JavaAtlas

set_option autoImplicit false

universe u

variable {α : Type u} [BEq α]

def freshOf (seen : List α) : List α → List α
  | [] => []
  | x :: xs => if seen.contains x then freshOf seen xs else x :: freshOf (x :: seen) xs

/-- At most `rounds` layers beyond what is seen, in order of discovery. -/
def layers (next : α → List α) : Nat → List α → List α → List (List α)
  | 0, _, _ => []
  | rounds + 1, seen, frontier =>
    match freshOf seen frontier with
    | [] => []
    | fresh => fresh :: layers next rounds (seen ++ fresh) (fresh.flatMap next)

/-- Everything reachable from `frontier` by steps of `next`, the frontier included, in order of
discovery; `bound` is at least the number of such nodes. -/
def reachable (next : α → List α) (bound : Nat) (frontier : List α) : List α :=
  (layers next bound [] frontier).flatten

end JavaAtlas
