/-!
# A bounded broadcast channel

Every receiver sees the messages sent after it subscribed. Only the last `capacity` of them are
kept: a receiver that fell behind is told how many it lost and goes on with the oldest one kept.
-/

namespace JavaAtlas

set_option autoImplicit false

universe u

/-- The least power of two that is at least `n`. -/
def nextPowerOfTwo (n : Nat) : Nat := if n ≤ 1 then 1 else Nat.pow 2 (Nat.log2 (n - 1) + 1)

structure Channel (α : Type u) where
  capacity : Nat
  /-- Everything ever sent. -/
  sent : List α := []
  /-- How much each receiver has seen. -/
  seen : List Nat := []

inductive Delivery (α : Type u)
  | lagged (lost : Nat)
  | message (a : α)

namespace Channel

variable {α : Type u}

def ofCapacity (n : Nat) : Channel α := { capacity := nextPowerOfTwo n }

def send (c : Channel α) (a : α) : Channel α := { c with sent := c.sent ++ [a] }

def subscribe (c : Channel α) : Channel α × Nat :=
  ({ c with seen := c.seen ++ [c.sent.length] }, c.seen.length)

def receive (c : Channel α) (receiver : Nat) : Channel α × List (Delivery α) :=
  match c.seen[receiver]? with
  | none => (c, [])
  | some seen =>
    let oldest := c.sent.length - c.capacity
    let messages := (c.sent.drop (max seen oldest)).map Delivery.message
    ({ c with seen := c.seen.set receiver c.sent.length },
      if seen < oldest then .lagged (oldest - seen) :: messages else messages)

end Channel

end JavaAtlas
