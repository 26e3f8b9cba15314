import JavaAtlas.Data.SortedMap
import JavaAtlas.Progress.Channel

/-!
# Units of work and their progress

A unit of work begins once and ends once: when somebody finishes it, or when the last of its holders
lets go of it.
-/

namespace JavaAtlas

set_option autoImplicit false

inductive ProgressEvent
  | started (id : Nat) (title : String) (total : Option Nat)
  | reported (id : Nat) (message : Option String) (done : Nat) (total : Option Nat)
  | ended (id : Nat) (message : Option String)
deriving DecidableEq

structure WorkUnit where
  total : Option Nat
  ended : Bool := false
  /-- How many handles there are. -/
  holders : Nat := 1
deriving DecidableEq

structure ProgressBoard where
  channel : Channel ProgressEvent
  nextId : Nat := 1
  units : SortedMap Nat WorkUnit := ∅

namespace ProgressBoard

def ofCapacity (n : Nat) : ProgressBoard := { channel := .ofCapacity n }

instance : Inhabited ProgressBoard := ⟨ofCapacity 1024⟩

def send (b : ProgressBoard) (e : ProgressEvent) : ProgressBoard :=
  { b with channel := b.channel.send e }

def start (b : ProgressBoard) (title : String) (total : Option Nat) : ProgressBoard × Nat :=
  let id := b.nextId
  ({ b.send (.started id title total) with
      nextId := id + 1
      units := b.units.insert id { total := total } }, id)

def report (b : ProgressBoard) (id : Nat) (message : Option String) (done : Nat) : ProgressBoard :=
  match b.units.get? id with
  | none => b
  | some u => b.send (.reported id message done u.total)

def finish (b : ProgressBoard) (id : Nat) (message : Option String) : ProgressBoard :=
  match b.units.get? id with
  | none => b
  | some u =>
    if u.ended then b
    else { b.send (.ended id message) with units := b.units.insert id { u with ended := true } }

def hold (b : ProgressBoard) (id : Nat) : ProgressBoard :=
  match b.units.get? id with
  | none => b
  | some u => { b with units := b.units.insert id { u with holders := u.holders + 1 } }

/-- Lets go of a handle; the last one ends the work. -/
def drop (b : ProgressBoard) (id : Nat) : ProgressBoard :=
  match b.units.get? id with
  | none => b
  | some u =>
    if u.holders ≤ 1 then
      let b := b.finish id none
      { b with units := b.units.erase id }
    else { b with units := b.units.insert id { u with holders := u.holders - 1 } }

def subscribe (b : ProgressBoard) : ProgressBoard × Nat :=
  let (channel, receiver) := b.channel.subscribe
  ({ b with channel := channel }, receiver)

def receive (b : ProgressBoard) (receiver : Nat) : ProgressBoard × List (Delivery ProgressEvent) :=
  let (channel, events) := b.channel.receive receiver
  ({ b with channel := channel }, events)

end ProgressBoard

end JavaAtlas
