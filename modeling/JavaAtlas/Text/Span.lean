/-!
# Byte ranges of a text

Offsets count bytes of the UTF-8 text and fit 32 bits; a span never ends before it starts.
-/

namespace JavaAtlas

set_option autoImplicit false

def maxOffset : Nat := 4294967295

structure Span where
  start : Nat
  stop : Nat
  ordered : start ≤ stop
  bounded : stop ≤ maxOffset
deriving DecidableEq

namespace Span

instance : Inhabited Span := ⟨⟨0, 0, Nat.le_refl 0, Nat.zero_le _⟩⟩

/-- The span from `start` to `stop` when that is a range of representable offsets. -/
def mk? (start stop : Nat) : Option Span :=
  if h : start ≤ stop ∧ stop ≤ maxOffset then some ⟨start, stop, h.1, h.2⟩ else none

/-- The span from `start` to `stop`, each offset held to the representable ones and the end moved
up to the start when it lies before it. -/
def clamp (start stop : Nat) : Span :=
  ⟨min start maxOffset, max (min start maxOffset) (min stop maxOffset),
    Nat.le_max_left _ _, Nat.max_le.mpr ⟨Nat.min_le_right _ _, Nat.min_le_right _ _⟩⟩

def length (s : Span) : Nat := s.stop - s.start

/-- `offset` lies in the span, the end excluded. -/
def contains (s : Span) (offset : Nat) : Bool := s.start ≤ offset && offset < s.stop

def touches (s : Span) (offset : Nat) : Bool := s.start ≤ offset && offset ≤ s.stop

def encloses (s : Span) (offset : Nat) : Bool := s.start < offset && offset < s.stop

def covers (s inner : Span) : Bool := s.start ≤ inner.start && inner.stop ≤ s.stop

def before (a b : Span) : Bool := a.start < b.start || (a.start == b.start && a.stop ≤ b.stop)

end Span

end JavaAtlas
