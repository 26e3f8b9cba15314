import JavaAtlas.Index.Query

/-!
# Scanning names by prefix

A scan yields the symbols whose name starts with a text, in name order, a few at a time. It keeps
the snapshot it was started on and the last name it visited.
-/

namespace JavaAtlas

set_option autoImplicit false

structure PrefixScan where
  snapshot : Snapshot
  start : String
  /-- The last name visited. -/
  cursor : Option String := none
  /-- Symbols of that name still to be given out. -/
  pending : List Symbol := []
  done : Bool := false

namespace PrefixScan

def remaining (scan : PrefixScan) : List String :=
  (SortedSet.toList scan.snapshot.fqnOrder).filter fun fqn =>
    match scan.cursor with
    | some cursor => compare cursor fqn == .lt
    | none => (compare scan.start fqn).isLE

/-- Visits names in order until one has a symbol. -/
def advance (scan : PrefixScan) : List String → Option Symbol × PrefixScan
  | [] => (none, { scan with done := true })
  | fqn :: rest =>
    if Text.startsWith scan.start fqn then
      match scan.snapshot.symbolsByFqn fqn with
      | [] => advance { scan with cursor := some fqn } rest
      | symbol :: more => (some symbol, { scan with cursor := some fqn, pending := more })
    else (none, { scan with done := true })

def next (scan : PrefixScan) : Option Symbol × PrefixScan :=
  match scan.pending with
  | symbol :: more => (some symbol, { scan with pending := more })
  | [] => if scan.done then (none, scan) else scan.advance scan.remaining

def take : Nat → PrefixScan → List Symbol × PrefixScan
  | 0, scan => ([], scan)
  | n + 1, scan =>
    match scan.next with
    | (none, scan) => ([], scan)
    | (some symbol, scan) =>
      let (symbols, scan) := take n scan
      (symbol :: symbols, scan)

def toList (scan : PrefixScan) : List Symbol := (take (scan.snapshot.symbolCount + 1) scan).1

end PrefixScan

def Snapshot.scan (s : Snapshot) (start : String) : PrefixScan := { snapshot := s, start := start }

end JavaAtlas
