import JavaAtlas.Progress.Board

/-!
# Handles under names

A name stands for one handle onto a unit of work. Giving the name to another handle lets go of the
one it stood for.
-/

namespace JavaAtlas

set_option autoImplicit false

structure HandleTable where
  board : ProgressBoard
  handles : SortedMap String Nat := ∅

namespace HandleTable

instance : Inhabited HandleTable := ⟨{ board := default }⟩

def handle? (t : HandleTable) (name : String) : Option Nat := t.handles.get? name

def drop (t : HandleTable) (name : String) : HandleTable × Bool :=
  match t.handle? name with
  | some id => ({ board := t.board.drop id, handles := t.handles.erase name }, true)
  | none => (t, false)

def assign (t : HandleTable) (name : String) (id : Nat) : HandleTable :=
  let (t, _) := t.drop name
  { t with handles := t.handles.insert name id }

def start (t : HandleTable) (name title : String) (total : Option Nat) : HandleTable × Nat :=
  let (board, id) := t.board.start title total
  ({ t with board := board }.assign name id, id)

def report? (t : HandleTable) (name : String) (message : Option String) (done : Nat) :
    Option HandleTable := do
  return { t with board := t.board.report (← t.handle? name) message done }

/-- Takes another handle onto the same work, under a name of its own. -/
def hold? (t : HandleTable) (name copy : String) : Option HandleTable := do
  let id ← t.handle? name
  return { t with board := t.board.hold id }.assign copy id

def finish? (t : HandleTable) (name : String) (message : Option String) : Option HandleTable := do
  return { t with board := t.board.finish (← t.handle? name) message }

end HandleTable

end JavaAtlas
