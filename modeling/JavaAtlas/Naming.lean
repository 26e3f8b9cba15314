/-!
# Finite kinds and their names

A finite kind lists its values in a fixed order and shows each of them by a name of its own, so a
name can be read back.
-/

namespace JavaAtlas

set_option autoImplicit false

class Named (α : Type) where
  /-- Every value, in order. -/
  all : List α
  name : α → String
  find_name : ∀ a, all.find? (fun b => name b == name a) = some a := by intro a; cases a <;> rfl

namespace Named

variable {α : Type} [Named α]

def ofName? (word : String) : Option α := (all : List α).find? fun a => name a == word

@[simp] theorem ofName?_name (a : α) : ofName? (name a) = some a := find_name a

theorem mem_all (a : α) : a ∈ (all : List α) := List.mem_of_find?_eq_some (find_name a)

end Named

end JavaAtlas
