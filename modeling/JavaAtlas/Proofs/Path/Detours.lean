import JavaAtlas.Proofs.Path
import Mathlib.Data.List.Induction

/-!
# Detours in a path

Which file a path names can be read off its text piece by piece: an empty piece and `.` lead nowhere,
`..` takes back the last name, or nothing at the root. So whatever leads back to where it began can
be written into a path anywhere, and the names that are left are those that no `..` cancels.
-/

namespace JavaAtlas

set_option autoImplicit false

namespace Path

/-! ## Piece by piece -/

/-- The names reached after one more piece of text between slashes. -/
def enter (names : List String) (piece : String) : List String :=
  if piece ≠ "" && piece ≠ "." then cancel names (componentOf piece) else names

/-- The names reached from some names along a text. -/
def follow (names : List String) (text : String) : List String :=
  (Text.split '/' text).foldl enter names

/-- The names and the `..` of a path, in order. -/
def turns (p : Path) : List Component :=
  ((Text.split '/' p.spelling).filter fun s => s ≠ "" && s ≠ ".").map componentOf

theorem foldl_cancel_turns (p : Path) (names : List String) :
    p.turns.foldl cancel names = follow names p.spelling := by
  unfold turns follow
  rw [List.foldl_map, List.foldl_filter]
  rfl

theorem foldl_cancel_components (p : Path) : p.components.foldl cancel [] = p.turns.foldl cancel [] := by
  unfold components
  dsimp only
  split
  · rfl
  · split <;> rfl

theorem normalize_eq_ofNames {p : Path} (h : p.spelling ≠ "") :
    p.normalize = ofNames (follow [] p.spelling) := by
  rw [normalize_of_ne_empty h, foldl_cancel_components, foldl_cancel_turns]

theorem isName_of_mem_follow {text : String} : ∀ s ∈ follow [] text, IsName s := by
  intro s hs
  rw [← foldl_cancel_turns ⟨text⟩, ← foldl_cancel_components] at hs
  exact isName_of_mem_cancel s hs

theorem split_append_slash (front rest : String) :
    Text.split '/' (front ++ "/" ++ rest) = Text.split '/' front ++ Text.split '/' rest := by
  have hlist : (front ++ "/" ++ rest).toList = front.toList ++ '/' :: rest.toList := by simp
  unfold Text.split
  rw [hlist, Text.splitWhere_append (by rfl), List.map_append]

theorem follow_append_slash (names : List String) (front rest : String) :
    follow names (front ++ "/" ++ rest) = follow (follow names front) rest := by
  unfold follow
  rw [split_append_slash, List.foldl_append]

@[simp] theorem follow_empty (names : List String) : follow names "" = names := rfl

theorem follow_here (names : List String) : follow names "." = names := rfl

theorem follow_parent (names : List String) : follow names ".." = names.dropLast := rfl

theorem follow_name {s : String} (h : IsName s) (names : List String) :
    follow names s = names ++ [s] := by
  have hsplit : Text.split '/' s = [s] := by
    unfold Text.split
    rw [Text.splitWhere_of_not_mem h.no_slash, List.map_singleton, String.ofList_toList]
  unfold follow
  rw [hsplit, List.foldl_cons, List.foldl_nil, enter, componentOf, if_pos, if_neg h.ne_parent]
  · rfl
  · simp [h.ne_empty, h.ne_here]

/-! ## Insertions -/

/-- A component can begin after `front`. -/
def Opens (front : String) : Prop := front = "" ∨ ∃ before, front = before ++ "/"

/-- A component can end before `rest`. -/
def Closes (rest : String) : Prop := rest = "" ∨ ∃ after, rest = "/" ++ after

/-- `q` is `p` with `extra` written into it as whole pieces after `front`. -/
inductive Inserted (front extra : String) : Path → Path → Prop
  | before {rest : String} (h : Opens front) :
    Inserted front extra ⟨front ++ rest⟩ ⟨front ++ extra ++ "/" ++ rest⟩
  | after {rest : String} (h : Closes rest) :
    Inserted front extra ⟨front ++ rest⟩ ⟨front ++ "/" ++ extra ++ rest⟩

/-- Pieces that lead back to where they began: an empty one, which doubles a slash or adds one at the
end, `.`, and a name with the `..` that takes it back. -/
inductive Idle : String → Prop
  | slash : Idle ""
  | here : Idle "."
  | climb {s : String} (h : IsName s) : Idle (s ++ "/..")

theorem follow_idle {extra : String} (h : Idle extra) (names : List String) :
    follow names extra = names := by
  cases h with
  | slash => exact follow_empty names
  | here => exact follow_here names
  | @climb s hs =>
    have htext : s ++ "/.." = s ++ "/" ++ ".." := by rw [String.append_assoc]; rfl
    rw [htext, follow_append_slash, follow_name hs, follow_parent, List.dropLast_concat]

/-- Only where the insertion leads from where it stands matters. -/
theorem Inserted.follow_eq {front extra : String} {p q : Path} (h : Inserted front extra p q)
    (hback : follow (follow [] front) extra = follow [] front) :
    follow [] q.spelling = follow [] p.spelling := by
  cases h with
  | @before rest hfront =>
    rcases hfront with rfl | ⟨before, rfl⟩
    · rw [follow_empty] at hback
      simp only [String.empty_append]
      rw [follow_append_slash, hback]
    · have hbefore : follow [] (before ++ "/") = follow [] before := by
        have htext : before ++ "/" = before ++ "/" ++ "" := (String.append_empty).symm
        rw [htext, follow_append_slash, follow_empty]
      rw [hbefore] at hback
      have htext : before ++ "/" ++ extra ++ "/" ++ rest = before ++ "/" ++ (extra ++ "/" ++ rest) := by
        simp only [String.append_assoc]
      rw [htext, follow_append_slash, follow_append_slash, follow_append_slash, hback]
  | @after rest hrest =>
    rcases hrest with rfl | ⟨after, rfl⟩
    · simp only [String.append_empty]
      rw [follow_append_slash, hback]
    · have htext : front ++ "/" ++ extra ++ ("/" ++ after) = front ++ "/" ++ (extra ++ "/" ++ after) := by
        simp only [String.append_assoc]
      have hplain : front ++ ("/" ++ after) = front ++ "/" ++ after := (String.append_assoc ..).symm
      simp only [htext, hplain]
      rw [follow_append_slash, follow_append_slash, follow_append_slash, hback]

theorem Inserted.ne_empty {front extra : String} {p q : Path} (h : Inserted front extra p q) :
    q.spelling ≠ "" := by
  intro hempty
  have hlist := congrArg String.toList hempty
  cases h <;> simp at hlist

/-- The text leads to the root directory. -/
def AtRoot (front : String) : Prop := front = "" ∨ (Path.mk front).normalize = ⟨"/"⟩

theorem AtRoot.follow_eq {front : String} (h : AtRoot front) : follow [] front = [] := by
  rcases h with rfl | h
  · rfl
  · have hne : (Path.mk front).spelling ≠ "" := by
      rintro rfl
      exact absurd (congrArg Path.spelling h) (by decide)
    have hcomponents := components_normalize hne
    rw [h, foldl_cancel_components, foldl_cancel_turns] at hcomponents
    have hroot : (Path.mk "/").components = [.root] := by decide
    rw [hroot, List.cons.injEq] at hcomponents
    exact List.map_eq_nil_iff.mp hcomponents.2.symm

/-! ## Cancelling -/

/-- What is left when each `..`, from the left, is taken away with the name before it, or alone where
no name is left before it. -/
inductive Cancels : List Component → List String → Prop
  | done (names : List String) : Cancels (names.map .name) names
  | pair (before : List String) {s : String} {rest : List Component} {left : List String}
    (h : Cancels (before.map .name ++ rest) left) :
    Cancels (before.map .name ++ .name s :: .parent :: rest) left
  | root {rest : List Component} {left : List String} (h : Cancels rest left) :
    Cancels (.parent :: rest) left

theorem Cancels.eq_foldl {turns : List Component} {left : List String} (h : Cancels turns left) :
    left = turns.foldl cancel [] := by
  induction h with
  | done names => rw [foldl_cancel_names, List.nil_append]
  | @pair before s rest left _ ih =>
    rw [ih, List.foldl_append, List.foldl_append, foldl_cancel_names, List.foldl_cons, List.foldl_cons,
      cancel, cancel, List.dropLast_concat]
  | root _ ih => exact ih

/-- The induction is on what is still to be read, with the names read so far in front of it. -/
theorem cancels_foldl {rest : List Component} (h : ∀ c ∈ rest, c = .parent ∨ ∃ s, c = .name s)
    (names : List String) : Cancels (names.map .name ++ rest) (rest.foldl cancel names) := by
  induction rest generalizing names with
  | nil =>
    rw [List.append_nil]
    exact .done names
  | cons c rest ih =>
    rw [List.forall_mem_cons] at h
    obtain ⟨rfl | ⟨s, rfl⟩, hrest⟩ := h
    · cases names using List.reverseRecOn with
      | nil => exact .root (ih hrest [])
      | append_singleton before s =>
        have hpair := Cancels.pair before (s := s) (ih hrest before)
        rw [List.foldl_cons, cancel, List.dropLast_concat, List.map_append, List.append_assoc]
        exact hpair
    · have hread := ih hrest (names ++ [s])
      rw [List.map_append, List.append_assoc] at hread
      exact hread

theorem cancels_turns_iff (p : Path) (left : List String) :
    Cancels p.turns left ↔ left = follow [] p.spelling := by
  rw [← foldl_cancel_turns]
  constructor
  · exact Cancels.eq_foldl
  · rintro rfl
    apply cancels_foldl _ []
    intro c hc
    obtain ⟨piece, -, rfl⟩ := List.mem_map.mp hc
    unfold componentOf
    split
    · exact Or.inl rfl
    · exact Or.inr ⟨piece, rfl⟩

/-! ## Normalizing -/

/-- The file that a path names is determined by its text alone. -/
structure Lexical (p : Path) : Prop where
  absolute : p.normalize.isAbsolute = true
  cancelled : ∃ names : List String, (∀ s ∈ names, IsName s) ∧
    p.normalize.spelling = "/" ++ "/".intercalate names ∧
    ∀ left, Cancels p.turns left ↔ left = names
  idempotent : p.normalize.normalize = p.normalize
  detour : ∀ {front extra : String} {q : Path}, Inserted front extra p q → Idle extra →
    q.normalize = p.normalize
  root : ∀ {front : String} {q : Path}, Inserted front ".." p q → AtRoot front →
    q.normalize = p.normalize

/-- Normalizing cancels each `..` against the nearest name left before it, and nothing that leads
nowhere changes the result. -/
theorem lexical_of_ne_empty {p : Path} (h : p.spelling ≠ "") : p.Lexical := by
  have hnames := normalize_eq_ofNames h
  have hinserted {front extra : String} {q : Path} (hq : Inserted front extra p q)
      (hback : follow (follow [] front) extra = follow [] front) : q.normalize = p.normalize := by
    rw [normalize_eq_ofNames hq.ne_empty, hnames, hq.follow_eq hback]
  constructor
  case absolute =>
    rw [hnames, isAbsolute, spelling_ofNames]
    rfl
  case cancelled =>
    refine ⟨follow [] p.spelling, isName_of_mem_follow, ?_, cancels_turns_iff p⟩
    rw [hnames, ← String.toList_inj, spelling_ofNames, String.toList_append, String.toList_intercalate]
    rfl
  case idempotent => exact normalize_normalize p
  case detour =>
    intro front extra q hq hidle
    exact hinserted hq (follow_idle hidle _)
  case root =>
    intro front q hq hroot
    apply hinserted hq
    rw [hroot.follow_eq, follow_parent, List.dropLast_nil]

/-- A relative path that climbs past the root and comes back down. -/
theorem lexical_climbing :
    (Path.mk "a/./b/../../../p//C.java/").Lexical ∧
      (Path.mk "a/./b/../../../p//C.java/").normalize.spelling = "/p/C.java" := by
  constructor
  · apply lexical_of_ne_empty
    decide
  · decide +kernel

end Path

end JavaAtlas
