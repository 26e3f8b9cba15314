import JavaAtlas.Data.Reach
import Mathlib.Data.List.Nodup
import Mathlib.Data.List.Perm.Subperm

/-!
# What a breadth-first walk finds

Layer by layer the walk meets a node in the round that is its distance from the frontier. When the
steps stay among finitely many nodes and there are more rounds than nodes, the last round finds
nothing new, so every node at any distance is listed, once, and the nearer ones come first. A queue
that is served from the front gives the same list, and a search that looks at one level after the
other stops at the least distance at which there is an answer.
-/

namespace JavaAtlas

set_option autoImplicit false

universe u

variable {α : Type u} {next : α → List α} {nodes start : List α}

/-- `n` steps lead from a member of `start` to this node. -/
def Arrives (next : α → List α) (start : List α) : Nat → α → Prop
  | 0, x => x ∈ start
  | n + 1, x => ∃ y, Arrives next start n y ∧ x ∈ next y

/-- What `f` gives for the nodes at the least distance at which it gives anything, each node once.
`reach n x` says that `x` can be reached in `n` steps. -/
inductive Nearest {β : Type u} (reach : Nat → α → Prop) (f : α → List β) : List β → Prop
  | nowhere : (∀ n x, reach n x → f x = []) → Nearest reach f []
  | level {n : Nat} {level : List α} : level.Nodup →
      (∀ x, x ∈ level ↔ reach n x ∧ ∀ m, m < n → ¬ reach m x) → level.flatMap f ≠ [] →
      (∀ m, m < n → ∀ x, reach m x → f x = []) → Nearest reach f (level.flatMap f)

namespace Nearest

variable {β : Type u} {reach : Nat → α → Prop} {f : α → List β} {answer : List β}

theorem eq_nil_iff (h : Nearest reach f answer) : answer = [] ↔ ∀ n x, reach n x → f x = [] := by
  cases h with
  | nowhere hnone => exact iff_of_true rfl hnone
  | level _ hlevel hfound _ =>
    refine iff_of_false hfound fun hnone => hfound (List.flatMap_eq_nil_iff.mpr fun x hx => ?_)
    exact hnone _ x ((hlevel x).mp hx).1

end Nearest

/-- Before round `d` the walk has seen what is nearer than `d` steps, and the rest of what is `d`
steps away is on the frontier. -/
structure Round (next : α → List α) (start : List α) (d : Nat) (seen frontier : List α) : Prop where
  nodup : seen.Nodup
  mem_seen_iff : ∀ x, x ∈ seen ↔ ∃ m, m < d ∧ Arrives next start m x
  arrives : ∀ x ∈ frontier, Arrives next start d x
  covered : ∀ x, Arrives next start d x → x ∈ frontier ∨ x ∈ seen

theorem Round.first (next : α → List α) (start : List α) : Round next start 0 [] start where
  nodup := List.nodup_nil
  mem_seen_iff x := by simp
  arrives _ hx := hx
  covered _ hx := Or.inl hx

variable [BEq α]

/-- No step leaves `nodes`, and nodes that count as equal are the same. -/
structure Confined (next : α → List α) (nodes : List α) : Prop where
  eq_of_beq : ∀ x ∈ nodes, ∀ y ∈ nodes, (x == y) = true → x = y
  closed : ∀ x ∈ nodes, ∀ y ∈ next x, y ∈ nodes

theorem Confined.mem_of_arrives (h : Confined next nodes) (hstart : ∀ x ∈ start, x ∈ nodes) {n : Nat}
    {x : α} (hx : Arrives next start n x) : x ∈ nodes := by
  induction n generalizing x with
  | zero => exact hstart x hx
  | succ n ih =>
    obtain ⟨y, hy, hxy⟩ := hx
    exact h.closed y (ih hy) x hxy

theorem Round.seen_subset {d : Nat} {seen frontier : List α} (h : Round next start d seen frontier)
    (hconf : Confined next nodes) (hstart : ∀ x ∈ start, x ∈ nodes) : ∀ x ∈ seen, x ∈ nodes := by
  intro x hx
  obtain ⟨m, -, hm⟩ := (h.mem_seen_iff x).mp hx
  exact hconf.mem_of_arrives hstart hm

/-! ## One round -/

section Walk

variable [ReflBEq α]

theorem Confined.contains_iff (h : Confined next nodes) {seen : List α}
    (hseen : ∀ x ∈ seen, x ∈ nodes) {x : α} (hx : x ∈ nodes) : seen.contains x = true ↔ x ∈ seen := by
  rw [List.contains_iff_exists_mem_beq]
  constructor
  · rintro ⟨y, hy, hxy⟩
    rwa [h.eq_of_beq x hx y (hseen y hy) hxy]
  · intro hmem
    exact ⟨x, hmem, BEq.rfl⟩

theorem Confined.mem_freshOf_iff (h : Confined next nodes) {seen xs : List α}
    (hseen : ∀ x ∈ seen, x ∈ nodes) (hxs : ∀ x ∈ xs, x ∈ nodes) (x : α) :
    x ∈ freshOf seen xs ↔ x ∈ xs ∧ x ∉ seen := by
  induction xs generalizing seen with
  | nil => simp [freshOf]
  | cons y ys ih =>
    have hy : y ∈ nodes := hxs y List.mem_cons_self
    have hys : ∀ x ∈ ys, x ∈ nodes := fun x hx => hxs x (List.mem_cons_of_mem _ hx)
    have hmore : ∀ x ∈ y :: seen, x ∈ nodes := List.forall_mem_cons.mpr ⟨hy, hseen⟩
    have hcontains := h.contains_iff hseen hy
    rw [freshOf]
    split
    next hold =>
      rw [ih hseen hys, List.mem_cons]
      have hin : y ∈ seen := hcontains.mp hold
      constructor
      · rintro ⟨hx, hno⟩
        exact ⟨Or.inr hx, hno⟩
      · rintro ⟨rfl | hx, hno⟩
        · exact absurd hin hno
        · exact ⟨hx, hno⟩
    next hnew =>
      have hout : y ∉ seen := fun hin => hnew (hcontains.mpr hin)
      rw [List.mem_cons, ih hmore hys, List.mem_cons, List.mem_cons]
      constructor
      · rintro (rfl | ⟨hx, hno⟩)
        · exact ⟨Or.inl rfl, hout⟩
        · exact ⟨Or.inr hx, fun hin => hno (Or.inr hin)⟩
      · rintro ⟨rfl | hx, hno⟩
        · exact Or.inl rfl
        · by_cases heq : x = y
          · exact Or.inl heq
          · exact Or.inr ⟨hx, fun hin => hin.elim heq hno⟩

theorem Confined.nodup_freshOf (h : Confined next nodes) {seen xs : List α}
    (hseen : ∀ x ∈ seen, x ∈ nodes) (hxs : ∀ x ∈ xs, x ∈ nodes) : (freshOf seen xs).Nodup := by
  induction xs generalizing seen with
  | nil => exact List.nodup_nil
  | cons y ys ih =>
    have hys : ∀ x ∈ ys, x ∈ nodes := fun x hx => hxs x (List.mem_cons_of_mem _ hx)
    have hmore : ∀ x ∈ y :: seen, x ∈ nodes :=
      List.forall_mem_cons.mpr ⟨hxs y List.mem_cons_self, hseen⟩
    rw [freshOf]
    split
    · exact ih hseen hys
    · refine List.nodup_cons.mpr ⟨fun hmem => ?_, ih hmore hys⟩
      exact ((h.mem_freshOf_iff hmore hys y).mp hmem).2 List.mem_cons_self

namespace Round

variable {d : Nat} {seen frontier : List α}

theorem mem_freshOf_iff (h : Round next start d seen frontier) (hconf : Confined next nodes)
    (hstart : ∀ x ∈ start, x ∈ nodes) (x : α) :
    x ∈ freshOf seen frontier ↔ Arrives next start d x ∧ x ∉ seen := by
  have hfrontier : ∀ y ∈ frontier, y ∈ nodes := fun y hy =>
    hconf.mem_of_arrives hstart (h.arrives y hy)
  rw [hconf.mem_freshOf_iff (h.seen_subset hconf hstart) hfrontier]
  constructor
  · rintro ⟨hx, hno⟩
    exact ⟨h.arrives x hx, hno⟩
  · rintro ⟨hx, hno⟩
    exact ⟨(h.covered x hx).resolve_right hno, hno⟩

theorem step (h : Round next start d seen frontier) (hconf : Confined next nodes)
    (hstart : ∀ x ∈ start, x ∈ nodes) :
    Round next start (d + 1) (seen ++ freshOf seen frontier)
      ((freshOf seen frontier).flatMap next) := by
  have hfresh := h.mem_freshOf_iff hconf hstart
  have hseen : ∀ x, x ∈ seen ++ freshOf seen frontier ↔ ∃ m, m < d + 1 ∧ Arrives next start m x := by
    intro x
    rw [List.mem_append, hfresh, h.mem_seen_iff]
    constructor
    · rintro (⟨m, hm, hx⟩ | ⟨hx, -⟩)
      · exact ⟨m, by omega, hx⟩
      · exact ⟨d, by omega, hx⟩
    · rintro ⟨m, hm, hx⟩
      by_cases hold : ∃ m, m < d ∧ Arrives next start m x
      · exact Or.inl hold
      · obtain rfl : m = d := by
          by_contra hne
          exact hold ⟨m, by omega, hx⟩
        exact Or.inr ⟨hx, hold⟩
  refine ⟨?_, hseen, ?_, ?_⟩
  · have hfrontier : ∀ y ∈ frontier, y ∈ nodes := fun y hy =>
      hconf.mem_of_arrives hstart (h.arrives y hy)
    have hnodup := hconf.nodup_freshOf (h.seen_subset hconf hstart) hfrontier
    exact h.nodup.append hnodup fun x hx hnew => ((hfresh x).mp hnew).2 hx
  · intro x hx
    obtain ⟨y, hy, hxy⟩ := List.mem_flatMap.mp hx
    exact ⟨y, ((hfresh y).mp hy).1, hxy⟩
  · rintro x ⟨y, hy, hxy⟩
    by_cases hold : y ∈ seen
    · -- a step from an older node arrives in an older round or in this one
      obtain ⟨m, hm, hmy⟩ := (h.mem_seen_iff y).mp hold
      exact Or.inr ((hseen x).mpr ⟨m + 1, by omega, y, hmy, hxy⟩)
    · exact Or.inl (List.mem_flatMap.mpr ⟨y, (hfresh y).mpr ⟨hy, hold⟩, hxy⟩)

theorem mem_seen_of_done (h : Round next start d seen frontier) (hconf : Confined next nodes)
    (hstart : ∀ x ∈ start, x ∈ nodes) (hdone : freshOf seen frontier = []) {n : Nat} {x : α}
    (hx : Arrives next start n x) : x ∈ seen := by
  have hnow : ∀ y, Arrives next start d y → y ∈ seen := by
    intro y hy
    by_contra hno
    have hfresh := (h.mem_freshOf_iff hconf hstart y).mpr ⟨hy, hno⟩
    simp [hdone] at hfresh
  induction n generalizing x with
  | zero =>
    rcases Nat.eq_zero_or_pos d with rfl | hd
    · exact hnow x hx
    · exact (h.mem_seen_iff x).mpr ⟨0, hd, hx⟩
  | succ n ih =>
    obtain ⟨y, hy, hxy⟩ := hx
    obtain ⟨m, hm, hmy⟩ := (h.mem_seen_iff y).mp (ih hy)
    have hstep : Arrives next start (m + 1) x := ⟨y, hmy, hxy⟩
    rcases Nat.lt_or_ge (m + 1) d with hlt | hge
    · exact (h.mem_seen_iff x).mpr ⟨m + 1, hlt, hstep⟩
    · obtain rfl : m + 1 = d := by omega
      exact hnow x hstep

end Round

/-! ## All rounds -/

/-- After `seen` a walk lists everything else that is arrived at, once, the nearest first. -/
structure Explores (next : α → List α) (start seen found : List α) : Prop where
  nodup : (seen ++ found).Nodup
  arrives : ∀ x ∈ found, ∃ n, Arrives next start n x
  complete : ∀ n x, Arrives next start n x → x ∈ seen ∨ x ∈ found
  /-- What is listed earlier is no farther away. -/
  nearer : found.Pairwise fun x y => ∃ m, Arrives next start m x ∧ ∀ n, Arrives next start n y → m ≤ n

theorem Round.explores {rounds d : Nat} {seen frontier : List α} (h : Round next start d seen frontier)
    (hconf : Confined next nodes) (hstart : ∀ x ∈ start, x ∈ nodes)
    (hrounds : nodes.length < rounds + seen.length) :
    Explores next start seen (layers next rounds seen frontier).flatten := by
  induction rounds generalizing d seen frontier with
  | zero =>
    -- more was seen than there is
    have hle := (List.subperm_of_subset h.nodup (h.seen_subset hconf hstart)).length_le
    omega
  | succ rounds ih =>
    rw [layers]
    split
    next hdone =>
      refine ⟨by simpa using h.nodup, by simp, fun n x hx => ?_, by simp⟩
      exact Or.inl (h.mem_seen_of_done hconf hstart hdone hx)
    next hmore =>
      have hfresh := h.mem_freshOf_iff hconf hstart
      have hpos : 0 < (freshOf seen frontier).length := List.length_pos_iff.mpr hmore
      have hrest := ih (h.step hconf hstart) (by rw [List.length_append]; omega)
      have hnodup := hrest.nodup
      rw [List.append_assoc] at hnodup
      -- whatever was not seen before this round is at least this far away
      have hfar : ∀ y, y ∉ seen → ∀ n, Arrives next start n y → d ≤ n := by
        intro y hy n hn
        by_contra hlt
        exact hy ((h.mem_seen_iff y).mpr ⟨n, by omega, hn⟩)
      rw [List.flatten_cons]
      refine ⟨hnodup, ?_, ?_, ?_⟩
      · intro x hx
        rcases List.mem_append.mp hx with hx | hx
        · exact ⟨d, ((hfresh x).mp hx).1⟩
        · exact hrest.arrives x hx
      · intro n x hx
        rcases hrest.complete n x hx with hold | hlater
        · exact (List.mem_append.mp hold).imp_right (List.mem_append_left _)
        · exact Or.inr (List.mem_append_right _ hlater)
      · have hout : ∀ y, y ∈ freshOf seen frontier ++
            (layers next rounds (seen ++ freshOf seen frontier)
              ((freshOf seen frontier).flatMap next)).flatten → y ∉ seen := fun y hy hold =>
          (List.disjoint_of_nodup_append hnodup) hold hy
        refine List.pairwise_append.mpr ⟨?_, hrest.nearer, ?_⟩
        · refine List.pairwise_of_forall_mem_list fun x hx y hy => ?_
          exact ⟨d, ((hfresh x).mp hx).1, hfar y (hout y (List.mem_append_left _ hy))⟩
        · intro x hx y hy
          exact ⟨d, ((hfresh x).mp hx).1, hfar y (hout y (List.mem_append_right _ hy))⟩

theorem Confined.explores_reachable (h : Confined next nodes) (hstart : ∀ x ∈ start, x ∈ nodes)
    {bound : Nat} (hbound : nodes.length < bound) :
    Explores next start [] (reachable next bound start) :=
  (Round.first next start).explores h hstart (by simpa using hbound)

theorem Confined.mem_reachable_iff (h : Confined next nodes) (hstart : ∀ x ∈ start, x ∈ nodes)
    {bound : Nat} (hbound : nodes.length < bound) (x : α) :
    x ∈ reachable next bound start ↔ ∃ n, Arrives next start n x := by
  have hexplores := h.explores_reachable hstart hbound
  constructor
  · exact hexplores.arrives x
  · rintro ⟨n, hx⟩
    exact (hexplores.complete n x hx).resolve_left (List.not_mem_nil)

end Walk

/-! ## A queue -/

/-- A queue served from the front. What was seen already is passed over; anything else is listed,
and its successors join the queue. The queue ends empty. -/
inductive Serves (next : α → List α) : List α → List α → List α → Prop
  | done (seen : List α) : Serves next seen [] []
  | pass {seen queue found : List α} {x : α} : seen.contains x = true →
      Serves next seen queue found → Serves next seen (x :: queue) found
  | take {seen queue found : List α} {x : α} : seen.contains x = false →
      Serves next (x :: seen) (queue ++ next x) found → Serves next seen (x :: queue) (x :: found)

theorem Serves.congr {seen seen' queue found : List α} (h : Serves next seen queue found)
    (heq : ∀ x, seen.contains x = seen'.contains x) : Serves next seen' queue found := by
  induction h generalizing seen' with
  | done => exact .done seen'
  | @pass seen queue found x hx _ ih => exact .pass (heq x ▸ hx) (ih heq)
  | @take seen queue found x hx _ ih =>
    refine .take (heq x ▸ hx) (ih fun y => ?_)
    rw [List.contains_cons, List.contains_cons, heq]

theorem Serves.skip {seen queue found old : List α} (h : Serves next seen queue found)
    (hold : ∀ x ∈ old, seen.contains x = true) : Serves next seen (old ++ queue) found := by
  induction old with
  | nil => exact h
  | cons x old ih =>
    have hx := List.forall_mem_cons.mp hold
    exact .pass hx.1 (ih hx.2)

/-- Serving a whole frontier lists what is fresh in it and leaves their successors. -/
theorem Serves.frontier {seen xs later found : List α}
    (h : Serves next (seen ++ freshOf seen xs) (later ++ (freshOf seen xs).flatMap next) found) :
    Serves next seen (xs ++ later) (freshOf seen xs ++ found) := by
  induction xs generalizing seen later with
  | nil => simpa [freshOf] using h
  | cons x xs ih =>
    by_cases hold : seen.contains x = true
    · rw [freshOf, if_pos hold] at h ⊢
      exact .pass hold (ih h)
    · rw [freshOf, if_neg hold] at h ⊢
      rw [List.cons_append, List.cons_append]
      refine .take (Bool.eq_false_iff.mpr hold) ?_
      rw [List.append_assoc]
      have hmore : Serves next (seen ++ x :: freshOf (x :: seen) xs)
          (later ++ next x ++ (freshOf (x :: seen) xs).flatMap next) found := by
        simpa using h
      refine ih (hmore.congr fun y => ?_)
      simp only [List.contains_append, List.contains_cons, Bool.or_left_comm, Bool.or_assoc]

theorem Round.serves [ReflBEq α] {rounds d : Nat} {seen frontier : List α}
    (h : Round next start d seen frontier) (hconf : Confined next nodes)
    (hstart : ∀ x ∈ start, x ∈ nodes) (hrounds : nodes.length < rounds + seen.length) :
    Serves next seen frontier (layers next rounds seen frontier).flatten := by
  induction rounds generalizing d seen frontier with
  | zero =>
    have hle := (List.subperm_of_subset h.nodup (h.seen_subset hconf hstart)).length_le
    omega
  | succ rounds ih =>
    suffices hserves : Serves next seen (frontier ++ [])
        (layers next (rounds + 1) seen frontier).flatten by simpa using hserves
    rw [layers]
    split
    next hdone =>
      have hend : Serves next seen (frontier ++ []) (freshOf seen frontier ++ []) := by
        refine Serves.frontier ?_
        rw [hdone]
        exact .done _
      simpa [hdone] using hend
    next hmore =>
      have hpos : 0 < (freshOf seen frontier).length := List.length_pos_iff.mpr hmore
      rw [List.flatten_cons]
      refine Serves.frontier (ih (h.step hconf hstart) ?_)
      rw [List.length_append]
      omega

/-- What a queue begins with is listed first, unless it repeats itself. -/
theorem Serves.exists_append [LawfulBEq α] {seen xs queue found : List α}
    (h : Serves next seen (xs ++ queue) found) (hnodup : xs.Nodup) (hnew : ∀ x ∈ xs, x ∉ seen) :
    ∃ rest, found = xs ++ rest := by
  induction xs generalizing seen queue found with
  | nil => exact ⟨found, rfl⟩
  | cons x xs ih =>
    obtain ⟨hx, hxs⟩ := List.nodup_cons.mp hnodup
    cases h with
    | pass hold _ => exact absurd (List.contains_iff_mem.mp hold) (hnew x List.mem_cons_self)
    | take _ hlater =>
      have hqueue : xs ++ queue ++ next x = xs ++ (queue ++ next x) := List.append_assoc ..
      obtain ⟨rest, rfl⟩ := ih (hqueue ▸ hlater) hxs fun y hy => by
        rw [List.mem_cons, not_or]
        refine ⟨?_, hnew y (List.mem_cons_of_mem x hy)⟩
        rintro rfl
        exact hx hy
      exact ⟨rest, rfl⟩

/-- Barring a node from the start is the same as keeping it out of the queue. -/
theorem Serves.barring {seen queue kept found : List α} {barred : α}
    (h : Serves (fun x => (next x).filter (· != barred)) seen kept found)
    (hkept : queue.filter (· != barred) = kept) : Serves next (seen ++ [barred]) queue found := by
  have hbarred (seen : List α) (x : α) (hx : ¬(x != barred) = true) :
      (seen ++ [barred]).contains x = true := by
    simp only [bne, Bool.not_eq_true', Bool.not_eq_false] at hx
    simp [hx]
  induction h generalizing queue with
  | done seen =>
    have hall := List.filter_eq_nil_iff.mp hkept
    have hskip : Serves next (seen ++ [barred]) (queue ++ []) [] :=
      (Serves.done _).skip fun x hx => hbarred seen x (hall x hx)
    rwa [List.append_nil] at hskip
  | pass hx _ ih =>
    obtain ⟨old, rest, rfl, hold, -, hrest⟩ := List.filter_eq_cons_iff.mp hkept
    refine Serves.skip (.pass ?_ (ih hrest)) fun y hy => hbarred _ y (hold y hy)
    simp [hx]
  | take hx _ ih =>
    obtain ⟨old, rest, rfl, hold, hkeep, hrest⟩ := List.filter_eq_cons_iff.mp hkept
    refine Serves.skip (.take ?_ ?_) fun y hy => hbarred _ y (hold y hy)
    · rw [List.contains_append, hx]
      simpa [bne] using hkeep
    · exact ih (by rw [List.filter_append, hrest])

/-- The queue of a walk that never leaves `nodes` ends, with what the layers list. -/
theorem Confined.serves_reachable [ReflBEq α] (h : Confined next nodes)
    (hstart : ∀ x ∈ start, x ∈ nodes) {bound : Nat} (hbound : nodes.length < bound) :
    Serves next [] start (reachable next bound start) :=
  (Round.first next start).serves h hstart (by simpa using hbound)

/-! ## A search level by level -/

section Search

variable {β : Type u} {f : α → List β}

/-- A search for whatever `f` gives. The first level on which it gives anything ends the search; else
the next level is what is new among the successors of this one. The search ends without an answer
when there is nothing new. -/
inductive Searches (next : α → List α) (f : α → List β) : List α → List α → List β → Prop
  | exhausted (seen : List α) : Searches next f seen [] []
  | here {seen level : List α} : level.flatMap f ≠ [] →
      Searches next f seen level (level.flatMap f)
  | further {seen level : List α} {answer : List β} : level ≠ [] → level.flatMap f = [] →
      Searches next f (seen ++ level) (freshOf (seen ++ level) (level.flatMap next)) answer →
      Searches next f seen level answer

def firstAnswer (answers : List (List β)) : List β := (answers.find? fun a => !a.isEmpty).getD []

theorem firstAnswer_cons_nil (answers : List (List β)) :
    firstAnswer ([] :: answers) = firstAnswer answers := rfl

theorem firstAnswer_cons_of_ne_nil {a : List β} (h : a ≠ []) (answers : List (List β)) :
    firstAnswer (a :: answers) = a := by
  rw [firstAnswer, List.find?_cons_of_pos (by simpa using h), Option.getD_some]

variable [ReflBEq α] {rounds d : Nat} {seen frontier : List α}

/-- The levels of the walk are those of the search, and they are the distances from the start. -/
theorem Round.searches (h : Round next start d seen frontier) (hconf : Confined next nodes)
    (hstart : ∀ x ∈ start, x ∈ nodes) (hrounds : nodes.length < rounds + seen.length)
    (hnearer : ∀ m, m < d → ∀ x, Arrives next start m x → f x = []) :
    let answer := firstAnswer ((layers next rounds seen frontier).map fun level => level.flatMap f)
    Searches next f seen (freshOf seen frontier) answer ∧
      Nearest (Arrives next start) f answer := by
  induction rounds generalizing d seen frontier with
  | zero =>
    have hle := (List.subperm_of_subset h.nodup (h.seen_subset hconf hstart)).length_le
    omega
  | succ rounds ih =>
    have hfresh := h.mem_freshOf_iff hconf hstart
    have hlevel (x : α) : x ∈ freshOf seen frontier ↔
        Arrives next start d x ∧ ∀ m, m < d → ¬ Arrives next start m x := by
      rw [hfresh, h.mem_seen_iff]
      exact and_congr_right fun _ => by simp
    rw [layers]
    split
    next hdone =>
      rw [hdone]
      refine ⟨.exhausted seen, .nowhere fun n x hx => ?_⟩
      obtain ⟨m, hm, hmx⟩ := (h.mem_seen_iff x).mp (h.mem_seen_of_done hconf hstart hdone hx)
      exact hnearer m hm x hmx
    next hmore =>
      rw [List.map_cons]
      by_cases hfound : (freshOf seen frontier).flatMap f = []
      · have hpos : 0 < (freshOf seen frontier).length := List.length_pos_iff.mpr hmore
        have hlater : ∀ m, m < d + 1 → ∀ x, Arrives next start m x → f x = [] := by
          intro m hm x hx
          by_cases hold : ∃ k, k < d ∧ Arrives next start k x
          · obtain ⟨k, hk, hkx⟩ := hold
            exact hnearer k hk x hkx
          · obtain rfl : m = d := by
              by_contra hne
              exact hold ⟨m, by omega, hx⟩
            exact List.flatMap_eq_nil_iff.mp hfound x
              ((hlevel x).mpr ⟨hx, fun k hk hkx => hold ⟨k, hk, hkx⟩⟩)
        obtain ⟨hsearches, hnearest⟩ :=
          ih (h.step hconf hstart) (by rw [List.length_append]; omega) hlater
        rw [hfound, firstAnswer_cons_nil]
        exact ⟨.further hmore hfound hsearches, hnearest⟩
      · rw [firstAnswer_cons_of_ne_nil hfound]
        have hfrontier : ∀ y ∈ frontier, y ∈ nodes := fun y hy =>
          hconf.mem_of_arrives hstart (h.arrives y hy)
        exact ⟨.here hfound,
          .level (hconf.nodup_freshOf (h.seen_subset hconf hstart) hfrontier) hlevel hfound hnearer⟩

/-- A search that never leaves `nodes` ends, at the least distance. -/
theorem Confined.searches_layers (h : Confined next nodes) (hstart : ∀ x ∈ start, x ∈ nodes)
    {bound : Nat} (hbound : nodes.length < bound) (f : α → List β) :
    let answer := firstAnswer ((layers next bound [] start).map fun level => level.flatMap f)
    Searches next f [] (freshOf [] start) answer ∧
      Nearest (Arrives next start) f answer :=
  (Round.first next start).searches h hstart (by simpa using hbound) fun _ hm =>
    absurd hm (Nat.not_lt_zero _)

end Search

end JavaAtlas
