import JavaAtlas.Data.Kahn
import JavaAtlas.Proofs.Data.MultiMap
import Mathlib.Data.List.Nodup
import Mathlib.Data.List.Perm.Subperm

/-!
# Every node is taken once, each time the least ready one

The counters, the ready set and the marks of the loop all follow from the nodes taken so far: a
counter tells how many needs are not among them, a node is ready when none is, and a mark tells that
it is among them itself. So each round finds a node that was not taken, the least ready one if there
is any, and after as many rounds as nodes all are taken.
-/

namespace JavaAtlas

set_option autoImplicit false

open Std (OrientedCmp LawfulEqOrd)

namespace Kahn

variable {needs : List (List Nat)}

/-- What a node needs are other nodes of the graph, each named once. -/
def WellFormed (needs : List (List Nat)) : Prop :=
  ∀ ds ∈ needs, ds.Nodup ∧ ∀ d ∈ ds, d < needs.length

def Ready (needs : List (List Nat)) (order : List Nat) (node : Nat) : Prop :=
  node < needs.length ∧ node ∉ order ∧ ∀ d ∈ needsOf needs node, d ∈ order

/-- The node to take after those in `order`: the least ready one, or the least that still waits
where none is ready. -/
structure Follows (needs : List (List Nat)) (order : List Nat) (node : Nat) : Prop where
  lt : node < needs.length
  new : node ∉ order
  least : (Ready needs order node ∧ ∀ other, Ready needs order other → node ≤ other) ∨
    (∀ other, ¬ Ready needs order other) ∧
      ∀ other, other < needs.length → other ∉ order → node ≤ other

def Ordered (needs : List (List Nat)) (order : List Nat) : Prop :=
  ∀ before node after, order = before ++ node :: after → Follows needs before node

theorem ordered_nil : Ordered needs [] := by
  intro before node after h
  simp at h

theorem Ordered.snoc {order : List Nat} (h : Ordered needs order) {node : Nat}
    (hnode : Follows needs order node) : Ordered needs (order ++ [node]) := by
  intro before other after heq
  rcases List.eq_nil_or_concat after with rfl | ⟨init, last, rfl⟩
  · obtain ⟨rfl, hlast⟩ := List.append_inj' heq rfl
    obtain rfl : node = other := by simpa using hlast
    exact hnode
  · have heq' : order ++ [node] = (before ++ other :: init) ++ [last] := by simpa using heq
    exact h before other init (List.append_inj' heq' rfl).1

theorem exists_waiting {order : List Nat} (hmore : order.length < needs.length) :
    ∃ node, node < needs.length ∧ node ∉ order := by
  by_contra hall
  push Not at hall
  have hsub : List.range needs.length ⊆ order := fun node hnode =>
    hall node (List.mem_range.mp hnode)
  have hle := (List.subperm_of_subset List.nodup_range hsub).length_le
  rw [List.length_range] at hle
  omega

theorem mem_users_iff (node user : Nat) :
    user ∈ users needs node ↔ user < needs.length ∧ node ∈ needsOf needs user := by
  simp [users]

theorem nodup_users (needs : List (List Nat)) (node : Nat) : (users needs node).Nodup := List.nodup_range.filter _

theorem WellFormed.nodup (h : WellFormed needs) (node : Nat) : (needsOf needs node).Nodup := by
  rw [needsOf]
  cases hget : needs[node]? with
  | none => exact List.nodup_nil
  | some ds => exact (h ds (List.mem_of_getElem? hget)).1

/-! ## Counters -/

/-- How many of the needs are not in `order`. -/
def waiting (order ds : List Nat) : Nat := (ds.filter fun d => !order.contains d).length

theorem waiting_eq_zero_iff (order ds : List Nat) : waiting order ds = 0 ↔ ∀ d ∈ ds, d ∈ order := by
  simp [waiting, List.filter_eq_nil_iff]

theorem waiting_snoc_of_not_mem (order : List Nat) {ds : List Nat} {node : Nat} (h : node ∉ ds) :
    waiting (order ++ [node]) ds = waiting order ds := by
  rw [waiting, waiting]
  congr 1
  refine List.filter_congr fun d hd => ?_
  have hne : d ≠ node := fun heq => h (heq ▸ hd)
  simp [hne]

/-- Taking a node that is needed lowers the counter by one, however the counter came about. -/
theorem waiting_snoc_of_mem {order ds : List Nat} {node : Nat} (hnodup : ds.Nodup) (h : node ∈ ds)
    (hnew : node ∉ order) : waiting order ds = waiting (order ++ [node]) ds + 1 := by
  have herase : (ds.filter fun d => !(order ++ [node]).contains d) =
      (ds.filter fun d => !order.contains d).erase node := by
    rw [(hnodup.filter _).erase_eq_filter, List.filter_filter]
    refine List.filter_congr fun d _ => ?_
    by_cases hd : d = node <;> simp [hd]
  have hmem : node ∈ ds.filter fun d => !order.contains d := List.mem_filter.mpr ⟨h, by simpa using hnew⟩
  have hpos := List.length_pos_of_mem hmem
  rw [waiting, waiting, herase, List.length_erase_of_mem hmem]
  omega

/-! ## What taking a node changes -/

section Snoc

variable {order : List Nat} {node : Nat}

theorem waiting_snoc (hneeds : WellFormed needs) (hnew : node ∉ order) {user : Nat}
    (huser : user < needs.length) : waiting (order ++ [node]) (needsOf needs user) =
      if user ∈ users needs node then waiting order (needsOf needs user) - 1
      else waiting order (needsOf needs user) := by
  split
  next hmem =>
    have hneeded := ((mem_users_iff node user).mp hmem).2
    rw [waiting_snoc_of_mem (hneeds.nodup user) hneeded hnew, Nat.add_sub_cancel]
  next hno =>
    refine waiting_snoc_of_not_mem order fun hneeded => ?_
    exact hno ((mem_users_iff node user).mpr ⟨huser, hneeded⟩)

theorem marks_snoc (needs : List (List Nat)) (order : List Nat) (node : Nat) :
    ((List.range needs.length).map order.contains).set node true =
      (List.range needs.length).map (order ++ [node]).contains := by
  refine List.ext_getElem (by simp) fun other _ _ => ?_
  by_cases heq : node = other
  · subst heq
    simp
  · simp [heq, Ne.symm heq]

theorem ready_snoc_iff (other : Nat) : Ready needs (order ++ [node]) other ↔
    (Ready needs order other ∧ other ≠ node) ∨
      (other ∈ users needs node ∧ waiting (order ++ [node]) (needsOf needs other) = 0 ∧
        other ∉ order ++ [node]) := by
  rw [waiting_eq_zero_iff, mem_users_iff]
  constructor
  · rintro ⟨hlt, hopen, hall⟩
    by_cases hneeded : node ∈ needsOf needs other
    · exact Or.inr ⟨⟨hlt, hneeded⟩, hall, hopen⟩
    · rw [List.mem_append, List.mem_singleton, not_or] at hopen
      refine Or.inl ⟨⟨hlt, hopen.1, fun d hd => ?_⟩, hopen.2⟩
      exact (List.mem_append.mp (hall d hd)).resolve_right fun heq =>
        hneeded (List.mem_singleton.mp heq ▸ hd)
  · rintro (⟨⟨hlt, hopen, hall⟩, hne⟩ | ⟨⟨hlt, -⟩, hall, hopen⟩)
    · exact ⟨hlt, by simp [hopen, hne], fun d hd => List.mem_append_left _ (hall d hd)⟩
    · exact ⟨hlt, hopen, hall⟩

end Snoc

/-! ## One node -/

namespace State

/-- The state that belongs to the nodes taken so far. -/
structure Tracks (needs : List (List Nat)) (k : State) : Prop where
  nodup : k.order.Nodup
  bounded : ∀ node ∈ k.order, node < needs.length
  missing : k.missing = needs.map (waiting k.order)
  taken : k.taken = (List.range needs.length).map k.order.contains
  ready : ∀ node, node ∈ k.ready.toList ↔ Ready needs k.order node

theorem missing_release (k : State) (user node : Nat) : (k.release user).missing[node]? =
    (k.missing[node]?).map fun m => if user = node then m - 1 else m :=
  List.getElem?_modify _ _ _ _

theorem mem_ready_release_iff (k : State) (user node : Nat) :
    node ∈ (k.release user).ready.toList ↔ node ∈ k.ready.toList ∨
      (node = user ∧ (k.missing[node]?).map (· - 1) = some 0 ∧ k.taken[node]? = some false) := by
  have hmissing : (k.missing.modify user (· - 1))[user]? = (k.missing[user]?).map (· - 1) := by
    simp
  simp only [release, hmissing]
  split
  next hfree =>
    rw [Bool.and_eq_true, beq_iff_eq, beq_iff_eq] at hfree
    rw [SortedSet.mem_add_iff]
    constructor
    · rintro (rfl | hnode)
      · exact Or.inr ⟨rfl, hfree⟩
      · exact Or.inl hnode
    · rintro (hnode | ⟨heq, -⟩)
      · exact Or.inr hnode
      · exact Or.inl heq
  next hkept =>
    rw [Bool.and_eq_true, beq_iff_eq, beq_iff_eq] at hkept
    refine ⟨Or.inl, ?_⟩
    rintro (hnode | ⟨rfl, hfree⟩)
    · exact hnode
    · exact absurd hfree hkept

/-- The nodes that wait for one that is taken are released once each. -/
theorem foldl_release_spec (k : State) {us : List Nat} (hnodup : us.Nodup) :
    (us.foldl release k).order = k.order ∧ (us.foldl release k).taken = k.taken ∧
    (∀ node, (us.foldl release k).missing[node]? =
      (k.missing[node]?).map fun m => if node ∈ us then m - 1 else m) ∧
    ∀ node, node ∈ (us.foldl release k).ready.toList ↔ node ∈ k.ready.toList ∨
      (node ∈ us ∧ (k.missing[node]?).map (· - 1) = some 0 ∧ k.taken[node]? = some false) := by
  induction us generalizing k with
  | nil => simp
  | cons user us ih =>
    obtain ⟨hout, hnodup⟩ := List.nodup_cons.mp hnodup
    obtain ⟨horder, htaken, hmissing, hready⟩ := ih (k.release user) hnodup
    rw [List.foldl_cons]
    refine ⟨horder, htaken, fun node => ?_, fun node => ?_⟩
    · rw [hmissing, missing_release, Option.map_map]
      congr 1
      funext m
      by_cases heq : user = node
      · subst heq
        simp [hout]
      · simp [heq, Ne.symm heq]
    · have hother (hnode : node ∈ us) : (k.release user).missing[node]? = k.missing[node]? := by
        have hne : user ≠ node := fun heq => hout (heq ▸ hnode)
        simp [missing_release, hne]
      rw [hready, mem_ready_release_iff, List.mem_cons]
      constructor
      · rintro ((hnode | ⟨heq, hfree⟩) | ⟨hnode, hfree⟩)
        · exact Or.inl hnode
        · exact Or.inr ⟨Or.inl heq, hfree⟩
        · rw [hother hnode] at hfree
          exact Or.inr ⟨Or.inr hnode, hfree⟩
      · rintro (hnode | ⟨heq | hnode, hfree⟩)
        · exact Or.inl (Or.inl hnode)
        · exact Or.inl (Or.inr ⟨heq, hfree⟩)
        · refine Or.inr ⟨hnode, ?_⟩
          rw [hother hnode]
          exact hfree

namespace Tracks

variable {k : State}

theorem start (needs : List (List Nat)) : Tracks needs (State.start needs) where
  nodup := List.nodup_nil
  bounded _ h := by simp [State.start] at h
  missing := by
    refine List.map_congr_left fun ds _ => ?_
    simp [State.start, waiting]
  taken := by
    refine List.ext_getElem (by simp [State.start]) fun i hi _ => ?_
    simp [State.start]
  ready node := by
    rw [State.start, SortedSet.mem_ofList_iff fun a _ b _ hab => LawfulEqOrd.eq_of_compare hab]
    simp [Ready, List.eq_nil_iff_forall_not_mem]

/-- Whichever node is taken, ready or not, the state goes on to belong to the nodes taken. -/
theorem take (h : Tracks needs k) (hneeds : WellFormed needs) {node : Nat} {ready : SortedSet Nat}
    (hlt : node < needs.length) (hnew : node ∉ k.order)
    (hready : ∀ other, other ∈ ready.toList ↔ Ready needs k.order other ∧ other ≠ node) :
    Tracks needs (State.take needs { k with ready } node) := by
  obtain ⟨horder, htaken, hmissing, hfree⟩ := foldl_release_spec
    { k with ready, taken := k.taken.set node true, order := k.order ++ [node] }
    (nodup_users needs node)
  have hmarks : k.taken.set node true = (List.range needs.length).map (k.order ++ [node]).contains := by
    rw [h.taken, marks_snoc]
  have hcounter (other : Nat) (hother : other < needs.length) :
      k.missing[other]? = some (waiting k.order (needsOf needs other)) := by
    simp [h.missing, needsOf, hother]
  rw [State.take]
  refine ⟨?_, ?_, ?_, ?_, ?_⟩
  · rw [horder]
    refine List.nodup_append.mpr ⟨h.nodup, List.nodup_singleton node, ?_⟩
    rintro a ha b hb rfl
    exact hnew (List.mem_singleton.mp hb ▸ ha)
  · rw [horder]
    intro other hother
    rcases List.mem_append.mp hother with hother | hother
    · exact h.bounded other hother
    · exact List.mem_singleton.mp hother ▸ hlt
  · rw [horder]
    refine List.ext_getElem? fun other => ?_
    rw [hmissing]
    by_cases hother : other < needs.length
    · have hneedsOf : needs[other]? = some (needsOf needs other) := by simp [needsOf, hother]
      rw [hcounter other hother, Option.map_some, List.getElem?_map, hneedsOf, Option.map_some,
        waiting_snoc hneeds hnew hother]
    · simp [h.missing, hother]
  · rw [htaken, horder]
    exact hmarks
  · intro other
    rw [hfree, hready, horder, ready_snoc_iff]
    refine or_congr_right (and_congr_right fun huser => ?_)
    have hother := ((mem_users_iff node other).mp huser).1
    have hmark : (k.taken.set node true)[other]? = some false ↔ other ∉ k.order ++ [node] := by
      simp [hmarks, hother]
    rw [hcounter other hother, hmark, waiting_snoc hneeds hnew hother, if_pos huser, Option.map_some,
      Option.some_inj]

theorem next (h : Tracks needs k) (hmore : k.order.length < needs.length) :
    ∃ node ready, k.next? = some (node, ready) ∧ Follows needs k.order node ∧
      (k.taken[node]? == some true) = false ∧
      ∀ other, other ∈ ready.toList ↔ Ready needs k.order other ∧ other ≠ node := by
  have hmark (node : Nat) (hlt : node < needs.length) (hnew : node ∉ k.order) :
      (k.taken[node]? == some true) = false := by
    simp [h.taken, hlt, hnew]
  rw [next?]
  split
  next node rest hlist =>
    have hmem : node ∈ k.ready.toList := hlist ▸ List.mem_cons_self
    have hnode := (h.ready node).mp hmem
    refine ⟨node, k.ready.erase node, rfl, ⟨hnode.1, hnode.2.1, Or.inl ⟨hnode, ?_⟩⟩,
      hmark node hnode.1 hnode.2.1, fun other => ?_⟩
    · intro other hother
      have hsorted : (node :: rest).Pairwise fun a b => compare a b = .lt :=
        hlist ▸ k.ready.increasing_keys
      have hother := (h.ready other).mpr hother
      rw [hlist] at hother
      rcases List.mem_cons.mp hother with rfl | hother
      · exact Nat.le_refl _
      · exact Nat.le_of_lt (Nat.compare_eq_lt.mp ((List.pairwise_cons.mp hsorted).1 other hother))
    · rw [SortedSet.mem_toList_erase_iff, h.ready]
      exact and_congr_right fun _ => not_congr (Nat.compare_eq_eq.trans eq_comm)
  next hlist =>
    have hnone (other : Nat) : ¬ Ready needs k.order other := by
      rw [← h.ready, hlist]
      exact List.not_mem_nil
    obtain ⟨left, hleft, hopen⟩ := exists_waiting hmore
    have hmarks (i : Nat) (hi : i < k.taken.length) : k.taken[i] = k.order.contains i := by
      simp [h.taken]
    cases hfind : k.taken.findIdx? (! ·) with
    | none =>
      -- the mark of the node that is left is not set
      have hall := List.findIdx?_eq_none_iff.mp hfind (k.order.contains left) (by
        rw [h.taken]
        exact List.mem_map.mpr ⟨left, List.mem_range.mpr hleft, rfl⟩)
      simp [hopen] at hall
    | some node =>
      obtain ⟨hlt, hfirst, hearlier⟩ := List.findIdx?_eq_some_iff_getElem.mp hfind
      have hnode : node < needs.length := by simpa [h.taken] using hlt
      have hnew : node ∉ k.order := by simpa [hmarks] using hfirst
      refine ⟨node, k.ready, rfl, ⟨hnode, hnew, Or.inr ⟨hnone, fun other _ hother => ?_⟩⟩,
        hmark node hnode hnew, fun other => ?_⟩
      · by_contra hless
        have hset := hearlier other (Nat.lt_of_not_le hless)
        rw [hmarks] at hset
        simp [hother] at hset
      · rw [h.ready]
        exact ⟨fun hother => absurd hother (hnone other), fun hother => hother.1⟩

end Tracks

/-- One node more each round, so the loop ends with all of them. -/
theorem run_spec (hneeds : WellFormed needs) {rounds : Nat} {k : State} (h : Tracks needs k)
    (hordered : Ordered needs k.order) (hrounds : needs.length ≤ k.order.length + rounds) :
    (run needs rounds k).Tracks needs ∧ Ordered needs (run needs rounds k).order ∧
      needs.length ≤ (run needs rounds k).order.length := by
  induction rounds generalizing k with
  | zero => exact ⟨h, hordered, hrounds⟩
  | succ rounds ih =>
    rw [run]
    split
    next hall => exact ⟨h, hordered, hall⟩
    next hmore =>
      obtain ⟨node, ready, hnext, hfollows, hnew, hready⟩ := h.next (Nat.lt_of_not_le hmore)
      have horder : (State.take needs { k with ready } node).order = k.order ++ [node] :=
        (foldl_release_spec _ (nodup_users needs node)).1
      simp only [hnext, hnew, Bool.false_eq_true, if_false]
      refine ih (h.take hneeds hfollows.lt hfollows.new hready) ?_ ?_
      · rw [horder]
        exact hordered.snoc hfollows
      · rw [horder, List.length_append, List.length_singleton]
        omega

theorem run_of_all {k : State} (h : needs.length ≤ k.order.length) (rounds : Nat) :
    run needs rounds k = k := by
  cases rounds with
  | zero => rfl
  | succ rounds => rw [run, if_pos h]

theorem run_add (k : State) (rounds more : Nat) :
    run needs (rounds + more) k = run needs more (run needs rounds k) := by
  induction rounds generalizing k with
  | zero => rw [Nat.zero_add, run]
  | succ rounds ih =>
    rw [Nat.succ_add, run, run]
    split
    next hall => rw [run_of_all hall]
    next =>
      split
      next hnone =>
        cases more with
        | zero => rfl
        | succ more => rw [run, hnone, ite_self]
      next => split <;> exact ih _

end State

theorem order_spec (hneeds : WellFormed needs) :
    (order needs).Perm (List.range needs.length) ∧ Ordered needs (order needs) := by
  obtain ⟨htracks, hordered, hall⟩ := State.run_spec hneeds (State.Tracks.start needs) ordered_nil
    (Nat.le_add_left needs.length _)
  have hsub : (order needs).Subperm (List.range needs.length) :=
    List.subperm_of_subset htracks.nodup fun node hnode =>
      List.mem_range.mpr (htracks.bounded node hnode)
  exact ⟨hsub.perm_of_length_le (by rwa [List.length_range]), hordered⟩

/-- The loop ends by itself: more rounds change nothing. -/
theorem run_eq_of_le (hneeds : WellFormed needs) {rounds : Nat} (h : needs.length ≤ rounds) :
    (State.run needs rounds (State.start needs)).order = order needs := by
  obtain ⟨-, -, hall⟩ := State.run_spec hneeds (State.Tracks.start needs) ordered_nil
    (Nat.le_add_left needs.length _)
  obtain ⟨more, rfl⟩ := Nat.exists_eq_add_of_le h
  rw [State.run_add, State.run_of_all hall, order]

end Kahn

end JavaAtlas
