import JavaAtlas.Engine.Order
import JavaAtlas.Proofs.Data.Kahn
import Mathlib.Data.Fintype.Pigeonhole
import Mathlib.Logic.Relation

/-!
# The order of a batch, file by file

A file depends on the others that are the first to declare a type it was bound to. Every file of a
batch gets one place. At each place stands the first file, in path order, of which no dependency is
still waiting; only where every waiting file has one does the first waiting file go, and then some of
them form a cycle. The file that goes need not be on that cycle.
-/

namespace JavaAtlas

set_option autoImplicit false

open Std (TransCmp OrientedCmp ReflCmp LawfulEqOrd)
open Relation (TransGen ReflTransGen)

namespace BatchOrder

variable {paths : List Path} {hints : Hints}

/-! ## Dependencies -/

/-- The first of the files whose hint declares a type. -/
def declaring? (paths : List Path) (hints : Hints) (fqn : String) : Option Path :=
  paths.find? fun p => (typesOf hints p).contains fqn

/-- The hint of `f` binds a type that another file, `d`, is the first to declare. -/
def DependsOn (paths : List Path) (hints : Hints) (f d : Path) : Prop :=
  f ∈ paths ∧ compare d f ≠ .eq ∧ ∃ t ∈ targetsOf hints f, declaring? paths hints t = some d

theorem DependsOn.mem {f d : Path} (h : DependsOn paths hints f d) : d ∈ paths := by
  obtain ⟨-, -, t, -, ht⟩ := h
  exact List.mem_of_find?_eq_some ht

theorem get?_foldl_types (types : List String) (i : Nat) (found : SortedMap String Nat)
    (fqn : String) :
    (types.foldl (fun found t => if found.contains t then found else found.insert t i) found).get? fqn =
      (found.get? fqn).or (if types.contains fqn then some i else none) := by
  induction types generalizing found with
  | nil => simp
  | cons t types ih =>
    rw [List.foldl_cons, ih]
    have heq : compare fqn t = .eq ↔ fqn = t := LawfulEqOrd.compare_eq_iff_eq
    by_cases hfqn : fqn = t
    · subst hfqn
      split
      next hold =>
        obtain ⟨j, hj⟩ := SortedMap.contains_iff_exists_get?.mp hold
        simp [hj]
      next hnew =>
        have hnone : found.get? fqn = none := SortedMap.get?_eq_none_iff.mpr (by simpa using hnew)
        simp [SortedMap.get?_insert_self, hnone]
    · have hskip : (if found.contains t then found else found.insert t i).get? fqn = found.get? fqn := by
        split
        · rfl
        · rw [SortedMap.get?_insert, if_neg (heq.not.mpr hfqn)]
      rw [hskip]
      simp [hfqn]

theorem get?_foldl_paths (paths : List Path) (hints : Hints) (offset : Nat)
    (found : SortedMap String Nat) (fqn : String) :
    ((paths.zipIdx offset).foldl (fun found (path, i) =>
      (typesOf hints path).foldl (fun found t =>
        if found.contains t then found else found.insert t i) found) found).get? fqn =
      (found.get? fqn).or
        ((paths.findIdx? fun p => (typesOf hints p).contains fqn).map (· + offset)) := by
  induction paths generalizing offset found with
  | nil => simp
  | cons p paths ih =>
    rw [List.zipIdx_cons, List.foldl_cons, ih, get?_foldl_types, Option.or_assoc, List.findIdx?_cons]
    split
    · simp
    · simp [Function.comp_def, Nat.add_assoc, Nat.add_comm 1]

theorem get?_declared (paths : List Path) (hints : Hints) (fqn : String) :
    (declared paths hints).get? fqn = paths.findIdx? fun p => (typesOf hints p).contains fqn := by
  rw [declared, get?_foldl_paths]
  simp [EmptyCollection.emptyCollection]

theorem declaring?_eq (paths : List Path) (hints : Hints) (fqn : String) :
    declaring? paths hints fqn = ((declared paths hints).get? fqn).bind (paths[·]?) := by
  rw [get?_declared, declaring?]
  induction paths with
  | nil => rfl
  | cons p paths ih =>
    rw [List.find?_cons, List.findIdx?_cons, ih]
    cases (typesOf hints p).contains fqn with
    | true => rfl
    | false => cases paths.findIdx? _ <;> simp

/-! ## Positions -/

theorem length_graph (paths : List Path) (hints : Hints) :
    (graph paths hints).length = paths.length := by
  simp [graph]

theorem needsOf_graph {i : Nat} {p : Path} (hi : paths[i]? = some p) :
    Kahn.needsOf (graph paths hints) i = needs (declared paths hints) hints p i := by
  simp [Kahn.needsOf, graph, hi]

theorem mem_needsOf_iff {i : Nat} {p : Path} (hi : paths[i]? = some p) (j : Nat) :
    j ∈ Kahn.needsOf (graph paths hints) i ↔
      j ≠ i ∧ ∃ t ∈ targetsOf hints p, (declared paths hints).get? t = some j := by
  rw [needsOf_graph hi, needs, SortedSet.mem_ofList_iff fun a _ b _ hab => LawfulEqOrd.eq_of_compare hab,
    List.mem_filter, List.mem_filterMap, and_comm]
  simp

theorem lt_of_get?_declared {t : String} {j : Nat} (h : (declared paths hints).get? t = some j) :
    j < paths.length := by
  rw [get?_declared] at h
  exact (List.findIdx?_eq_some_iff_getElem.mp h).1

theorem wellFormed_graph (paths : List Path) (hints : Hints) :
    Kahn.WellFormed (graph paths hints) := by
  intro ds hds
  obtain ⟨⟨p, i⟩, hpi, rfl⟩ := List.mem_map.mp hds
  have hi : paths[i]? = some p := List.mem_zipIdx_iff_getElem?.mp hpi
  refine ⟨SortedMap.nodup_keys _, fun d hd => ?_⟩
  have hd : d ∈ Kahn.needsOf (graph paths hints) i := by
    rw [needsOf_graph hi]
    exact hd
  obtain ⟨-, t, -, ht⟩ := (mem_needsOf_iff hi d).mp hd
  rw [length_graph]
  exact lt_of_get?_declared ht

theorem filterMap_range (paths : List Path) :
    (List.range paths.length).filterMap (paths[·]?) = paths := by
  induction paths with
  | nil => rfl
  | cons p paths ih =>
    rw [List.length_cons, List.range_succ_eq_map, List.filterMap_cons]
    simpa [List.filterMap_map, Function.comp_def] using ih

theorem byHints_perm (paths : List Path) (hints : Hints) : (byHints paths hints).Perm paths := by
  have hperm := (Kahn.order_spec (wellFormed_graph paths hints)).1
  rw [length_graph] at hperm
  have hall := hperm.filterMap (paths[·]?)
  rwa [filterMap_range] at hall

theorem exists_positions {before after : List Path} {f : Path}
    (h : byHints paths hints = before ++ f :: after) :
    ∃ pre i post, Kahn.order (graph paths hints) = pre ++ i :: post ∧
      pre.filterMap (paths[·]?) = before ∧ paths[i]? = some f := by
  obtain ⟨init, rest, horder, hbefore, hrest⟩ := List.filterMap_eq_append_iff.mp h
  obtain ⟨none, i, post, rfl, hnone, hi, -⟩ := List.filterMap_eq_cons_iff.mp hrest
  refine ⟨init ++ none, i, post, by rw [horder, List.append_assoc], ?_, hi⟩
  rw [List.filterMap_append, List.filterMap_eq_nil_iff.mpr hnone, List.append_nil, hbefore]

/-! ## Files in path order -/

/-- Nothing that a file depends on is still to come. -/
def Satisfied (paths : List Path) (hints : Hints) (before : List Path) (f : Path) : Prop :=
  ∀ d, DependsOn paths hints f d → d ∈ before

section Sorted

variable (hsorted : paths.Pairwise fun a b => compare a b = .lt)

include hsorted

theorem compare_of_lt {i j : Nat} {p q : Path} (hi : paths[i]? = some p) (hj : paths[j]? = some q)
    (hlt : i < j) : compare p q = .lt := by
  obtain ⟨hib, rfl⟩ := List.getElem?_eq_some_iff.mp hi
  obtain ⟨hjb, rfl⟩ := List.getElem?_eq_some_iff.mp hj
  exact List.pairwise_iff_getElem.mp hsorted i j hib hjb hlt

theorem position_unique {i j : Nat} {p q : Path} (hi : paths[i]? = some p) (hj : paths[j]? = some q)
    (heq : compare p q = .eq) : i = j := by
  rcases Nat.lt_trichotomy i j with hlt | hij | hgt
  · simp [compare_of_lt hsorted hi hj hlt] at heq
  · exact hij
  · simp [OrientedCmp.gt_of_lt (compare_of_lt hsorted hj hi hgt)] at heq

theorem dependsOn_iff {i : Nat} {p : Path} (hi : paths[i]? = some p) (d : Path) :
    DependsOn paths hints p d ↔
      ∃ j ∈ Kahn.needsOf (graph paths hints) i, paths[j]? = some d := by
  have hother (j : Nat) (hj : paths[j]? = some d) : compare d p ≠ .eq ↔ j ≠ i := by
    refine not_congr ⟨position_unique hsorted hj hi, ?_⟩
    rintro rfl
    obtain rfl : p = d := Option.some.inj (hi.symm.trans hj)
    exact ReflCmp.compare_self
  simp only [DependsOn, declaring?_eq, mem_needsOf_iff hi, Option.bind_eq_some_iff]
  constructor
  · rintro ⟨-, hne, t, ht, j, hdeclared, hj⟩
    exact ⟨j, ⟨(hother j hj).mp hne, t, ht, hdeclared⟩, hj⟩
  · rintro ⟨j, ⟨hne, t, ht, hdeclared⟩, hj⟩
    exact ⟨List.mem_of_getElem? hi, (hother j hj).mpr hne, t, ht, j, hdeclared, hj⟩

theorem mem_filterMap_iff {pre : List Nat} {i : Nat} {p : Path} (hi : paths[i]? = some p) :
    p ∈ pre.filterMap (paths[·]?) ↔ i ∈ pre := by
  rw [List.mem_filterMap]
  constructor
  · rintro ⟨j, hj, hjp⟩
    rwa [← position_unique hsorted hjp hi ReflCmp.compare_self]
  · intro hmem
    exact ⟨i, hmem, hi⟩

theorem ready_iff {pre : List Nat} {i : Nat} {p : Path} (hi : paths[i]? = some p) :
    Kahn.Ready (graph paths hints) pre i ↔ p ∉ pre.filterMap (paths[·]?) ∧
      Satisfied paths hints (pre.filterMap (paths[·]?)) p := by
  have hlt : i < (graph paths hints).length := by
    rw [length_graph]
    exact (List.getElem?_eq_some_iff.mp hi).1
  rw [Kahn.Ready, mem_filterMap_iff hsorted hi]
  constructor
  · rintro ⟨-, hnew, hall⟩
    refine ⟨hnew, fun d hd => ?_⟩
    obtain ⟨j, hj, hjd⟩ := (dependsOn_iff hsorted hi d).mp hd
    exact (mem_filterMap_iff hsorted hjd).mpr (hall j hj)
  · rintro ⟨hnew, hall⟩
    refine ⟨hlt, hnew, fun j hj => ?_⟩
    obtain ⟨-, t, -, ht⟩ := (mem_needsOf_iff hi j).mp hj
    have hjd := List.getElem?_eq_getElem (lt_of_get?_declared ht)
    exact (mem_filterMap_iff hsorted hjd).mp (hall _ ((dependsOn_iff hsorted hi _).mpr ⟨j, hj, hjd⟩))

/-- What stands at a place: the first file whose dependencies are all before it or, where every
waiting file has one that is not, the first waiting file. -/
theorem at_place {before after : List Path} {f : Path}
    (h : byHints paths hints = before ++ f :: after) :
    (Satisfied paths hints before f ∧ ∀ q ∈ paths, q ∉ before → Satisfied paths hints before q →
      (compare f q).isLE = true) ∨
    (∀ q ∈ paths, q ∉ before → ¬ Satisfied paths hints before q) ∧
      ∀ q ∈ paths, q ∉ before → (compare f q).isLE = true := by
  obtain ⟨pre, i, post, horder, rfl, hi⟩ := exists_positions h
  have hfollows := (Kahn.order_spec (wellFormed_graph paths hints)).2 pre i post horder
  have hle (j : Nat) (q : Path) (hj : paths[j]? = some q) (hij : i ≤ j) : (compare f q).isLE = true := by
    rcases Nat.lt_or_eq_of_le hij with hlt | rfl
    · rw [compare_of_lt hsorted hi hj hlt]
      rfl
    · obtain rfl : f = q := Option.some.inj (hi.symm.trans hj)
      exact ReflCmp.isLE_rfl
  rcases hfollows.least with ⟨hready, hleast⟩ | ⟨hnone, hleast⟩
  · refine Or.inl ⟨((ready_iff hsorted hi).mp hready).2, fun q hq hnew hsat => ?_⟩
    obtain ⟨j, hj⟩ := List.mem_iff_getElem?.mp hq
    exact hle j q hj (hleast j ((ready_iff hsorted hj).mpr ⟨hnew, hsat⟩))
  · refine Or.inr ⟨fun q hq hnew hsat => ?_, fun q hq hnew => ?_⟩
    · obtain ⟨j, hj⟩ := List.mem_iff_getElem?.mp hq
      exact hnone j ((ready_iff hsorted hj).mpr ⟨hnew, hsat⟩)
    · obtain ⟨j, hj⟩ := List.mem_iff_getElem?.mp hq
      refine hle j q hj (hleast j ?_ fun hmem => hnew ((mem_filterMap_iff hsorted hj).mpr hmem))
      rw [length_graph]
      exact (List.getElem?_eq_some_iff.mp hj).1

end Sorted

/-! ## Cycles -/

/-- Where every member of a list has a successor in it, each one leads to a cycle. -/
theorem exists_cycle {α : Type} {r : α → α → Prop} {as : List α} (h : ∀ a ∈ as, ∃ b ∈ as, r a b)
    {a : α} (ha : a ∈ as) : ∃ c ∈ as, ReflTransGen r a c ∧ TransGen r c c := by
  have hnext : ∀ x : {x // x ∈ as}, ∃ y : {y // y ∈ as}, r x.1 y.1 := by
    rintro ⟨x, hx⟩
    obtain ⟨y, hy, hxy⟩ := h x hx
    exact ⟨⟨y, hy⟩, hxy⟩
  choose next hnext using hnext
  let walk (n : Nat) : {x // x ∈ as} := next^[n] ⟨a, ha⟩
  have hstep (n : Nat) : r (walk n).1 (walk (n + 1)).1 := by
    simp only [walk, Function.iterate_succ_apply']
    exact hnext _
  have hwalk (m n : Nat) : ReflTransGen r (walk m).1 (walk (m + n)).1 := by
    induction n with
    | zero => exact .refl
    | succ n ih => exact ih.tail (hstep (m + n))
  classical
  -- the walk stays in a finite list, so it comes back to where it was
  have hloop : ∃ m n, m < n ∧ walk m = walk n := by
    obtain ⟨m, n, hne, heq⟩ := Finite.exists_ne_map_eq_of_infinite walk
    rcases Nat.lt_or_gt_of_ne hne with hlt | hgt
    · exact ⟨m, n, hlt, heq⟩
    · exact ⟨n, m, hgt, heq.symm⟩
  obtain ⟨m, n, hlt, heq⟩ := hloop
  obtain ⟨k, rfl⟩ := Nat.exists_eq_add_of_lt hlt
  refine ⟨(walk m).1, (walk m).2, ?_, ?_⟩
  · simpa [walk] using hwalk 0 m
  · have hback : TransGen r (walk m).1 (walk (m + k + 1)).1 :=
      .tail' (hwalk m k) (hstep (m + k))
    rwa [← heq] at hback

/-- Every one of the files depends on another of them. -/
def Stuck (paths : List Path) (hints : Hints) (waiting : List Path) : Prop :=
  ∀ q ∈ waiting, ∃ d ∈ waiting, DependsOn paths hints q d

theorem mem_after_iff {before after : List Path} {f : Path} (hnodup : paths.Nodup)
    (h : byHints paths hints = before ++ f :: after) (q : Path) :
    q ∈ f :: after ↔ q ∈ paths ∧ q ∉ before := by
  have hperm := byHints_perm paths hints
  rw [h] at hperm
  have hdisjoint := List.disjoint_of_nodup_append (hperm.nodup_iff.mpr hnodup)
  rw [← hperm.mem_iff, List.mem_append]
  constructor
  · intro hq
    exact ⟨Or.inr hq, fun hbefore => hdisjoint hbefore hq⟩
  · rintro ⟨hq | hq, hnew⟩
    · exact absurd hq hnew
    · exact hq

theorem stuck_of_none {before after : List Path} {f : Path} (hnodup : paths.Nodup)
    (h : byHints paths hints = before ++ f :: after)
    (hnone : ∀ q ∈ paths, q ∉ before → ¬ Satisfied paths hints before q) :
    Stuck paths hints (f :: after) := by
  intro q hq
  have hwaiting := mem_after_iff hnodup h
  obtain ⟨hmem, hnew⟩ := (hwaiting q).mp hq
  have hopen := hnone q hmem hnew
  simp only [Satisfied, not_forall] at hopen
  obtain ⟨d, hd, hlate⟩ := hopen
  exact ⟨d, (hwaiting d).mpr ⟨hd.mem, hlate⟩, hd⟩

section Sorted

variable (hsorted : paths.Pairwise fun a b => compare a b = .lt)

include hsorted

theorem lt_of_isLE_of_mem_after {before after : List Path} {f q : Path}
    (h : byHints paths hints = before ++ f :: after) (hq : q ∈ after)
    (hle : (compare f q).isLE = true) : compare f q = .lt := by
  have hperm := byHints_perm paths hints
  have hmem (x : Path) (hx : x ∈ f :: after) : x ∈ paths := by
    rw [← hperm.mem_iff, h]
    exact List.mem_append_right _ hx
  have hnodup := hperm.nodup_iff.mpr (nodup_of_increasing compare hsorted)
  rw [h] at hnodup
  refine (Ordering.isLE_iff_eq_lt_or_eq_eq.mp hle).resolve_right fun heq => ?_
  obtain rfl := eq_of_increasing_of_eq compare hsorted (hmem f List.mem_cons_self)
    (hmem q (List.mem_cons_of_mem _ hq)) heq
  exact (List.nodup_cons.mp hnodup.of_append_right).1 hq

/-- A file comes before one it depends on only where every waiting file depends on a waiting one. -/
theorem satisfied_or_stuck {before after : List Path} {f : Path}
    (h : byHints paths hints = before ++ f :: after) :
    Satisfied paths hints before f ∨
      Stuck paths hints (f :: after) ∧ ∀ q ∈ after, compare f q = .lt := by
  have hnodup := nodup_of_increasing compare hsorted
  rcases at_place hsorted h with ⟨hsat, -⟩ | ⟨hnone, hleast⟩
  · exact Or.inl hsat
  · refine Or.inr ⟨stuck_of_none hnodup h hnone, fun q hq => ?_⟩
    obtain ⟨hmem, hnew⟩ := (mem_after_iff hnodup h q).mp (List.mem_cons_of_mem _ hq)
    exact lt_of_isLE_of_mem_after hsorted h hq (hleast q hmem hnew)

end Sorted

/-! ## The order -/

/-- A batch is ordered without losing or repeating a file, and more rounds change nothing. Without
cycles each file comes after all it depends on, and at each place stands the first file, in path
order, whose dependencies are all before it. -/
theorem byHints_least_topological (hsorted : paths.Pairwise fun a b => compare a b = .lt)
    (hints : Hints) :
    (byHints paths hints).Perm paths ∧
    (∀ rounds, paths.length ≤ rounds →
      ((Kahn.State.run (graph paths hints) rounds (Kahn.State.start (graph paths hints))).order.filterMap
        (paths[·]?)) = byHints paths hints) ∧
    ((∀ f, ¬ TransGen (DependsOn paths hints) f f) →
      ∀ before f after, byHints paths hints = before ++ f :: after →
        (∀ d, DependsOn paths hints f d → d ∈ before) ∧
        ∀ q ∈ paths, q ∉ before → (∀ d, DependsOn paths hints q d → d ∈ before) →
          (compare f q).isLE = true) := by
  refine ⟨byHints_perm paths hints, fun rounds hrounds => ?_, fun hacyclic before f after h => ?_⟩
  · rw [Kahn.run_eq_of_le (wellFormed_graph paths hints) (by rwa [length_graph]), byHints]
  · rcases at_place hsorted h with hfirst | ⟨hnone, -⟩
    · exact hfirst
    · exfalso
      have hstuck := stuck_of_none (nodup_of_increasing compare hsorted) h hnone
      obtain ⟨c, -, -, hcycle⟩ := exists_cycle hstuck List.mem_cons_self
      exact hacyclic c hcycle

def hint (path type : String) (targets : List String) : Path × FileSymbols :=
  (⟨path⟩,
    { symbols := [⟨type, type, .type, some .classType, ⟨path⟩, default, default, type, none, 0⟩]
      references := targets.map fun target => ⟨target, default⟩ })

/-- An application uses a service and a model, and the service uses the model. -/
def layered : Hints :=
  SortedMap.ofList [hint "/a/Application.java" "p.Application" ["p.Service", "p.Model"],
    hint "/a/Model.java" "p.Model" [], hint "/a/Service.java" "p.Service" ["p.Model"]]

theorem byHints_least_topological_layered :
    (layered.keys.Pairwise fun a b => compare a b = .lt) ∧
    (∀ f, ¬ TransGen (DependsOn layered.keys layered) f f) ∧
    (byHints layered.keys layered).Perm layered.keys ∧
    (byHints layered.keys layered).map (·.spelling) =
      ["/a/Model.java", "/a/Service.java", "/a/Application.java"] ∧
    ∀ before f after, byHints layered.keys layered = before ++ f :: after →
      ∀ d, DependsOn layered.keys layered f d → d ∈ before := by
  have hsorted := layered.increasing_keys
  -- the dependencies have the shorter names
  have hshorter : ∀ f ∈ layered.keys, ∀ t ∈ targetsOf layered f,
      (declaring? layered.keys layered t).all fun d =>
        d.spelling.length < f.spelling.length := by
    decide +kernel
  have hacyclic : ∀ f, ¬ TransGen (DependsOn layered.keys layered) f f := by
    intro f hf
    have hlt : ∀ d, TransGen (DependsOn layered.keys layered) f d →
        d.spelling.length < f.spelling.length := by
      have hstep (g d : Path) (hgd : DependsOn layered.keys layered g d) :
          d.spelling.length < g.spelling.length := by
        obtain ⟨hg, -, t, ht, hdeclaring⟩ := hgd
        simpa [hdeclaring] using hshorter g hg t ht
      intro d hd
      induction hd with
      | single hfd => exact hstep f _ hfd
      | tail _ hgd ih => exact Nat.lt_trans (hstep _ _ hgd) ih
    exact Nat.lt_irrefl _ (hlt f hf)
  have h := byHints_least_topological hsorted layered
  exact ⟨hsorted, hacyclic, h.1, by decide +kernel, fun before f after hsplit =>
    (h.2.2 hacyclic before f after hsplit).1⟩

/-- A file comes after one it depends on, unless every file waiting with it depends on another one
of them; then it is the first of them in path order. So where no cycle can be reached from a file,
what it depends on comes before it, whatever cycles there are elsewhere. -/
theorem byHints_dependency_first (hsorted : paths.Pairwise fun a b => compare a b = .lt)
    (hints : Hints) {f d : Path} (hdep : DependsOn paths hints f d) :
    ∃ before after, byHints paths hints = before ++ f :: after ∧
      (d ∈ before ∨
        d ∈ after ∧ Stuck paths hints (f :: after) ∧ ∀ q ∈ after, compare f q = .lt) ∧
      ((∀ c, ReflTransGen (DependsOn paths hints) f c → ¬ TransGen (DependsOn paths hints) c c) →
        d ∈ before) := by
  have hperm := byHints_perm paths hints
  obtain ⟨before, after, hsplit⟩ := List.append_of_mem (hperm.mem_iff.mpr hdep.1)
  have hplace := satisfied_or_stuck hsorted hsplit
  refine ⟨before, after, hsplit, ?_, fun hfree => ?_⟩
  · rcases hplace with hsat | hstuck
    · exact Or.inl (hsat d hdep)
    · by_cases hbefore : d ∈ before
      · exact Or.inl hbefore
      · have hwaiting := (mem_after_iff (nodup_of_increasing compare hsorted) hsplit d).mpr
          ⟨hdep.mem, hbefore⟩
        refine Or.inr ⟨(List.mem_cons.mp hwaiting).resolve_left ?_, hstuck⟩
        rintro rfl
        exact hdep.2.1 ReflCmp.compare_self
  · rcases hplace with hsat | ⟨hstuck, -⟩
    · exact hsat d hdep
    · obtain ⟨c, -, hreach, hcycle⟩ := exists_cycle hstuck List.mem_cons_self
      exact absurd hcycle (hfree c hreach)

/-- A file uses two others that use each other. -/
def downstream : Hints :=
  SortedMap.ofList [hint "/a/A.java" "p.A" ["p.B", "p.C"], hint "/a/B.java" "p.B" ["p.C"],
    hint "/a/C.java" "p.C" ["p.B"]]

/-- Neither of the two uses the first file, which goes before both. -/
theorem byHints_dependency_first_downstream :
    (downstream.keys.Pairwise fun a b => compare a b = .lt) ∧
    DependsOn downstream.keys downstream ⟨"/a/A.java"⟩ ⟨"/a/B.java"⟩ ∧
    ¬ TransGen (DependsOn downstream.keys downstream) ⟨"/a/B.java"⟩ ⟨"/a/A.java"⟩ ∧
    (byHints downstream.keys downstream).map (·.spelling) = ["/a/A.java", "/a/B.java", "/a/C.java"] ∧
    ∃ before after, byHints downstream.keys downstream = before ++ ⟨"/a/A.java"⟩ :: after ∧
      ((⟨"/a/B.java"⟩ : Path) ∈ before ∨
        Stuck downstream.keys downstream (⟨"/a/A.java"⟩ :: after)) := by
  have hsorted := downstream.increasing_keys
  have hdeclaring : declaring? downstream.keys downstream "p.B" = some ⟨"/a/B.java"⟩ := by rfl
  have hmem : (⟨"/a/A.java"⟩ : Path) ∈ downstream.keys := List.mem_cons_self
  have hdep : DependsOn downstream.keys downstream ⟨"/a/A.java"⟩ ⟨"/a/B.java"⟩ :=
    ⟨hmem, by decide +kernel, "p.B", by decide +kernel, hdeclaring⟩
  have hunused : ∀ f ∈ downstream.keys, ∀ t ∈ targetsOf downstream f,
      (declaring? downstream.keys downstream t).all fun d => d.spelling != "/a/A.java" := by
    decide +kernel
  have hback : ¬ TransGen (DependsOn downstream.keys downstream) ⟨"/a/B.java"⟩ ⟨"/a/A.java"⟩ := by
    intro hreach
    obtain ⟨f, -, hf, -, t, ht, hdeclaring⟩ := TransGen.tail'_iff.mp hreach
    simpa [hdeclaring] using hunused f hf t ht
  obtain ⟨before, after, hsplit, hcases, -⟩ := byHints_dependency_first hsorted downstream hdep
  exact ⟨hsorted, hdep, hback, by decide +kernel, before, after, hsplit,
    hcases.imp_right fun hlate => hlate.2.1⟩

end BatchOrder

end JavaAtlas
