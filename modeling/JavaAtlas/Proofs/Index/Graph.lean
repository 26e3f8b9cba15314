import JavaAtlas.Proofs.Index.Names

/-!
# The graphs of files and of types

Two graphs can be read off the files: a file is used by the others that refer to its types, and a
type has subtypes. With exact maps a walk over the index follows the edges of these graphs and no
others, so its answer is what can be reached in them, whatever cycles they have. The walk keeps a
queue and ends when the queue is empty.
-/

namespace JavaAtlas

set_option autoImplicit false

open Std (TransCmp OrientedCmp ReflCmp)
open Relation (TransGen)

namespace Snapshot

variable {s : Snapshot}

/-! ## Files -/

/-- The dependents are what a queue of files finds that passes over the file itself. -/
theorem Exact.serves_dependents (h : s.Exact) (p : Path) :
    ∃ found, Serves s.directDependents [p] (s.directDependents p) found ∧
      s.dependents p = SortedSet.toList (SortedSet.ofList found) := by
  have hserves := (h.confined_dependents p).serves_reachable (h.directDependents_subset p)
    s.length_paths_lt
  refine ⟨_, Serves.barring hserves ?_, rfl⟩
  refine List.filter_eq_self.mpr fun q hq => ?_
  obtain ⟨hne, -⟩ := (h.arrives_dependents_iff p q).mp ⟨0, hq⟩
  simpa [bne, BEq.beq] using hne

/-! ## Types -/

/-- Some file declares that `t` extends or implements `f`. -/
def Extends (s : Snapshot) (t f : String) : Prop :=
  ∃ e ∈ s.entries, ∃ edge ∈ e.symbols.supertypes, edge.subtype = t ∧ edge.supertype = f

/-- `n` edges lead from `f` down to this type, one at least. -/
inductive Below (s : Snapshot) (f : String) : Nat → String → Prop
  | child {t : String} : s.Extends t f → Below s f 1 t
  | further {n : Nat} {u t : String} : Below s f n u → s.Extends t u → Below s f (n + 1) t

/-- What the map of one direction holds for `a` are the other ends of the edges at `a`. -/
theorem mem_ends_iff {key other : SupertypeEdge → String} {m : MultiMap String EdgeEnd}
    (hm : (View.ofEdges key other).Exact s.files m) (a b : String) :
    b ∈ dropRepeats ((MultiMap.lookup m a).map (·.name)) ↔
      ∃ e ∈ s.entries, ∃ edge ∈ e.symbols.supertypes, key edge = a ∧ other edge = b := by
  rw [mem_dropRepeats_iff fun a _ b _ hab => eq_of_beq hab]
  simp only [List.mem_map, hm.mem_iff]
  constructor
  · rintro ⟨ref, ⟨e, he, hpair⟩, rfl⟩
    obtain ⟨edge, hedge, heq⟩ := List.mem_map.mp hpair
    obtain ⟨rfl, rfl⟩ := Prod.mk.inj heq
    exact ⟨e, he, edge, hedge, rfl, rfl⟩
  · rintro ⟨e, he, edge, hedge, rfl, rfl⟩
    exact ⟨⟨other edge, e.path⟩, ⟨e, he, List.mem_map.mpr ⟨edge, hedge, rfl⟩⟩, rfl⟩

theorem Exact.mem_subtypesOf_iff (h : s.Exact) (f t : String) :
    t ∈ s.subtypesOf f ↔ s.Extends t f := by
  rw [subtypesOf, mem_ends_iff h.subtypes, Extends]
  simp only [and_comm]

theorem Exact.mem_supertypesOf_iff (h : s.Exact) (t f : String) :
    f ∈ s.supertypesOf t ↔ s.Extends t f := mem_ends_iff h.supertypes t f

theorem Exact.subtypesOf_subset (h : s.Exact) (f : String) : ∀ t ∈ s.subtypesOf f,
    t ∈ (s.entries.flatMap fun e => e.symbols.supertypes).map (·.subtype) := by
  intro t ht
  obtain ⟨e, he, edge, hedge, rfl, -⟩ := (h.mem_subtypesOf_iff f t).mp ht
  exact List.mem_map.mpr ⟨edge, List.mem_flatMap.mpr ⟨e, he, hedge⟩, rfl⟩

theorem Exact.confined_subtypes (h : s.Exact) :
    Confined s.subtypesOf ((s.entries.flatMap fun e => e.symbols.supertypes).map (·.subtype)) where
  eq_of_beq _ _ _ _ hab := eq_of_beq hab
  closed f _ := h.subtypesOf_subset f

theorem length_edges_lt (s : Snapshot) :
    ((s.entries.flatMap fun e => e.symbols.supertypes).map (·.subtype)).length < s.edgeCount + 1 := by
  rw [List.length_map, edgeCount]
  exact Nat.lt_succ_self _

theorem Below.exists_succ {f t : String} {n : Nat} (h : s.Below f n t) : ∃ m, n = m + 1 := by
  cases h with
  | child => exact ⟨0, rfl⟩
  | @further n => exact ⟨n, rfl⟩

theorem Exact.arrives_subtypes_iff (h : s.Exact) (f t : String) (n : Nat) :
    Arrives s.subtypesOf (s.subtypesOf f) n t ↔ s.Below f (n + 1) t := by
  induction n generalizing t with
  | zero =>
    rw [Arrives, h.mem_subtypesOf_iff]
    constructor
    · exact .child
    · rintro (hchild | ⟨hbelow, -⟩)
      · exact hchild
      · obtain ⟨m, hm⟩ := hbelow.exists_succ
        exact absurd hm.symm (Nat.succ_ne_zero m)
  | succ n ih =>
    simp only [Arrives, ih, h.mem_subtypesOf_iff]
    constructor
    · rintro ⟨u, hu, ht⟩
      exact .further hu ht
    · rintro (_ | ⟨hu, ht⟩)
      exact ⟨_, hu, ht⟩

theorem Exact.mem_allSubtypes_iff (h : s.Exact) (f t : String) :
    t ∈ s.allSubtypes f ↔ ∃ n, s.Below f n t := by
  rw [allSubtypes, h.confined_subtypes.mem_reachable_iff (h.subtypesOf_subset f) s.length_edges_lt]
  constructor
  · rintro ⟨n, hn⟩
    exact ⟨n + 1, (h.arrives_subtypes_iff f t n).mp hn⟩
  · rintro ⟨n, hn⟩
    obtain ⟨m, rfl⟩ := hn.exists_succ
    exact ⟨m, (h.arrives_subtypes_iff f t m).mpr hn⟩

theorem Exact.explores_subtypes (h : s.Exact) (f : String) :
    Explores s.subtypesOf (s.subtypesOf f) [] (s.allSubtypes f) :=
  h.confined_subtypes.explores_reachable (h.subtypesOf_subset f) s.length_edges_lt

/-- A subtype that is listed earlier is no farther away. -/
theorem Exact.nearestFirst_allSubtypes (h : s.Exact) (f : String) :
    (s.allSubtypes f).Pairwise fun t u => ∃ m, s.Below f m t ∧ ∀ n, s.Below f n u → m ≤ n := by
  refine (h.explores_subtypes f).nearer.imp ?_
  rintro t u ⟨m, hm, hleast⟩
  refine ⟨m + 1, (h.arrives_subtypes_iff f t m).mp hm, fun n hn => ?_⟩
  obtain ⟨k, rfl⟩ := hn.exists_succ
  exact Nat.succ_le_succ (hleast k ((h.arrives_subtypes_iff f u k).mpr hn))

/-! ## Uses -/

/-- The uses of a type in one file, as they stand there. -/
def usagesIn (e : FileEntry) (f : String) : List Usage :=
  (e.symbols.references.filter fun r => r.target == f).map fun r => ⟨e.path, r.span⟩

theorem usagesIn_eq_nil {e : FileEntry} {f : String}
    (h : f ∉ e.symbols.references.map (·.target)) : usagesIn e f = [] := by
  rw [usagesIn, List.map_eq_nil_iff, List.filter_eq_nil_iff]
  intro r hr htarget
  exact h (List.mem_map.mpr ⟨r, hr, eq_of_beq htarget⟩)

/-- The files that refer to a type, found through the index. -/
theorem Exact.perm_referencing (h : s.Exact) (f : String) :
    ((MultiMap.lookup s.referencing f).filterMap s.file?).Perm
      (s.entries.filter fun e => (e.symbols.references.map (·.target)).contains f) := by
  refine (List.perm_ext_iff_of_nodup ?_ ?_).mpr fun x => ?_
  · refine List.pairwise_filterMap.mpr ((MultiMap.increasing_lookup s.referencing f).imp ?_)
    rintro p q hlt x hx y hy rfl
    have hpq : compare p q = .eq := TransCmp.eq_trans (h.file?_eq_some_iff.mp hx).2
      (OrientedCmp.eq_symm (h.file?_eq_some_iff.mp hy).2)
    rw [hpq] at hlt
    simp at hlt
  · refine List.Nodup.filter _ (h.keyed.values_pairwise.imp ?_)
    rintro a _ hne rfl
    exact hne ReflCmp.compare_self
  · simp only [List.mem_filterMap, h.mem_referencing_iff, List.mem_filter, List.contains_iff_mem]
    constructor
    · rintro ⟨p, ⟨y, hy, rfl, htarget⟩, hx⟩
      obtain rfl : y = x := by simpa [h.file?_of_mem hy] using hx
      exact ⟨hy, htarget⟩
    · rintro ⟨hx, htarget⟩
      exact ⟨x.path, ⟨x, hx, rfl, htarget⟩, h.file?_of_mem hx⟩

theorem flatMap_usagesIn (entries : List FileEntry) (f : String) :
    (entries.filter fun e => (e.symbols.references.map (·.target)).contains f).flatMap
        (usagesIn · f) = entries.flatMap (usagesIn · f) := by
  induction entries with
  | nil => rfl
  | cons e entries ih =>
    rw [List.filter_cons, List.flatMap_cons]
    split
    next => rw [List.flatMap_cons, ih]
    next hno =>
      have hnone : f ∉ e.symbols.references.map (·.target) := fun hmem =>
        hno (List.contains_iff_mem.mpr hmem)
      rw [ih, usagesIn_eq_nil hnone, List.nil_append]

theorem Exact.perm_usages (h : s.Exact) (f : String) :
    (s.usages f).Perm (s.entries.flatMap (usagesIn · f)) := by
  rw [← flatMap_usagesIn]
  exact (List.mergeSort_perm _ _).trans ((h.perm_referencing f).flatMap_right (usagesIn · f))

theorem sorted_usages (s : Snapshot) (f : String) :
    (s.usages f).Pairwise fun u v =>
      ((compare u.path v.path).then (compare u.span.start v.span.start)).isLE = true :=
  pairwise_mergeSort_isLE (compareLex (compareOn Usage.path) (compareOn fun u => u.span.start)) _

/-! ## All three -/

/-- After any changes of the index, and whatever cycles there are: the dependents of `p` are the
other files reached from it by one or more uses, and a queue that passes over `p` ends with them;
the subtypes of `f` are the types reached from it by one or more edges, each once and the nearest
first, and a queue ends with that list; the uses of `f` are the references to it in all files, by
file and position. -/
theorem graph_queries_exact (changes : List IndexChange) (p : Path) (f : String) :
    let s := applyAll {} changes
    ((∃ found, Serves s.directDependents [p] (s.directDependents p) found ∧
        s.dependents p = SortedSet.toList (SortedSet.ofList found)) ∧
      ∀ q, q ∈ s.dependents p ↔ compare q p ≠ .eq ∧ TransGen s.UsedBy p q) ∧
    (Serves s.subtypesOf [] (s.subtypesOf f) (s.allSubtypes f) ∧
      (s.allSubtypes f).Nodup ∧
      (∀ t, t ∈ s.allSubtypes f ↔ ∃ n, s.Below f n t) ∧
      (s.allSubtypes f).Pairwise fun t u => ∃ m, s.Below f m t ∧ ∀ n, s.Below f n u → m ≤ n) ∧
    (s.usages f).Perm (s.entries.flatMap fun e =>
      (e.symbols.references.filter fun r => r.target == f).map fun r => ⟨e.path, r.span⟩) ∧
    (s.usages f).Pairwise fun u v =>
      ((compare u.path v.path).then (compare u.span.start v.span.start)).isLE = true := by
  intro s
  have h : s.Exact := (exact_of_empty 0).applyAll changes
  have hqueue : Serves s.subtypesOf [] (s.subtypesOf f) (s.allSubtypes f) :=
    h.confined_subtypes.serves_reachable (h.subtypesOf_subset f) s.length_edges_lt
  exact ⟨⟨h.serves_dependents p, h.mem_dependents_iff p⟩,
    ⟨hqueue, (h.explores_subtypes f).nodup, h.mem_allSubtypes_iff f, h.nearestFirst_allSubtypes f⟩,
    h.perm_usages f, s.sorted_usages f⟩

end Snapshot

end JavaAtlas
