import JavaAtlas.Proofs.Symbols.Api

/-!
# Looking up names is scanning

The maps of the index lead from a name to places, and a place back to a symbol through its number.
If every symbol carries its position as its number, both steps together find exactly the symbols
that a scan over all files finds, and in the order of that scan.
-/

namespace JavaAtlas

set_option autoImplicit false

open Std (TransOrd TransCmp OrientedCmp ReflCmp LawfulEqOrd)

/-- The symbols carry their positions. -/
def FileSymbols.Numbered (f : FileSymbols) : Prop :=
  f.symbols.map (fun x => x.ordinal.toNat) = List.range f.symbols.length

instance : DecidablePred FileSymbols.Numbered := fun f =>
  inferInstanceAs (Decidable (f.symbols.map _ = List.range f.symbols.length))

theorem FileSymbols.Numbered.ordinal_eq {f : FileSymbols} (h : f.Numbered) {i : Nat} {x : Symbol}
    (hi : f.symbols[i]? = some x) : x.ordinal.toNat = i := by
  have hat : (f.symbols.map fun x => x.ordinal.toNat)[i]? = some x.ordinal.toNat := by
    rw [List.getElem?_map, hi, Option.map_some]
  rw [h, List.getElem?_range (List.getElem?_eq_some_iff.mp hi).1] at hat
  exact (Option.some.inj hat).symm

theorem FileSymbols.numbered_of_ordinals {f : FileSymbols}
    (h : ∀ (i : Nat) (s : Symbol), f.symbols[i]? = some s → s.ordinal.toNat = i) : f.Numbered := by
  apply List.ext_getElem
  · rw [List.length_map, List.length_range]
  · intro i hi hi'
    rw [List.length_map] at hi
    rw [List.getElem_map, List.getElem_range]
    exact h i _ (List.getElem?_eq_getElem hi)

theorem FileSymbols.Sound.numbered_of_length_le {f : FileSymbols} (h : f.Sound)
    (hlength : f.symbols.length ≤ 4294967296) : f.Numbered := by
  apply numbered_of_ordinals
  intro i s hs
  have hi := (List.getElem?_eq_some_iff.mp hs).1
  rw [h.numbered i s hs, Extraction.toNat_ordinalOf (Nat.lt_of_lt_of_le hi hlength)]

namespace IndexChange

/-- What is put in carries its positions. -/
def Numbered : IndexChange → Prop
  | upsert _ _ symbols => symbols.Numbered
  | remove _ => True
  | clear => True

/-- What is put in names the file it stands in, however spelled. -/
def Located : IndexChange → Prop
  | upsert path _ symbols => ∀ x ∈ symbols.symbols, compare x.path path = .eq
  | remove _ => True
  | clear => True

instance : DecidablePred Numbered
  | upsert _ _ symbols => inferInstanceAs (Decidable symbols.Numbered)
  | remove _ => inferInstanceAs (Decidable True)
  | clear => inferInstanceAs (Decidable True)

instance : DecidablePred Located
  | upsert path _ symbols =>
    inferInstanceAs (Decidable (∀ x ∈ symbols.symbols, compare x.path path = .eq))
  | remove _ => inferInstanceAs (Decidable True)
  | clear => inferInstanceAs (Decidable True)

end IndexChange

/-! ## Neighbours that are equal -/

section Repeats

variable {α : Type} [BEq α] {as : List α}

theorem dropRepeats_subset : dropRepeats as ⊆ as := by
  fun_induction dropRepeats as with
  | case1 => simp
  | case2 a => simp
  | case3 a b rest _ ih =>
    intro x hx
    rcases List.mem_cons.mp (ih hx) with rfl | hx
    · exact List.mem_cons_self
    · exact List.mem_cons_of_mem _ (List.mem_cons_of_mem _ hx)
  | case4 a b rest _ ih =>
    intro x hx
    rcases List.mem_cons.mp hx with rfl | hx
    · exact List.mem_cons_self
    · exact List.mem_cons_of_mem _ (ih hx)

theorem mem_dropRepeats_iff (heq : ∀ a ∈ as, ∀ b ∈ as, (a == b) = true → a = b) (x : α) :
    x ∈ dropRepeats as ↔ x ∈ as := by
  refine ⟨fun hx => dropRepeats_subset hx, fun hx => ?_⟩
  fun_induction dropRepeats as with
  | case1 => exact hx
  | case2 a => exact hx
  | case3 a b rest hab ih =>
    obtain rfl := heq a List.mem_cons_self b (List.mem_cons_of_mem _ List.mem_cons_self) hab
    refine ih (fun c hc d hd => heq c (List.mem_cons_of_mem _ hc) d (List.mem_cons_of_mem _ hd)) ?_
    simpa using hx
  | case4 a b rest _ ih =>
    rcases List.mem_cons.mp hx with rfl | hx
    · exact List.mem_cons_self
    · refine List.mem_cons_of_mem _ (ih (fun c hc d hd => ?_) hx)
      exact heq c (List.mem_cons_of_mem _ hc) d (List.mem_cons_of_mem _ hd)

theorem increasing_dropRepeats (cmp : α → α → Ordering) [TransCmp cmp]
    (hsorted : as.Pairwise fun a b => (cmp a b).isLE = true)
    (heq : ∀ a ∈ as, ∀ b ∈ as, cmp a b = .eq → (a == b) = true) :
    (dropRepeats as).Pairwise fun a b => cmp a b = .lt := by
  fun_induction dropRepeats as with
  | case1 => exact .nil
  | case2 a => simp
  | case3 a b rest _ ih =>
    have hsub : (a :: rest).Sublist (a :: b :: rest) := (List.sublist_cons_self b rest).cons_cons a
    exact ih (hsorted.sublist hsub) fun c hc d hd => heq c (hsub.subset hc) d (hsub.subset hd)
  | case4 a b rest hab ih =>
    have hmem {c : α} (hc : c ∈ b :: rest) : c ∈ a :: b :: rest := List.mem_cons_of_mem a hc
    rw [List.pairwise_cons] at hsorted
    refine List.pairwise_cons.mpr
      ⟨fun c hc => ?_, ih hsorted.2 fun c hc d hd => heq c (hmem hc) d (hmem hd)⟩
    have hc : c ∈ b :: rest := dropRepeats_subset hc
    -- `b` lies between `a` and `c`, and is not taken for `a`
    have hab' : cmp a b = .lt := by
      refine Ordering.isLE_iff_eq_lt_or_eq_eq.mp (hsorted.1 b List.mem_cons_self) |>.resolve_right ?_
      exact fun h => hab (heq a List.mem_cons_self b (hmem List.mem_cons_self) h)
    rcases List.mem_cons.mp hc with rfl | hc
    · exact hab'
    · exact TransCmp.lt_of_lt_of_isLE hab' ((List.pairwise_cons.mp hsorted.2).1 c hc)

end Repeats

namespace Snapshot

variable {s : Snapshot}

theorem mem_entries_apply (h : s.Exact) {change : IndexChange} {e : FileEntry}
    (he : e ∈ (s.apply change).entries) :
    e ∈ s.entries ∨ change = .upsert e.path e.fingerprint e.symbols := by
  cases change with
  | upsert path print symbols =>
    rcases h.mem_or_eq_of_mem_upsert he with he | rfl
    · exact Or.inl he
    · exact Or.inr rfl
  | remove path => exact Or.inl (h.mem_of_mem_remove he)
  | clear => simp [apply, clear, entries, SortedMap.values, EmptyCollection.emptyCollection] at he

theorem mem_entries_applyAll (h : s.Exact) {changes : List IndexChange} {e : FileEntry}
    (he : e ∈ (s.applyAll changes).entries) :
    e ∈ s.entries ∨ .upsert e.path e.fingerprint e.symbols ∈ changes := by
  induction changes generalizing s with
  | nil => exact Or.inl he
  | cons change changes ih =>
    rcases ih (h.apply change) he with he | he
    · rcases mem_entries_apply h he with he | he
      · exact Or.inl he
      · exact Or.inr (he ▸ List.mem_cons_self)
    · exact Or.inr (List.mem_cons_of_mem change he)

theorem put_in_of_mem_entries {changes : List IndexChange} {e : FileEntry}
    (he : e ∈ (applyAll {} changes).entries) :
    .upsert e.path e.fingerprint e.symbols ∈ changes := by
  refine (mem_entries_applyAll (exact_of_empty 0) he).resolve_left fun hnone => ?_
  simp [entries, SortedMap.values, EmptyCollection.emptyCollection] at hnone

/-! ## Places -/

def places (s : Snapshot) : List (Path × Symbol) :=
  s.entries.flatMap fun e => e.symbols.symbols.map fun x => (e.path, x)

def refOf (p : Path × Symbol) : SymbolRef := ⟨p.1, p.2.ordinal⟩

theorem map_snd_places (s : Snapshot) : s.places.map (·.2) = s.allSymbols := by
  simp [places, allSymbols, List.map_flatMap, Function.comp_def]

theorem mem_places_iff (p : Path × Symbol) :
    p ∈ s.places ↔ ∃ e ∈ s.entries, e.path = p.1 ∧ p.2 ∈ e.symbols.symbols := by
  rw [places, List.mem_flatMap]
  refine exists_congr fun e => and_congr_right fun _ => ?_
  rw [List.mem_map]
  constructor
  · rintro ⟨x, hx, rfl⟩
    exact ⟨rfl, hx⟩
  · rintro ⟨hpath, hx⟩
    exact ⟨p.2, hx, Prod.ext hpath rfl⟩

def Numbered (s : Snapshot) : Prop := ∀ e ∈ s.entries, e.symbols.Numbered

theorem numbered_applyAll {changes : List IndexChange} (h : ∀ change ∈ changes, change.Numbered) :
    (applyAll {} changes).Numbered :=
  fun _ he => h _ (put_in_of_mem_entries he)

theorem increasing_of_numbered {f : FileSymbols} (h : f.Numbered) :
    f.symbols.Pairwise fun a b => compare a.ordinal b.ordinal = .lt := by
  rw [List.pairwise_iff_getElem]
  intro i j hi hj hij
  have hiNat := h.ordinal_eq (List.getElem?_eq_getElem hi)
  have hjNat := h.ordinal_eq (List.getElem?_eq_getElem hj)
  rw [Std.compare_eq_lt, UInt32.lt_iff_toNat_lt]
  omega

theorem Exact.increasing_entries (h : s.Exact) :
    s.entries.Pairwise fun a b => compare a.path b.path = .lt := by
  rw [entries, SortedMap.values, List.pairwise_map]
  refine s.files.increasing.imp_of_mem fun {a b} ha hb hlt => ?_
  rwa [← h.keyed a ha, ← h.keyed b hb]

theorem Exact.increasing_places (h : s.Exact) (hnumbered : s.Numbered) :
    s.places.Pairwise fun a b => compare (refOf a) (refOf b) = .lt := by
  rw [places, List.pairwise_flatMap]
  constructor
  · intro e he
    rw [List.pairwise_map]
    refine (increasing_of_numbered (hnumbered e he)).imp fun {a b} hlt => ?_
    exact Ordering.then_eq_lt.mpr (Or.inr ⟨ReflCmp.compare_self, hlt⟩)
  · refine h.increasing_entries.imp fun {a b} hlt => ?_
    intro p hp q hq
    obtain ⟨x, -, rfl⟩ := List.mem_map.mp hp
    obtain ⟨y, -, rfl⟩ := List.mem_map.mp hq
    exact Ordering.then_eq_lt.mpr (Or.inl hlt)

theorem Exact.resolve?_refOf (h : s.Exact) (hnumbered : s.Numbered) {p : Path × Symbol}
    (hp : p ∈ s.places) : s.resolve? (refOf p) = some p.2 := by
  obtain ⟨e, he, hpath, hx⟩ := (mem_places_iff p).mp hp
  obtain ⟨i, hi⟩ := List.mem_iff_getElem?.mp hx
  rw [resolve?, refOf, ← hpath, h.file?_of_mem he, Option.bind_some, (hnumbered e he).ordinal_eq hi, hi]

theorem Exact.resolveAll_map_refOf (h : s.Exact) (hnumbered : s.Numbered)
    {ps : List (Path × Symbol)} (hps : ps ⊆ s.places) :
    s.resolveAll (ps.map refOf) = ps.map (·.2) := by
  rw [resolveAll, List.filterMap_map, ← List.filterMap_eq_map]
  exact List.filterMap_congr fun p hp => h.resolve?_refOf hnumbered (hps hp)

/-- What is stored under a name are the places where a scan meets it, in the order of the scan. -/
theorem Exact.lookup_eq_places (h : s.Exact) (hnumbered : s.Numbered) {key : Symbol → String}
    {m : MultiMap String SymbolRef} (hm : (View.ofSymbols key).Exact s.files m) (name : String) :
    MultiMap.lookup m name = (s.places.filter fun p => key p.2 == name).map refOf := by
  refine eq_of_increasing compare (MultiMap.increasing_lookup m name) ?_ fun ref => ?_
  · rw [List.pairwise_map]
    exact (h.increasing_places hnumbered).filter _
  · rw [hm.mem_iff, View.Related, List.mem_map]
    constructor
    · rintro ⟨e, he, hpair⟩
      obtain ⟨x, hx, heq⟩ := List.mem_map.mp hpair
      obtain ⟨rfl, rfl⟩ := Prod.mk.inj heq
      refine ⟨(e.path, x), List.mem_filter.mpr ⟨?_, beq_self_eq_true _⟩, rfl⟩
      exact (mem_places_iff _).mpr ⟨e, he, rfl, hx⟩
    · rintro ⟨p, hp, rfl⟩
      obtain ⟨hp, hkey⟩ := List.mem_filter.mp hp
      obtain ⟨e, he, hpath, hx⟩ := (mem_places_iff p).mp hp
      refine ⟨e, he, List.mem_map.mpr ⟨p.2, hx, ?_⟩⟩
      rw [refOf, hpath, beq_iff_eq.mp hkey]

theorem map_snd_filter_places (s : Snapshot) (p : Symbol → Bool) :
    (s.places.filter fun q => p q.2).map (·.2) = s.allSymbols.filter p := by
  rw [← map_snd_places, List.filter_map]
  rfl

/-- What a name leads to is what a scan for it finds. -/
theorem Exact.resolveAll_lookup (h : s.Exact) (hnumbered : s.Numbered) {key : Symbol → String}
    {m : MultiMap String SymbolRef} (hm : (View.ofSymbols key).Exact s.files m) (name : String) :
    s.resolveAll (MultiMap.lookup m name) = s.allSymbols.filter fun x => key x == name := by
  rw [h.lookup_eq_places hnumbered hm,
    h.resolveAll_map_refOf hnumbered fun _ hp => List.mem_of_mem_filter hp,
    map_snd_filter_places s fun x => key x == name]

theorem Exact.symbolsByFqn_eq (h : s.Exact) (hnumbered : s.Numbered) (name : String) :
    s.symbolsByFqn name = s.allSymbols.filter fun x => x.fqn == name :=
  h.resolveAll_lookup hnumbered h.byFqn name

theorem Exact.eq_of_refOf (h : s.Exact) (hnumbered : s.Numbered) {p q : Path × Symbol}
    (hp : p ∈ s.places) (hq : q ∈ s.places) (heq : compare (refOf p) (refOf q) = .eq) : p = q :=
  eq_of_increasing_of_eq (compareOn refOf) (h.increasing_places hnumbered) hp hq heq

/-- A place that both maps lead to is met once. -/
theorem Exact.resolve_both (h : s.Exact) (hnumbered : s.Numbered) (name : String) :
    s.resolveAll (SortedSet.toList (SortedSet.ofList
        (MultiMap.lookup s.byFqn name ++ MultiMap.lookup s.byName name))) =
      s.allSymbols.filter fun x => x.fqn == name || x.name == name := by
  have hboth (ref : SymbolRef) :
      ref ∈ MultiMap.lookup s.byFqn name ++ MultiMap.lookup s.byName name ↔
        ref ∈ (s.places.filter fun p => p.2.fqn == name || p.2.name == name).map refOf := by
    rw [h.lookup_eq_places hnumbered h.byFqn, h.lookup_eq_places hnumbered h.byName,
      ← List.map_append, List.mem_map, List.mem_map]
    refine exists_congr fun p => and_congr_left fun _ => ?_
    rw [List.mem_append, List.mem_filter, List.mem_filter, List.mem_filter, Bool.or_eq_true,
      and_or_left]
  have hsame : ∀ a ∈ MultiMap.lookup s.byFqn name ++ MultiMap.lookup s.byName name,
      ∀ b ∈ MultiMap.lookup s.byFqn name ++ MultiMap.lookup s.byName name,
        compare a b = .eq → a = b := by
    intro a ha b hb heq
    obtain ⟨p, hp, rfl⟩ := List.mem_map.mp ((hboth a).mp ha)
    obtain ⟨q, hq, rfl⟩ := List.mem_map.mp ((hboth b).mp hb)
    rw [h.eq_of_refOf hnumbered (List.mem_of_mem_filter hp) (List.mem_of_mem_filter hq) heq]
  have hrefs : SortedSet.toList (SortedSet.ofList
      (MultiMap.lookup s.byFqn name ++ MultiMap.lookup s.byName name)) =
        (s.places.filter fun p => p.2.fqn == name || p.2.name == name).map refOf := by
    refine eq_of_increasing compare (SortedMap.increasing_keys _) ?_ fun ref => ?_
    · rw [List.pairwise_map]
      exact (h.increasing_places hnumbered).filter _
    · exact (SortedSet.mem_ofList_iff hsame ref).trans (hboth ref)
  rw [hrefs, h.resolveAll_map_refOf hnumbered fun _ hp => List.mem_of_mem_filter hp,
    map_snd_filter_places s fun x => x.fqn == name || x.name == name]

/-! ## Symbols that name their file -/

def Located (s : Snapshot) : Prop :=
  ∀ e ∈ s.entries, ∀ x ∈ e.symbols.symbols, compare x.path e.path = .eq

theorem located_applyAll {changes : List IndexChange} (h : ∀ change ∈ changes, change.Located) :
    (applyAll {} changes).Located :=
  fun _ he => h _ (put_in_of_mem_entries he)

def placeOrder : Symbol → Symbol → Ordering :=
  compareLex (compareOn Symbol.path) (compareOn Symbol.ordinal)

def nameOrder : Symbol → Symbol → Ordering := compareLex (compareOn Symbol.fqn) placeOrder

instance : TransCmp placeOrder := inferInstanceAs (TransCmp (compareLex _ _))

instance : TransCmp nameOrder := inferInstanceAs (TransCmp (compareLex _ _))

theorem Exact.increasing_allSymbols (h : s.Exact) (hnumbered : s.Numbered) (hlocated : s.Located) :
    s.allSymbols.Pairwise fun a b => placeOrder a b = .lt := by
  rw [← map_snd_places, List.pairwise_map]
  refine (h.increasing_places hnumbered).imp_of_mem fun {p q} hp hq hlt => ?_
  obtain ⟨d, hd, hdp, hx⟩ := (mem_places_iff p).mp hp
  obtain ⟨e, he, heq, hy⟩ := (mem_places_iff q).mp hq
  have hpath : compare p.2.path q.2.path = compare p.1 q.1 := by
    rw [TransCmp.congr_left (hlocated d hd _ hx), TransCmp.congr_right (hlocated e he _ hy), hdp, heq]
  rw [placeOrder, compareLex, compareOn, hpath]
  exact hlt

theorem Exact.eq_of_place (h : s.Exact) (hnumbered : s.Numbered) (hlocated : s.Located)
    {a b : Symbol} (ha : a ∈ s.allSymbols) (hb : b ∈ s.allSymbols) (heq : placeOrder a b = .eq) :
    a = b :=
  eq_of_increasing_of_eq placeOrder (h.increasing_allSymbols hnumbered hlocated) ha hb heq

/-- The symbols of the index with a property, each once and in order. -/
structure Lists (s : Snapshot) (p : Symbol → Prop) (before : Symbol → Symbol → Bool)
    (answer : List Symbol) : Prop where
  mem_iff : ∀ x, x ∈ answer ↔ x ∈ s.allSymbols ∧ p x
  once : answer.Nodup
  sorted : answer.Pairwise fun a b => before a b = true

/-- An order that tells places apart leaves no choice. -/
theorem Exact.eq_of_lists (h : s.Exact) (hnumbered : s.Numbered) (hlocated : s.Located)
    (cmp : Symbol → Symbol → Ordering) [TransCmp cmp]
    (hcmp : ∀ a b, cmp a b = .eq → placeOrder a b = .eq) {p : Symbol → Prop} {as bs : List Symbol}
    (has : s.Lists p (fun a b => (cmp a b).isLE) as)
    (hbs : s.Lists p (fun a b => (cmp a b).isLE) bs) : as = bs := by
  have hperm : as.Perm bs := (List.perm_ext_iff_of_nodup has.once hbs.once).mpr fun x =>
    (has.mem_iff x).trans (hbs.mem_iff x).symm
  refine hperm.eq_of_pairwise (fun a b ha hb hab hba => ?_) has.sorted hbs.sorted
  exact h.eq_of_place hnumbered hlocated ((has.mem_iff a).mp ha).1 ((hbs.mem_iff b).mp hb).1
    (hcmp a b (OrientedCmp.isLE_antisymm hab hba))

theorem Exact.nodup_allSymbols (h : s.Exact) (hnumbered : s.Numbered) (hlocated : s.Located) :
    s.allSymbols.Nodup :=
  nodup_of_increasing placeOrder (h.increasing_allSymbols hnumbered hlocated)

theorem Exact.lists_mergeSort (h : s.Exact) (hnumbered : s.Numbered) (hlocated : s.Located)
    (cmp : Symbol → Symbol → Ordering) [TransCmp cmp] (p : Symbol → Bool) :
    s.Lists (fun x => p x = true) (fun a b => (cmp a b).isLE)
      ((s.allSymbols.filter p).mergeSort fun a b => (cmp a b).isLE) where
  mem_iff x := by rw [List.mem_mergeSort, List.mem_filter]
  once := (List.mergeSort_perm _ _).nodup_iff.mpr ((h.nodup_allSymbols hnumbered hlocated).filter _)
  sorted := pairwise_mergeSort_isLE cmp _

/-! ## Answers -/

theorem Exact.query_eq (h : s.Exact) (hnumbered : s.Numbered) (name : String) :
    s.query name = (s.allSymbols.filter fun x => x.fqn == name || x.name == name).mergeSort
      Symbol.byNameAndPlace := by
  rw [query, h.resolve_both hnumbered]

theorem Exact.lists_query (h : s.Exact) (hnumbered : s.Numbered) (hlocated : s.Located)
    (name : String) :
    s.Lists (fun x => x.fqn = name ∨ x.name = name) Symbol.byNameAndPlace (s.query name) := by
  have hlists := h.lists_mergeSort hnumbered hlocated nameOrder fun x =>
    x.fqn == name || x.name == name
  rw [h.query_eq hnumbered]
  refine ⟨fun x => (hlists.mem_iff x).trans (and_congr_right fun _ => ?_), hlists.once, hlists.sorted⟩
  rw [Bool.or_eq_true, beq_iff_eq, beq_iff_eq]

/-- Among symbols of one name the order of a query is that of the scan. -/
theorem Exact.symbolsByFqn_eq_filter_query (h : s.Exact) (hnumbered : s.Numbered)
    (hlocated : s.Located) (name : String) :
    s.symbolsByFqn name = (s.query name).filter fun x => x.fqn == name := by
  have hquery := h.lists_query hnumbered hlocated name
  have hscan : s.Lists (fun x => x.fqn = name) Symbol.byNameAndPlace (s.symbolsByFqn name) := by
    rw [h.symbolsByFqn_eq hnumbered]
    refine ⟨fun x => by rw [List.mem_filter, beq_iff_eq],
      (h.nodup_allSymbols hnumbered hlocated).filter _, ?_⟩
    have hplaces := (h.increasing_allSymbols hnumbered hlocated).filter fun x => x.fqn == name
    refine hplaces.imp_of_mem fun {a b} ha hb hlt => ?_
    have hname : compare a.fqn b.fqn = .eq := by
      rw [beq_iff_eq.mp (List.mem_filter.mp ha).2, beq_iff_eq.mp (List.mem_filter.mp hb).2]
      exact ReflCmp.compare_self
    have horder : nameOrder a b = .lt := Ordering.then_eq_lt.mpr (Or.inr ⟨hname, hlt⟩)
    exact congrArg Ordering.isLE horder
  have hsub : s.Lists (fun x => x.fqn = name) Symbol.byNameAndPlace
      ((s.query name).filter fun x => x.fqn == name) := by
    refine ⟨fun x => ?_, hquery.once.filter _, hquery.sorted.filter _⟩
    rw [List.mem_filter, hquery.mem_iff, beq_iff_eq, and_assoc]
    exact and_congr_right fun _ => and_iff_right_of_imp Or.inl
  exact h.eq_of_lists hnumbered hlocated nameOrder (fun a b heq => (Ordering.then_eq_eq.mp heq).2)
    hscan hsub

theorem Exact.lists_typesBySimpleName (h : s.Exact) (hnumbered : s.Numbered) (hlocated : s.Located)
    (name : String) :
    s.Lists (fun x => x.isType = true ∧ x.name = name) Symbol.byNameAndPath
      (s.typesBySimpleName name) := by
  have hlists := h.lists_mergeSort hnumbered hlocated
    (compareLex (compareOn Symbol.fqn) (compareOn Symbol.path)) fun x => x.isType && x.name == name
  rw [typesBySimpleName, h.resolveAll_lookup hnumbered h.byName, List.filter_filter]
  refine ⟨fun x => (hlists.mem_iff x).trans (and_congr_right fun _ => ?_), hlists.once, hlists.sorted⟩
  rw [Bool.and_eq_true, beq_iff_eq]

theorem placeOrder_of_beq {a b : Symbol} (h : (a == b) = true) : placeOrder a b = .eq := by
  have hordinal : a.ordinal = b.ordinal := congrArg (·.2.2) (Symbol.key_eq_of_beq h)
  refine Ordering.then_eq_eq.mpr ⟨(Symbol.eq_with_path_of_beq h).1, ?_⟩
  rw [compareOn, hordinal]
  exact ReflCmp.compare_self

theorem mem_allSymbols_iff (x : Symbol) :
    x ∈ s.allSymbols ↔ ∃ e ∈ s.entries, x ∈ e.symbols.symbols := List.mem_flatMap

/-- A member of a type `name` that its own file declares. -/
def IsMember (s : Snapshot) (name : String) (x : Symbol) : Prop :=
  x.isType = false ∧ x.container = some name ∧
    ∃ e ∈ s.entries, x ∈ e.symbols.symbols ∧ ∃ t ∈ e.symbols.symbols, t.isType = true ∧ t.fqn = name

/-- Each file that declares the type gives its members, once for each such declaration. -/
theorem Exact.mem_members_iff (h : s.Exact) (hnumbered : s.Numbered) (hlocated : s.Located)
    (name : String) (x : Symbol) :
    x ∈ (((s.symbolsByFqn name).filter Symbol.isType).filterMap fun t => s.file? t.path).flatMap
      (fun e => e.symbols.symbols.filter fun m => !m.isType && m.container == some name) ↔
      s.IsMember name x := by
  rw [h.symbolsByFqn_eq hnumbered, IsMember]
  simp only [List.mem_flatMap, List.mem_filterMap, List.mem_filter, Bool.and_eq_true,
    Bool.not_eq_true', beq_iff_eq]
  constructor
  · rintro ⟨e, ⟨t, ⟨⟨ht, hname⟩, htype⟩, hfile⟩, hx, hnot, hcontainer⟩
    obtain ⟨d, hd, ht⟩ := (mem_allSymbols_iff t).mp ht
    have hdeclaring : s.file? t.path = some d := h.file?_eq_some_iff.mpr ⟨hd, hlocated d hd t ht⟩
    obtain rfl : d = e := Option.some.inj (hdeclaring.symm.trans hfile)
    exact ⟨hnot, hcontainer, d, hd, hx, t, ht, htype, hname⟩
  · rintro ⟨hnot, hcontainer, e, he, hx, t, ht, htype, hname⟩
    have hfile : s.file? t.path = some e := h.file?_eq_some_iff.mpr ⟨he, hlocated e he t ht⟩
    have hscan : t ∈ s.allSymbols := (mem_allSymbols_iff t).mpr ⟨e, he, ht⟩
    exact ⟨e, ⟨t, ⟨⟨hscan, hname⟩, htype⟩, hfile⟩, hx, hnot, hcontainer⟩

theorem Exact.lists_membersOf (h : s.Exact) (hnumbered : s.Numbered) (hlocated : s.Located)
    (name : String) : s.Lists (s.IsMember name) Symbol.byPlace (s.membersOf name) := by
  rw [membersOf]
  generalize hmembers : (((s.symbolsByFqn name).filter Symbol.isType).filterMap
    fun t => s.file? t.path).flatMap
      (fun e => e.symbols.symbols.filter fun m => !m.isType && m.container == some name) = members
  have hmem (x : Symbol) : x ∈ members.mergeSort Symbol.byPlace ↔ s.IsMember name x := by
    rw [List.mem_mergeSort, ← hmembers]
    exact h.mem_members_iff hnumbered hlocated name x
  have hscan {x : Symbol} (hx : s.IsMember name x) : x ∈ s.allSymbols := by
    obtain ⟨-, -, e, he, hx, -⟩ := hx
    exact (mem_allSymbols_iff x).mpr ⟨e, he, hx⟩
  have hsame {a b : Symbol} (ha : a ∈ members.mergeSort Symbol.byPlace)
      (hb : b ∈ members.mergeSort Symbol.byPlace) (heq : placeOrder a b = .eq) : a = b :=
    h.eq_of_place hnumbered hlocated (hscan ((hmem a).mp ha)) (hscan ((hmem b).mp hb)) heq
  have hsorted : (members.mergeSort Symbol.byPlace).Pairwise fun a b => (placeOrder a b).isLE :=
    pairwise_mergeSort_isLE placeOrder members
  have hincreasing := increasing_dropRepeats placeOrder hsorted
    fun a ha b hb heq => beq_of_eq (hsame ha hb heq)
  refine ⟨fun x => ?_, nodup_of_increasing placeOrder hincreasing, ?_⟩
  · rw [mem_dropRepeats_iff fun a ha b hb heq => hsame ha hb (placeOrder_of_beq heq), hmem]
    exact (and_iff_right_of_imp hscan).symm
  · exact hincreasing.imp fun {a b} hlt => congrArg Ordering.isLE hlt

/-- Whatever was put in and dropped before, the answers about a name are what a scan over all
symbols finds, each symbol once and in order. -/
theorem names_eq_scan {changes : List IndexChange} (hnumbered : ∀ change ∈ changes, change.Numbered)
    (hlocated : ∀ change ∈ changes, change.Located) (name : String) :
    let s := applyAll {} changes
    s.Lists (fun x => x.fqn = name ∨ x.name = name) Symbol.byNameAndPlace (s.query name) ∧
      s.symbolsByFqn name = (s.query name).filter (fun x => x.fqn == name) ∧
      (s.typeExists name = true ↔ ∃ x ∈ s.allSymbols, x.fqn = name ∧ x.isType = true) ∧
      s.Lists (fun x => x.isType = true ∧ x.name = name) Symbol.byNameAndPath
        (s.typesBySimpleName name) ∧
      s.Lists (s.IsMember name) Symbol.byPlace (s.membersOf name) := by
  intro s
  have h : s.Exact := (exact_of_empty 0).applyAll changes
  have hnumbered : s.Numbered := numbered_applyAll hnumbered
  have hlocated : s.Located := located_applyAll hlocated
  refine ⟨h.lists_query hnumbered hlocated name,
    h.symbolsByFqn_eq_filter_query hnumbered hlocated name, ?_,
    h.lists_typesBySimpleName hnumbered hlocated name, h.lists_membersOf hnumbered hlocated name⟩
  rw [typeExists, h.symbolsByFqn_eq hnumbered, List.any_eq_true]
  refine exists_congr fun x => ?_
  rw [List.mem_filter, beq_iff_eq, and_assoc]

/-- Two files declare `q.Dup`, one of them with overloads and only after it was replaced, and a
name that is a full and a simple one is dropped again. -/
def overloads : List IndexChange :=
  let type (path fqn name : String) : Symbol :=
    ⟨fqn, name, .type, some .classType, ⟨path⟩, default, default, "class " ++ name, none, 0⟩
  let run (path : String) (ordinal : UInt32) : Symbol :=
    ⟨"q.Dup.run", "run", .method, none, ⟨path⟩, default, default, "run()", some "q.Dup", ordinal⟩
  [.upsert ⟨"/b"⟩ ⟨"1"⟩ { symbols := [type "/b" "run" "run"] },
    .upsert ⟨"/a"⟩ ⟨"2"⟩ { symbols := [type "/a" "q.Dup" "Dup", run "/a/" 1] },
    .upsert ⟨"/c"⟩ ⟨"3"⟩ { symbols := [type "/c" "run" "run"] },
    .upsert ⟨"/b"⟩ ⟨"4"⟩ { symbols := [type "/b" "q.Dup" "Dup", run "/b" 1, run "/b" 2] },
    .remove ⟨"/c"⟩]

theorem names_eq_scan_overloads :
    (∀ change ∈ overloads, change.Numbered) ∧ (∀ change ∈ overloads, change.Located) ∧
      let s := applyAll {} overloads
      s.Lists (fun x => x.fqn = "run" ∨ x.name = "run") Symbol.byNameAndPlace (s.query "run") ∧
        s.Lists (s.IsMember "q.Dup") Symbol.byPlace (s.membersOf "q.Dup") ∧
        s.allSymbols.map (fun x => (x.path.spelling, x.ordinal)) =
          [("/a", 0), ("/a/", 1), ("/b", 0), ("/b", 1), ("/b", 2)] := by
  have hnumbered : ∀ change ∈ overloads, change.Numbered := by decide
  have hlocated : ∀ change ∈ overloads, change.Located := by decide
  have hrun := names_eq_scan hnumbered hlocated "run"
  have hdup := names_eq_scan hnumbered hlocated "q.Dup"
  exact ⟨hnumbered, hlocated, hrun.1, hdup.2.2.2.2, by decide⟩

end Snapshot

end JavaAtlas
