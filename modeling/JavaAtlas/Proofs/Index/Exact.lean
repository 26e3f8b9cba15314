import JavaAtlas.Index.Update
import JavaAtlas.Proofs.Data.MultiMap

/-!
# The maps of the index follow from its files

Each map of a snapshot holds what its files contribute and nothing else. A contribution names the
file it comes from, so what two different files contribute to one key never collides, and removing
a file takes away exactly its own part however often the file repeats it.
-/

namespace JavaAtlas

set_option autoImplicit false

universe u

open Std (TransOrd TransCmp OrientedCmp ReflCmp LawfulEqOrd)

def Keyed (files : SortedMap Path FileEntry) : Prop := ∀ x ∈ files.entries, x.1 = x.2.path

namespace Keyed

variable {files : SortedMap Path FileEntry}

theorem mem_values_iff (h : Keyed files) (e : FileEntry) :
    e ∈ files.values ↔ (e.path, e) ∈ files.entries := by
  rw [SortedMap.values, List.mem_map]
  constructor
  · rintro ⟨x, hx, rfl⟩
    rw [← h x hx]
    exact hx
  · intro he
    exact ⟨(e.path, e), he, rfl⟩

theorem eq_of_compare_eq (h : Keyed files) {a b : FileEntry} (ha : a ∈ files.values)
    (hb : b ∈ files.values) (hc : compare a.path b.path = .eq) : a = b := by
  have hab := SortedMap.eq_of_mem_of_compare_eq ((h.mem_values_iff a).mp ha)
    ((h.mem_values_iff b).mp hb) hc
  exact (Prod.mk.inj hab).2

theorem get?_eq_some_iff (h : Keyed files) {path : Path} {e : FileEntry} :
    files.get? path = some e ↔ e ∈ files.values ∧ compare path e.path = .eq := by
  rw [SortedMap.get?_eq_some_iff, h.mem_values_iff]
  constructor
  · rintro ⟨k, hk, hc⟩
    obtain rfl : k = e.path := h (k, e) hk
    exact ⟨hk, hc⟩
  · rintro ⟨he, hc⟩
    exact ⟨e.path, he, hc⟩

theorem insert (h : Keyed files) (e : FileEntry) : Keyed (files.insert e.path e) := by
  intro x hx
  rcases (SortedMap.mem_insert_iff files e.path e x).mp hx with rfl | ⟨hx, _⟩
  · rfl
  · exact h x hx

theorem erase (h : Keyed files) (path : Path) : Keyed (files.erase path) := by
  intro x hx
  exact h x ((SortedMap.mem_erase_iff files path x).mp hx).1

theorem mem_values_insert_iff (h : Keyed files) (e a : FileEntry) :
    a ∈ (files.insert e.path e).values ↔
      a = e ∨ (a ∈ files.values ∧ compare a.path e.path ≠ .eq) := by
  rw [(h.insert e).mem_values_iff, h.mem_values_iff, SortedMap.mem_insert_iff]
  refine or_congr_left ⟨fun hp => (Prod.mk.inj hp).2, ?_⟩
  rintro rfl
  rfl

theorem mem_values_erase_iff (h : Keyed files) (path : Path) (a : FileEntry) :
    a ∈ (files.erase path).values ↔ a ∈ files.values ∧ compare path a.path ≠ .eq := by
  rw [(h.erase path).mem_values_iff, h.mem_values_iff, SortedMap.mem_erase_iff]

theorem eq_of_mem_values_iff {a b : SortedMap Path FileEntry} (ha : Keyed a) (hb : Keyed b)
    (h : ∀ e, e ∈ a.values ↔ e ∈ b.values) : a = b := by
  apply SortedMap.eq_of_mem_iff
  rintro ⟨k, e⟩
  constructor
  · intro hx
    obtain rfl : k = e.path := ha _ hx
    exact (hb.mem_values_iff e).mp ((h e).mp ((ha.mem_values_iff e).mpr hx))
  · intro hx
    obtain rfl : k = e.path := hb _ hx
    exact (ha.mem_values_iff e).mp ((h e).mpr ((hb.mem_values_iff e).mpr hx))

theorem values_pairwise (h : Keyed files) :
    files.values.Pairwise fun a b => compare a.path b.path ≠ .eq := by
  rw [SortedMap.values, List.pairwise_map]
  refine files.increasing.imp_of_mem ?_
  intro x y hx hy hlt
  rw [← h x hx, ← h y hy, hlt]
  simp

end Keyed

/-! ## One map -/

/-- What a file adds to one of the maps. A value says which file it comes from. -/
structure View (α : Type u) [Ord α] where
  pairs : FileEntry → List (String × α)
  place : α → Path
  place_eq : ∀ e, ∀ p ∈ pairs e, place p.2 = e.path
  place_congr : ∀ a b, compare a b = .eq → compare (place a) (place b) = .eq
  eq_of_place_eq : ∀ a b, compare a b = .eq → place a = place b → a = b

namespace View

variable {α : Type u} [Ord α] (v : View α) {files : SortedMap Path FileEntry}

/-- Some file puts `a` under `k`. -/
def Related (files : SortedMap Path FileEntry) (k : String) (a : α) : Prop :=
  ∃ e ∈ files.values, (k, a) ∈ v.pairs e

def Exact (files : SortedMap Path FileEntry) (m : MultiMap String α) : Prop :=
  MultiMap.Represents m (v.Related files)

theorem separated (h : Keyed files) : MultiMap.Separated (v.Related files) := by
  rintro k a b ⟨e, he, ha⟩ ⟨e', he', hb⟩ hc
  have hplace : compare e.path e'.path = .eq := by
    rw [← v.place_eq e _ ha, ← v.place_eq e' _ hb]
    exact v.place_congr a b hc
  obtain rfl := h.eq_of_compare_eq he he' hplace
  exact v.eq_of_place_eq a b hc ((v.place_eq e _ ha).trans (v.place_eq e _ hb).symm)

theorem exact_empty : v.Exact ∅ ∅ := by
  refine MultiMap.represents_empty.congr fun k a => ⟨False.elim, ?_⟩
  rintro ⟨e, he, _⟩
  simp [SortedMap.values, EmptyCollection.emptyCollection] at he

theorem related_insert_iff (h : Keyed files) {e : FileEntry} (hnew : files.get? e.path = none)
    (k : String) (a : α) :
    v.Related (files.insert e.path e) k a ↔ v.Related files k a ∨ (k, a) ∈ v.pairs e := by
  constructor
  · rintro ⟨e', he', ha⟩
    rcases (h.mem_values_insert_iff e e').mp he' with rfl | ⟨he', _⟩
    · exact Or.inr ha
    · exact Or.inl ⟨e', he', ha⟩
  · rintro (⟨e', he', ha⟩ | ha)
    · refine ⟨e', (h.mem_values_insert_iff e e').mpr (Or.inr ⟨he', ?_⟩), ha⟩
      intro hc
      have hsome := h.get?_eq_some_iff.mpr ⟨he', OrientedCmp.eq_symm hc⟩
      rw [hnew] at hsome
      simp at hsome
    · exact ⟨e, (h.mem_values_insert_iff e e).mpr (Or.inl rfl), ha⟩

theorem related_erase_iff (h : Keyed files) {path : Path} {e : FileEntry}
    (hold : files.get? path = some e) (k : String) (a : α) :
    v.Related (files.erase path) k a ↔ v.Related files k a ∧ (k, a) ∉ v.pairs e := by
  obtain ⟨he, hpath⟩ := h.get?_eq_some_iff.mp hold
  constructor
  · rintro ⟨e', he', ha⟩
    obtain ⟨hmem, hne⟩ := (h.mem_values_erase_iff path e').mp he'
    refine ⟨⟨e', hmem, ha⟩, fun hae => hne ?_⟩
    rw [← v.place_eq e' _ ha, v.place_eq e _ hae]
    exact hpath
  · rintro ⟨⟨e', he', ha⟩, hno⟩
    refine ⟨e', (h.mem_values_erase_iff path e').mpr ⟨he', fun hc => hno ?_⟩, ha⟩
    obtain rfl := h.eq_of_compare_eq he' he (TransCmp.eq_trans (OrientedCmp.eq_symm hc) hpath)
    exact ha

variable [TransOrd α]

theorem Exact.insert {v : View α} {m : MultiMap String α} (hm : v.Exact files m) (h : Keyed files)
    {e : FileEntry} (hnew : files.get? e.path = none) :
    v.Exact (files.insert e.path e) (MultiMap.linkAll m (v.pairs e)) := by
  have hiff := v.related_insert_iff h hnew
  have hsep : MultiMap.Separated fun k a => v.Related files k a ∨ (k, a) ∈ v.pairs e := by
    intro k a b ha hb
    exact v.separated (h.insert e) k a b ((hiff k a).mpr ha) ((hiff k b).mpr hb)
  exact (MultiMap.Represents.linkAll hm (v.pairs e) hsep).congr fun k a => (hiff k a).symm

theorem Exact.erase {v : View α} {m : MultiMap String α} (hm : v.Exact files m) (h : Keyed files)
    {path : Path} {e : FileEntry} (hold : files.get? path = some e) :
    v.Exact (files.erase path) (MultiMap.unlinkAll m (v.pairs e)) := by
  have he := (h.get?_eq_some_iff.mp hold).1
  have hall := MultiMap.Represents.unlinkAll hm (v.pairs e) (v.separated h)
    fun p hp => ⟨e, he, hp⟩
  exact hall.congr fun k a => (v.related_erase_iff h hold k a).symm

theorem Exact.unique {v : View α} {m m' : MultiMap String α} (hm : v.Exact files m)
    (hm' : v.Exact files m') : m = m' :=
  MultiMap.Represents.unique hm hm'

end View

/-! ## The seven maps -/

namespace SymbolRef

theorem path_congr {a b : SymbolRef} (h : compare a b = .eq) : compare a.path b.path = .eq :=
  (compareLex_eq_eq.mp h).1

theorem eq_of_path_eq {a b : SymbolRef} (h : compare a b = .eq) (hp : a.path = b.path) : a = b := by
  have ho : a.ordinal = b.ordinal := LawfulEqOrd.eq_of_compare (compareLex_eq_eq.mp h).2
  cases a
  cases b
  cases hp
  cases ho
  rfl

end SymbolRef

namespace EdgeEnd

theorem path_congr {a b : EdgeEnd} (h : compare a b = .eq) : compare a.path b.path = .eq :=
  (compareLex_eq_eq.mp h).2

theorem eq_of_path_eq {a b : EdgeEnd} (h : compare a b = .eq) (hp : a.path = b.path) : a = b := by
  have hn : a.name = b.name := LawfulEqOrd.eq_of_compare (compareLex_eq_eq.mp h).1
  cases a
  cases b
  cases hp
  cases hn
  rfl

end EdgeEnd

namespace View

/-- Each symbol under a name of its own. -/
def ofSymbols (key : Symbol → String) : View SymbolRef where
  pairs e := e.symbols.symbols.map fun s => (key s, ⟨e.path, s.ordinal⟩)
  place := SymbolRef.path
  place_eq := by
    intro e p hp
    obtain ⟨s, _, rfl⟩ := List.mem_map.mp hp
    rfl
  place_congr _ _ := SymbolRef.path_congr
  eq_of_place_eq _ _ := SymbolRef.eq_of_path_eq

/-- The file itself under each of the names it mentions. -/
def ofNames (names : FileSymbols → List String) : View Path where
  pairs e := (names e.symbols).map fun name => (name, e.path)
  place := id
  place_eq := by
    intro e p hp
    obtain ⟨name, _, rfl⟩ := List.mem_map.mp hp
    rfl
  place_congr _ _ h := h
  eq_of_place_eq _ _ _ h := h

/-- One end of each edge under the other. -/
def ofEdges (key : SupertypeEdge → String) (other : SupertypeEdge → String) : View EdgeEnd where
  pairs e := e.symbols.supertypes.map fun edge => (key edge, ⟨other edge, e.path⟩)
  place := EdgeEnd.path
  place_eq := by
    intro e p hp
    obtain ⟨edge, _, rfl⟩ := List.mem_map.mp hp
    rfl
  place_congr _ _ := EdgeEnd.path_congr
  eq_of_place_eq _ _ := EdgeEnd.eq_of_path_eq

def byFqn : View SymbolRef := ofSymbols Symbol.fqn

def byName : View SymbolRef := ofSymbols Symbol.name

def packages : View Path := ofNames fun f => f.package.toList

def referencing : View Path := ofNames fun f => f.references.map Reference.target

def unresolved : View Path := ofNames FileSymbols.unresolved

def subtypes : View EdgeEnd := ofEdges SupertypeEdge.supertype SupertypeEdge.subtype

def supertypes : View EdgeEnd := ofEdges SupertypeEdge.subtype SupertypeEdge.supertype

end View

namespace Snapshot

/-- Every map of the snapshot follows from its files. -/
structure Exact (s : Snapshot) : Prop where
  keyed : Keyed s.files
  byFqn : View.byFqn.Exact s.files s.byFqn
  byName : View.byName.Exact s.files s.byName
  fqnOrder : ∀ name, s.fqnOrder.contains name = s.byFqn.contains name
  packages : View.packages.Exact s.files s.packages
  referencing : View.referencing.Exact s.files s.referencing
  unresolved : View.unresolved.Exact s.files s.unresolved
  subtypes : View.subtypes.Exact s.files s.subtypes
  supertypes : View.supertypes.Exact s.files s.supertypes

theorem exact_of_empty (generation : Nat) : Exact { generation } where
  keyed _ hx := by simp [EmptyCollection.emptyCollection] at hx
  byFqn := View.exact_empty _
  byName := View.exact_empty _
  fqnOrder _ := rfl
  packages := View.exact_empty _
  referencing := View.exact_empty _
  unresolved := View.exact_empty _
  subtypes := View.exact_empty _
  supertypes := View.exact_empty _

theorem fqnOrder_ext {a b : SortedSet String} (h : ∀ name, a.contains name = b.contains name) :
    a = b := by
  have half {s t : SortedSet String} (hst : ∀ name, s.contains name = t.contains name)
      (e : String × Unit) (he : e ∈ s.entries) : e ∈ t.entries := by
    have hc : t.contains e.1 = true := by
      rw [← hst]
      exact SortedMap.contains_iff.mpr ⟨e, he, ReflCmp.compare_self⟩
    obtain ⟨e', he', heq⟩ := SortedMap.contains_iff.mp hc
    have : e = e' := Prod.ext (LawfulEqOrd.eq_of_compare heq) rfl
    rwa [this]
  exact SortedMap.eq_of_mem_iff fun e => ⟨half h e, half (fun name => (h name).symm) e⟩

/-- Two snapshots that follow from the same files differ at most in their generation. -/
theorem Exact.eq_of_files_eq {s t : Snapshot} (hs : s.Exact) (ht : t.Exact)
    (hfiles : s.files = t.files) : { s with generation := t.generation } = t := by
  have byFqn := View.Exact.unique hs.byFqn (hfiles ▸ ht.byFqn)
  have byName := View.Exact.unique hs.byName (hfiles ▸ ht.byName)
  have fqnOrder : s.fqnOrder = t.fqnOrder :=
    fqnOrder_ext fun name => by rw [hs.fqnOrder, ht.fqnOrder, byFqn]
  have packages := View.Exact.unique hs.packages (hfiles ▸ ht.packages)
  have referencing := View.Exact.unique hs.referencing (hfiles ▸ ht.referencing)
  have unresolved := View.Exact.unique hs.unresolved (hfiles ▸ ht.unresolved)
  have subtypes := View.Exact.unique hs.subtypes (hfiles ▸ ht.subtypes)
  have supertypes := View.Exact.unique hs.supertypes (hfiles ▸ ht.supertypes)
  cases s
  cases t
  simp_all

/-! ## Adding and removing a file -/

theorem foldl_addSymbol (path : Path) (symbols : List Symbol) (s : Snapshot) :
    ∃ order, symbols.foldl (addSymbol path) s =
      { s with
        byFqn := MultiMap.linkAll s.byFqn (symbols.map fun x => (x.fqn, ⟨path, x.ordinal⟩))
        byName := MultiMap.linkAll s.byName (symbols.map fun x => (x.name, ⟨path, x.ordinal⟩))
        fqnOrder := order } := by
  induction symbols generalizing s with
  | nil => exact ⟨s.fqnOrder, rfl⟩
  | cons x symbols ih =>
    obtain ⟨order, h⟩ := ih (addSymbol path s x)
    exact ⟨order, h⟩

theorem foldl_dropSymbol (path : Path) (symbols : List Symbol) (s : Snapshot) :
    ∃ order, symbols.foldl (dropSymbol path) s =
      { s with
        byFqn := MultiMap.unlinkAll s.byFqn (symbols.map fun x => (x.fqn, ⟨path, x.ordinal⟩))
        byName := MultiMap.unlinkAll s.byName (symbols.map fun x => (x.name, ⟨path, x.ordinal⟩))
        fqnOrder := order } := by
  induction symbols generalizing s with
  | nil => exact ⟨s.fqnOrder, rfl⟩
  | cons x symbols ih =>
    obtain ⟨order, h⟩ := ih (dropSymbol path s x)
    exact ⟨order, h⟩

def NamesOrdered (s : Snapshot) : Prop := ∀ name, s.fqnOrder.contains name = s.byFqn.contains name

theorem namesOrdered_addSymbol {s : Snapshot} (h : s.NamesOrdered) (path : Path) (x : Symbol) :
    (addSymbol path s x).NamesOrdered := by
  intro name
  simp only [addSymbol, SortedMap.contains_insert, h name, MultiMap.contains_link]

theorem namesOrdered_dropSymbol {s : Snapshot} (h : s.NamesOrdered) (path : Path) (x : Symbol) :
    (dropSymbol path s x).NamesOrdered := by
  intro name
  simp only [dropSymbol]
  by_cases hc : name = x.fqn
  · subst hc
    split
    next hleft => rw [hleft, h, MultiMap.contains_of_contains_unlink hleft]
    next hgone => simp [SortedMap.contains_erase, hgone]
  · have hne : compare name x.fqn ≠ .eq := fun heq => hc (LawfulEqOrd.eq_of_compare heq)
    rw [MultiMap.contains_unlink_of_ne s.byFqn hne, ← h name]
    split
    · rfl
    · simp [SortedMap.contains_erase, hne]

theorem namesOrdered_foldl {step : Snapshot → Symbol → Snapshot}
    (hstep : ∀ s x, s.NamesOrdered → (step s x).NamesOrdered) (symbols : List Symbol)
    {s : Snapshot} (h : s.NamesOrdered) : (symbols.foldl step s).NamesOrdered := by
  induction symbols generalizing s with
  | nil => exact h
  | cons x symbols ih => exact ih (hstep s x h)

theorem foldl_addPackage (path : Path) (names : List String) (s : Snapshot) :
    names.foldl (addPackage path) s =
      { s with
        packages := MultiMap.linkAll s.packages (names.map fun name => (name, path)) } := by
  induction names generalizing s with
  | nil => rfl
  | cons name names ih => exact ih (addPackage path s name)

theorem foldl_dropPackage (path : Path) (names : List String) (s : Snapshot) :
    names.foldl (dropPackage path) s =
      { s with
        packages := MultiMap.unlinkAll s.packages (names.map fun name => (name, path)) } := by
  induction names generalizing s with
  | nil => rfl
  | cons name names ih => exact ih (dropPackage path s name)

theorem foldl_addReference (path : Path) (refs : List Reference) (s : Snapshot) :
    refs.foldl (addReference path) s =
      { s with
        referencing := MultiMap.linkAll s.referencing
          ((refs.map Reference.target).map fun name => (name, path)) } := by
  induction refs generalizing s with
  | nil => rfl
  | cons r refs ih => exact ih (addReference path s r)

theorem foldl_dropReference (path : Path) (refs : List Reference) (s : Snapshot) :
    refs.foldl (dropReference path) s =
      { s with
        referencing := MultiMap.unlinkAll s.referencing
          ((refs.map Reference.target).map fun name => (name, path)) } := by
  induction refs generalizing s with
  | nil => rfl
  | cons r refs ih => exact ih (dropReference path s r)

theorem foldl_addUnresolved (path : Path) (names : List String) (s : Snapshot) :
    names.foldl (addUnresolved path) s =
      { s with
        unresolved := MultiMap.linkAll s.unresolved (names.map fun name => (name, path)) } := by
  induction names generalizing s with
  | nil => rfl
  | cons name names ih => exact ih (addUnresolved path s name)

theorem foldl_dropUnresolved (path : Path) (names : List String) (s : Snapshot) :
    names.foldl (dropUnresolved path) s =
      { s with
        unresolved := MultiMap.unlinkAll s.unresolved (names.map fun name => (name, path)) } := by
  induction names generalizing s with
  | nil => rfl
  | cons name names ih => exact ih (dropUnresolved path s name)

theorem foldl_addEdge (path : Path) (edges : List SupertypeEdge) (s : Snapshot) :
    edges.foldl (addEdge path) s =
      { s with
        subtypes := MultiMap.linkAll s.subtypes
          (edges.map fun e => (e.supertype, ⟨e.subtype, path⟩))
        supertypes := MultiMap.linkAll s.supertypes
          (edges.map fun e => (e.subtype, ⟨e.supertype, path⟩)) } := by
  induction edges generalizing s with
  | nil => rfl
  | cons e edges ih => exact ih (addEdge path s e)

theorem foldl_dropEdge (path : Path) (edges : List SupertypeEdge) (s : Snapshot) :
    edges.foldl (dropEdge path) s =
      { s with
        subtypes := MultiMap.unlinkAll s.subtypes
          (edges.map fun e => (e.supertype, ⟨e.subtype, path⟩))
        supertypes := MultiMap.unlinkAll s.supertypes
          (edges.map fun e => (e.subtype, ⟨e.supertype, path⟩)) } := by
  induction edges generalizing s with
  | nil => rfl
  | cons e edges ih => exact ih (dropEdge path s e)

theorem Exact.insertFile {s : Snapshot} (h : s.Exact) {e : FileEntry}
    (hnew : s.files.get? e.path = none) : (s.insertFile e).Exact := by
  have hnames : (e.symbols.symbols.foldl (addSymbol e.path) s).NamesOrdered :=
    namesOrdered_foldl (fun _ x hx => namesOrdered_addSymbol hx e.path x) _ h.fqnOrder
  obtain ⟨order, hsymbols⟩ := foldl_addSymbol e.path e.symbols.symbols s
  rw [hsymbols] at hnames
  simp only [Snapshot.insertFile, hsymbols, foldl_addPackage, foldl_addReference,
    foldl_addUnresolved, foldl_addEdge]
  exact {
    keyed := h.keyed.insert e
    byFqn := h.byFqn.insert h.keyed hnew
    byName := h.byName.insert h.keyed hnew
    fqnOrder := hnames
    packages := h.packages.insert h.keyed hnew
    referencing := h.referencing.insert h.keyed hnew
    unresolved := h.unresolved.insert h.keyed hnew
    subtypes := h.subtypes.insert h.keyed hnew
    supertypes := h.supertypes.insert h.keyed hnew }

@[simp] theorem files_insertFile (s : Snapshot) (e : FileEntry) :
    (s.insertFile e).files = s.files.insert e.path e := by
  obtain ⟨order, hsymbols⟩ := foldl_addSymbol e.path e.symbols.symbols s
  simp only [insertFile, hsymbols, foldl_addPackage, foldl_addReference, foldl_addUnresolved,
    foldl_addEdge]

theorem Exact.removeFile {s : Snapshot} (h : s.Exact) (path : Path) : (s.removeFile path).Exact := by
  rw [Snapshot.removeFile]
  split
  next => exact h
  next e hold =>
    have hnames : (e.symbols.symbols.foldl (dropSymbol e.path)
        { s with files := s.files.erase path }).NamesOrdered :=
      namesOrdered_foldl (fun _ x hx => namesOrdered_dropSymbol hx e.path x) _ h.fqnOrder
    obtain ⟨order, hsymbols⟩ :=
      foldl_dropSymbol e.path e.symbols.symbols { s with files := s.files.erase path }
    rw [hsymbols] at hnames
    simp only [hsymbols, foldl_dropPackage, foldl_dropReference, foldl_dropUnresolved,
      foldl_dropEdge]
    exact {
      keyed := h.keyed.erase path
      byFqn := h.byFqn.erase h.keyed hold
      byName := h.byName.erase h.keyed hold
      fqnOrder := hnames
      packages := h.packages.erase h.keyed hold
      referencing := h.referencing.erase h.keyed hold
      unresolved := h.unresolved.erase h.keyed hold
      subtypes := h.subtypes.erase h.keyed hold
      supertypes := h.supertypes.erase h.keyed hold }

@[simp] theorem files_removeFile (s : Snapshot) (path : Path) :
    (s.removeFile path).files = s.files.erase path := by
  rw [removeFile]
  split
  next hnone =>
    symm
    apply SortedMap.eq_of_mem_iff
    intro x
    rw [SortedMap.mem_erase_iff]
    refine and_iff_left_of_imp fun hx hc => ?_
    have hin := SortedMap.contains_iff.mpr ⟨x, hx, hc⟩
    rw [SortedMap.get?_eq_none_iff.mp hnone] at hin
    simp at hin
  next e _ =>
    obtain ⟨order, hsymbols⟩ :=
      foldl_dropSymbol e.path e.symbols.symbols { s with files := s.files.erase path }
    simp only [hsymbols, foldl_dropPackage, foldl_dropReference, foldl_dropUnresolved,
      foldl_dropEdge]

end Snapshot

end JavaAtlas
