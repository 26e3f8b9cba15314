import JavaAtlas.Index.Hierarchy
import JavaAtlas.Proofs.Index.Graph
import JavaAtlas.Proofs.Symbols.Listing
import JavaAtlas.Proofs.Unit.Origin
import Mathlib

/-!
# The members in scope

A member can be named without a receiver if it belongs to a type around the place or to a supertype
of one. The walk outwards follows names of containers through the index and remembers nothing; it
ends because an extracted symbol has a longer name than its container, whichever of several types of
one name the index finds first. The walk upwards does remember, so it may meet cycles, and it serves
the types around the place before it serves any supertype.
-/

namespace JavaAtlas

set_option autoImplicit false

open Java (Tree Phrase Field)

/-! ## Symbols of syntax trees -/

/-- The symbols of a syntax tree of the file, however spelled, whose names were bound or not. -/
def FileSymbols.OfTree (f : FileSymbols) (path : Path) : Prop :=
  ∃ (text : String) (root : Java.Tree) (spelled : Path) (print : Fingerprint)
    (level : LanguageLevel) (diagnostics : List Diagnostic),
    let u := SourceUnit.ofTree text root spelled print level diagnostics
    compare spelled path = .eq ∧
      (f = Extraction.ofSource u ∨ ∃ ctx, f = Extraction.ofAttributed (u.bindTypes ctx))

/-- What is put in was extracted, and can be numbered in 32 bits. -/
def IndexChange.Extracted : IndexChange → Prop
  | upsert path _ symbols => symbols.OfTree path ∧ symbols.symbols.length ≤ 4294967296
  | remove _ => True
  | clear => True

theorem FileSymbols.OfTree.exists_lists {f : FileSymbols} {path : Path} (h : f.OfTree path) :
    ∃ u : SourceUnit, compare u.path path = .eq ∧ f.Lists u := by
  obtain ⟨text, root, spelled, print, level, diagnostics, hpath, hf⟩ := h
  refine ⟨SourceUnit.ofTree text root spelled print level diagnostics, ?_, ?_⟩
  · rwa [SourceUnit.path_ofTree]
  · have hlinked := SourceUnit.linked_ofTree text root spelled print level diagnostics
    rcases hf with rfl | ⟨ctx, rfl⟩
    · exact hlinked.lists rfl (Extraction.sound_ofSource _)
    · exact hlinked.lists rfl (Extraction.sound_ofAttributed _ ctx)

theorem FileSymbols.Lists.numbered_of_length_le {f : FileSymbols} {u : SourceUnit} (h : f.Lists u)
    (hlength : f.symbols.length ≤ 4294967296) : f.Numbered := by
  apply numbered_of_ordinals
  intro i s hs
  have hi := (List.getElem?_eq_some_iff.mp hs).1
  exact h.numbered i s hs (Nat.lt_of_lt_of_le hi hlength)

namespace IndexChange

theorem Extracted.numbered {change : IndexChange} (h : change.Extracted) : change.Numbered := by
  cases change with
  | upsert path print symbols =>
    obtain ⟨u, -, hlists⟩ := h.1.exists_lists
    exact hlists.numbered_of_length_le h.2
  | remove path => trivial
  | clear => trivial

theorem Extracted.located {change : IndexChange} (h : change.Extracted) : change.Located := by
  cases change with
  | upsert path print symbols =>
    obtain ⟨u, hpath, hlists⟩ := h.1.exists_lists
    intro x hx
    rw [hlists.located x hx]
    exact hpath
  | remove path => trivial
  | clear => trivial

end IndexChange

namespace Snapshot

variable {s : Snapshot}

/-- The container of a symbol is a type of the same file with a shorter name. -/
def Contained (s : Snapshot) : Prop :=
  ∀ e ∈ s.entries, ∀ x ∈ e.symbols.symbols, ∀ c, x.container = some c →
    c.length < x.fqn.length ∧ ∃ t ∈ e.symbols.symbols, t.isType = true ∧ t.fqn = c

theorem contained_applyAll {changes : List IndexChange} (h : ∀ change ∈ changes, change.Extracted) :
    (applyAll {} changes).Contained := by
  intro e he x hx c hc
  obtain ⟨u, -, hlists⟩ := (h _ (put_in_of_mem_entries he)).1.exists_lists
  obtain ⟨hfqn, t, ht, rfl⟩ := hlists.contained x hx c hc
  obtain ⟨hmem, htype⟩ := List.mem_filter.mp ht
  refine ⟨?_, t, hmem, htype, rfl⟩
  rw [hfqn, String.length_append, String.length_append]
  have hdot : ".".length = 1 := rfl
  omega

/-! ## The innermost type -/

/-- Of the types of the file at the offset none is shorter than `t`, and `t` is the first of the
equally short ones. -/
structure Innermost (s : Snapshot) (path : Path) (offset : Nat) (t : Symbol) : Prop where
  isType : t.isType = true
  encloses : t.span.encloses offset = true
  least : ∀ u ∈ s.symbolsIn path, u.isType = true → u.span.encloses offset = true →
    t.span.length ≤ u.span.length
  first : ∃ before after, s.symbolsIn path = before ++ t :: after ∧
    ∀ u ∈ before, u.isType = true → u.span.encloses offset = true → t.span.length < u.span.length

def closer (best : Option Symbol) (t : Symbol) : Option Symbol :=
  match best with
  | none => some t
  | some b => if t.span.length < b.span.length then some t else some b

theorem length_le_of_split {before after : List Symbol} {t : Symbol}
    (hbefore : ∀ u ∈ before, t.span.length < u.span.length)
    (hafter : ∀ u ∈ after, t.span.length ≤ u.span.length) :
    ∀ u ∈ before ++ t :: after, t.span.length ≤ u.span.length := by
  intro u hu
  rcases List.mem_append.mp hu with hu | hu
  · exact Nat.le_of_lt (hbefore u hu)
  · rcases List.mem_cons.mp hu with rfl | hu
    · exact Nat.le_refl _
    · exact hafter u hu

theorem foldl_closer (ts : List Symbol) (b : Symbol) :
    ∃ before t after, b :: ts = before ++ t :: after ∧ ts.foldl closer (some b) = some t ∧
      (∀ u ∈ before, t.span.length < u.span.length) ∧
      ∀ u ∈ after, t.span.length ≤ u.span.length := by
  induction ts generalizing b with
  | nil => exact ⟨[], b, [], rfl, rfl, List.forall_mem_nil _, List.forall_mem_nil _⟩
  | cons a ts ih =>
    rw [List.foldl_cons, closer]
    by_cases hshorter : a.span.length < b.span.length
    · obtain ⟨before, t, after, hsplit, hfold, hbefore, hafter⟩ := ih a
      have ha : t.span.length ≤ a.span.length :=
        length_le_of_split hbefore hafter a (hsplit ▸ List.mem_cons_self)
      refine ⟨b :: before, t, after, congrArg (b :: ·) hsplit, ?_, ?_, hafter⟩
      · rw [if_pos hshorter]
        exact hfold
      · exact List.forall_mem_cons.mpr ⟨Nat.lt_of_le_of_lt ha hshorter, hbefore⟩
    · obtain ⟨before, t, after, hsplit, hfold, hbefore, hafter⟩ := ih b
      rw [if_neg hshorter]
      cases before with
      | nil =>
        obtain ⟨rfl, rfl⟩ := List.cons.inj hsplit
        exact ⟨[], b, a :: ts, rfl, hfold, hbefore,
          List.forall_mem_cons.mpr ⟨Nat.not_lt.mp hshorter, hafter⟩⟩
      | cons c before =>
        obtain ⟨rfl, rfl⟩ := List.cons.inj hsplit
        obtain ⟨hb, hrest⟩ := List.forall_mem_cons.mp hbefore
        refine ⟨b :: a :: before, t, after, rfl, hfold, ?_, hafter⟩
        exact List.forall_mem_cons.mpr ⟨hb, List.forall_mem_cons.mpr ⟨by omega, hrest⟩⟩

theorem enclosingType?_eq (s : Snapshot) (path : Path) (offset : Nat) :
    s.enclosingType? path offset =
      ((s.symbolsIn path).filter fun t => t.isType && t.span.encloses offset).foldl closer none := rfl

theorem innermost_of_enclosingType? {path : Path} {offset : Nat} {t : Symbol}
    (h : s.enclosingType? path offset = some t) : s.Innermost path offset t := by
  rw [enclosingType?_eq] at h
  generalize hts : ((s.symbolsIn path).filter fun t => t.isType && t.span.encloses offset) = ts at h
  have hmem {u : Symbol} (hu : u ∈ s.symbolsIn path) (htype : u.isType = true)
      (hencloses : u.span.encloses offset = true) : u ∈ ts := by
    rw [← hts]
    exact List.mem_filter.mpr ⟨hu, Bool.and_eq_true_iff.mpr ⟨htype, hencloses⟩⟩
  cases ts with
  | nil => cases h
  | cons b rest =>
    obtain ⟨before, found, after, hsplit, hfold, hbefore, hafter⟩ := foldl_closer rest b
    obtain rfl : found = t := Option.some.inj (hfold.symm.trans h)
    rw [hsplit] at hts hmem
    -- the types in front of `found` in the file are those in front of it among the ones at the offset
    obtain ⟨front, back, hfile, hfront, hback⟩ := List.filter_eq_append_iff.mp hts
    obtain ⟨skipped, rest', rfl, hskipped, hkept, -⟩ := List.filter_eq_cons_iff.mp hback
    obtain ⟨htype, hencloses⟩ := Bool.and_eq_true_iff.mp hkept
    refine ⟨htype, hencloses, ?_, front ++ skipped, rest', ?_, ?_⟩
    · intro u hu hu' hu''
      exact length_le_of_split hbefore hafter u (hmem hu hu' hu'')
    · rw [hfile, List.append_assoc]
    · intro u hu hu' hu''
      rcases List.mem_append.mp hu with hu | hu
      · apply hbefore u
        rw [← hfront]
        exact List.mem_filter.mpr ⟨hu, Bool.and_eq_true_iff.mpr ⟨hu', hu''⟩⟩
      · exact absurd (Bool.and_eq_true_iff.mpr ⟨hu', hu''⟩) (hskipped u hu)

theorem not_encloses_of_enclosingType? {path : Path} {offset : Nat}
    (h : s.enclosingType? path offset = none) :
    ∀ t ∈ s.symbolsIn path, t.isType = true → t.span.encloses offset = false := by
  rw [enclosingType?_eq] at h
  generalize hts : ((s.symbolsIn path).filter fun t => t.isType && t.span.encloses offset) = ts at h
  cases ts with
  | nil =>
    intro t ht htype
    have hnot := List.filter_eq_nil_iff.mp hts t ht
    rwa [htype, Bool.true_and, Bool.not_eq_true] at hnot
  | cons b rest =>
    obtain ⟨-, found, -, -, hfold, -⟩ := foldl_closer rest b
    rw [List.foldl_cons, closer, hfold] at h
    cases h

/-! ## Outwards -/

def firstType? (s : Snapshot) (fqn : String) : Option Symbol :=
  s.allSymbols.find? fun t => t.isType && t.fqn == fqn

/-- From a name to the container of the first type that has it, and so on until there is none. -/
inductive Outward (s : Snapshot) : String → List String → Prop
  | outermost {fqn : String} : (s.firstType? fqn).bind (·.container) = none → Outward s fqn [fqn]
  | inside {fqn outer : String} {chain : List String} :
      (s.firstType? fqn).bind (·.container) = some outer → Outward s outer chain →
      Outward s fqn (fqn :: chain)

theorem Exact.find?_symbolsByFqn (h : s.Exact) (hnumbered : s.Numbered) (fqn : String) :
    (s.symbolsByFqn fqn).find? Symbol.isType = s.firstType? fqn := by
  rw [h.symbolsByFqn_eq hnumbered, List.find?_filter, firstType?]
  simp only [Bool.decide_and, Bool.decide_eq_true, Bool.and_comm]

theorem Contained.length_lt (h : s.Contained) {fqn outer : String}
    (houter : (s.firstType? fqn).bind (·.container) = some outer) : outer.length < fqn.length := by
  obtain ⟨t, ht, hcontainer⟩ := Option.bind_eq_some_iff.mp houter
  have hname := List.find?_some ht
  rw [Bool.and_eq_true, beq_iff_eq] at hname
  obtain ⟨e, he, hmem⟩ := (mem_allSymbols_iff t).mp (List.mem_of_find?_eq_some ht)
  rw [← hname.2]
  exact (h e he t hmem outer hcontainer).1

/-- Names get shorter on the way out, so a walk of as many steps as the name is long arrives. -/
theorem Exact.outward_containerChain (h : s.Exact) (hnumbered : s.Numbered)
    (hcontained : s.Contained) {fuel : Nat} {fqn : String} (hfuel : fqn.length < fuel) :
    s.Outward fqn (s.containerChain fuel fqn) := by
  induction fuel generalizing fqn with
  | zero => exact absurd hfuel (Nat.not_lt_zero _)
  | succ fuel ih =>
    rw [containerChain, h.find?_symbolsByFqn hnumbered]
    cases houter : (s.firstType? fqn).bind (·.container) with
    | none => exact .outermost houter
    | some outer =>
      have hshorter := hcontained.length_lt houter
      exact .inside houter (ih (by omega))

namespace Outward

variable {fqn : String} {chain : List String}

theorem length_le (h : s.Outward fqn chain) (hcontained : s.Contained) :
    ∀ c ∈ chain, c.length ≤ fqn.length := by
  induction h with
  | outermost _ => simp
  | inside houter _ ih =>
    rw [List.forall_mem_cons]
    refine ⟨Nat.le_refl _, fun c hc => ?_⟩
    exact Nat.le_trans (ih c hc) (Nat.le_of_lt (hcontained.length_lt houter))

theorem shorter (h : s.Outward fqn chain) (hcontained : s.Contained) :
    chain.Pairwise fun c outer => outer.length < c.length := by
  induction h with
  | outermost _ => simp
  | inside houter hrest ih =>
    refine List.pairwise_cons.mpr ⟨fun c hc => ?_, ih⟩
    exact Nat.lt_of_le_of_lt (hrest.length_le hcontained c hc) (hcontained.length_lt houter)

theorem nodup (h : s.Outward fqn chain) (hcontained : s.Contained) : chain.Nodup := by
  refine (h.shorter hcontained).imp ?_
  rintro c _ hlt rfl
  exact Nat.lt_irrefl _ hlt

end Outward

/-! ## Upwards -/

/-- `n` edges lead from a type of the chain up to this one. -/
inductive Above (s : Snapshot) (chain : List String) : Nat → String → Prop
  | own {t : String} : t ∈ chain → Above s chain 0 t
  | further {n : Nat} {t f : String} : Above s chain n t → s.Extends t f → Above s chain (n + 1) f

/-- The owners on the way up from a chain. -/
structure Visits (s : Snapshot) (chain owners : List String) : Prop where
  /-- A queue of the chain that grows by supertypes ends when it has served these. -/
  served : Serves s.supertypesOf [] chain owners
  once : owners.Nodup
  mem_iff : ∀ o, o ∈ owners ↔ ∃ n, s.Above chain n o
  chainFirst : chain <+: owners
  nearer : owners.Pairwise fun o p => ∃ m, s.Above chain m o ∧ ∀ n, s.Above chain n p → m ≤ n

theorem Exact.arrives_supertypes_iff (h : s.Exact) (chain : List String) (n : Nat) (o : String) :
    Arrives s.supertypesOf chain n o ↔ s.Above chain n o := by
  induction n generalizing o with
  | zero =>
    rw [Arrives]
    constructor
    · exact .own
    · rintro (hown | _)
      exact hown
  | succ n ih =>
    simp only [Arrives, ih, h.mem_supertypesOf_iff]
    constructor
    · rintro ⟨t, ht, hextends⟩
      exact .further ht hextends
    · rintro (_ | ⟨ht, hextends⟩)
      exact ⟨_, ht, hextends⟩

theorem Exact.confined_supertypes (h : s.Exact) (chain : List String) :
    Confined s.supertypesOf
      (chain ++ (s.entries.flatMap fun e => e.symbols.supertypes).map (·.supertype)) where
  eq_of_beq _ _ _ _ hab := eq_of_beq hab
  closed t _ := by
    intro f hf
    obtain ⟨e, he, edge, hedge, -, rfl⟩ := (h.mem_supertypesOf_iff t f).mp hf
    refine List.mem_append_right _ (List.mem_map.mpr ⟨edge, ?_, rfl⟩)
    exact List.mem_flatMap.mpr ⟨e, he, hedge⟩

theorem Exact.visits_upward (h : s.Exact) {chain : List String} (hnodup : chain.Nodup) :
    s.Visits chain (s.upward chain) := by
  have hstart : ∀ t ∈ chain,
      t ∈ chain ++ (s.entries.flatMap fun e => e.symbols.supertypes).map (·.supertype) :=
    fun t ht => List.mem_append_left _ ht
  have hbound : (chain ++ (s.entries.flatMap fun e => e.symbols.supertypes).map
      (·.supertype)).length < s.edgeCount + chain.length + 1 := by
    rw [List.length_append, List.length_map, edgeCount]
    omega
  have hserved : Serves s.supertypesOf [] chain (s.upward chain) :=
    (h.confined_supertypes chain).serves_reachable hstart hbound
  have hexplores : Explores s.supertypesOf chain [] (s.upward chain) :=
    (h.confined_supertypes chain).explores_reachable hstart hbound
  refine ⟨hserved, hexplores.nodup, fun o => ?_, ?_, ?_⟩
  · simp only [← h.arrives_supertypes_iff]
    constructor
    · exact hexplores.arrives o
    · rintro ⟨n, hn⟩
      exact (hexplores.complete n o hn).resolve_left List.not_mem_nil
  · have hqueue : Serves s.supertypesOf [] (chain ++ []) (s.upward chain) := by
      rwa [List.append_nil]
    obtain ⟨rest, hrest⟩ := hqueue.exists_append hnodup fun t _ => List.not_mem_nil
    exact ⟨rest, hrest.symm⟩
  · simp only [← h.arrives_supertypes_iff]
    exact hexplores.nearer

/-! ## Members -/

/-- The members of a type are the symbols below its name that are no types. -/
theorem Exact.lists_membersOf_of_contained (h : s.Exact) (hnumbered : s.Numbered)
    (hlocated : s.Located) (hcontained : s.Contained) (name : String) :
    s.Lists (fun m => m.isType = false ∧ m.container = some name) Symbol.byPlace
      (s.membersOf name) := by
  have hlists := h.lists_membersOf hnumbered hlocated name
  refine ⟨fun m => ?_, hlists.once, hlists.sorted⟩
  rw [hlists.mem_iff, IsMember]
  constructor
  · rintro ⟨hm, hnot, hcontainer, -⟩
    exact ⟨hm, hnot, hcontainer⟩
  · rintro ⟨hm, hnot, hcontainer⟩
    obtain ⟨e, he, hme⟩ := (mem_allSymbols_iff m).mp hm
    exact ⟨hm, hnot, hcontainer, e, he, hme, (hcontained e he m hme name hcontainer).2⟩

theorem nodup_flatMap_membersOf {owners : List String} (honce : owners.Nodup)
    (hlists : ∀ o, s.Lists (fun m => m.isType = false ∧ m.container = some o) Symbol.byPlace
      (s.membersOf o)) : (owners.flatMap s.membersOf).Nodup := by
  refine List.nodup_flatMap.mpr ⟨fun o _ => (hlists o).once, honce.imp fun {o p} hne => ?_⟩
  intro m hm hm'
  have ho := (((hlists o).mem_iff m).mp hm).2.2
  have hp := (((hlists p).mem_iff m).mp hm').2.2
  exact hne (Option.some.inj (ho.symm.trans hp))

/-- Whatever was extracted into the index, and whatever cycles, repeated names and unknown
supertypes there are: outside all types no member is in scope; elsewhere the walks outwards and
upwards end, the owners are the types around the offset from inside out and then their supertypes,
the nearest first and each once, and each gives all its members, once, and nothing else. -/
theorem members_in_scope {changes : List IndexChange}
    (hextracted : ∀ change ∈ changes, change.Extracted) (path : Path) (offset : Nat) :
    let s := applyAll {} changes
    let members := s.visibleMembers path offset
    (s.enclosingType? path offset = none →
      (∀ t ∈ s.symbolsIn path, t.isType = true → t.span.encloses offset = false) ∧ members = []) ∧
    ∀ t, s.enclosingType? path offset = some t →
      s.Innermost path offset t ∧ ∃ chain owners, s.Outward t.fqn chain ∧ s.Visits chain owners ∧
        members = owners.flatMap s.membersOf ∧ members.Nodup ∧
        (∀ o ∈ owners, s.Lists (fun m => m.isType = false ∧ m.container = some o) Symbol.byPlace
          (s.membersOf o)) ∧
        ∀ m, m ∈ members ↔ m ∈ s.allSymbols ∧ m.isType = false ∧
          ∃ o ∈ owners, m.container = some o := by
  intro s members
  have h : s.Exact := (exact_of_empty 0).applyAll changes
  have hnumbered : s.Numbered := numbered_applyAll fun change hc => (hextracted change hc).numbered
  have hlocated : s.Located := located_applyAll fun change hc => (hextracted change hc).located
  have hcontained : s.Contained := contained_applyAll hextracted
  have hlists := h.lists_membersOf_of_contained hnumbered hlocated hcontained
  constructor
  · intro hnone
    refine ⟨not_encloses_of_enclosingType? hnone, ?_⟩
    show s.visibleMembers path offset = []
    rw [visibleMembers, hnone]
  · intro t ht
    have houtward : s.Outward t.fqn (s.containerChain (t.fqn.length + 1) t.fqn) :=
      h.outward_containerChain hnumbered hcontained (Nat.lt_succ_self _)
    have hvisits := h.visits_upward (houtward.nodup hcontained)
    have hmembers : members =
        (s.upward (s.containerChain (t.fqn.length + 1) t.fqn)).flatMap s.membersOf := by
      show s.visibleMembers path offset = _
      rw [visibleMembers, ht]
      rfl
    refine ⟨innermost_of_enclosingType? ht, _, _, houtward, hvisits, hmembers, ?_,
      fun o _ => hlists o, fun m => ?_⟩
    · rw [hmembers]
      exact nodup_flatMap_membersOf hvisits.once hlists
    · rw [hmembers, List.mem_flatMap]
      simp only [(hlists _).mem_iff]
      constructor
      · rintro ⟨o, ho, hm, hnot, hcontainer⟩
        exact ⟨hm, hnot, o, ho, hcontainer⟩
      · rintro ⟨hm, hnot, o, ho, hcontainer⟩
        exact ⟨o, ho, hm, hnot, hcontainer⟩

/-- Two classes extend each other, the first is declared twice, and a class in it extends one that is
not declared. -/
def entangledText : String :=
  "class A extends B { class C extends Z {} } class B extends A { int y; } class A { int x; }"

def entangledTree : Tree :=
  let phrase (p : Phrase) (field : Option Field) (start stop : Nat) (children : List Tree) : Tree :=
    .node { kind := .phrase p, field := field, span := .clamp start stop } children
  let name (start : Nat) : Tree := phrase .identifier (some .name) start (start + 1) []
  let superclass (start : Nat) : Tree :=
    phrase .superclass (some .superclass) start (start + 9) [
      phrase .typeIdentifier none (start + 8) (start + 9) []]
  let field (start : Nat) : Tree :=
    phrase .fieldDeclaration none start (start + 6) [
      phrase .integralType (some .type) start (start + 3) [],
      phrase .variableDeclarator (some .declarator) (start + 4) (start + 5) [name (start + 4)]]
  phrase .program none 0 90 [
    phrase .classDeclaration none 0 42 [name 6, superclass 8,
      phrase .classBody (some .body) 18 42 [
        phrase .classDeclaration none 20 40 [name 26, superclass 28,
          phrase .classBody (some .body) 38 40 []]]],
    phrase .classDeclaration none 43 71 [name 49, superclass 51,
      phrase .classBody (some .body) 61 71 [field 63]],
    phrase .classDeclaration none 72 90 [name 78,
      phrase .classBody (some .body) 80 90 [field 82]]]

def entangled : FileSymbols :=
  Extraction.ofSource (SourceUnit.ofTree entangledText entangledTree ⟨"/A.java"⟩ default {} [])

theorem members_in_scope_entangled :
    let changes := [.upsert ⟨"/A.java"⟩ default entangled]
    (∀ change ∈ changes, change.Extracted) ∧
      let s := applyAll {} changes
      ∃ t chain owners, s.Innermost ⟨"/A.java"⟩ 39 t ∧ s.Outward t.fqn chain ∧ s.Visits chain owners ∧
        s.visibleMembers ⟨"/A.java"⟩ 39 = owners.flatMap s.membersOf ∧
        (s.visibleMembers ⟨"/A.java"⟩ 39).map (·.fqn) = ["A.x", "B.y"] := by
  intro changes
  have hlength : entangled.symbols.length = 6 := by cbv
  have hextracted : ∀ change ∈ changes, change.Extracted := by
    intro change hchange
    obtain rfl := List.mem_singleton.mp hchange
    refine ⟨⟨entangledText, entangledTree, ⟨"/A.java"⟩, default, {}, [], ?_, Or.inl rfl⟩, ?_⟩
    · exact Std.ReflCmp.compare_self
    · rw [hlength]
      decide
  refine ⟨hextracted, ?_⟩
  intro s
  have h := members_in_scope hextracted ⟨"/A.java"⟩ 39
  have hsome : (s.enclosingType? ⟨"/A.java"⟩ 39).isSome = true := by cbv
  obtain ⟨t, ht⟩ := Option.isSome_iff_exists.mp hsome
  obtain ⟨hinnermost, chain, owners, houtward, hvisits, hmembers, -⟩ := h.2 t ht
  exact ⟨t, chain, owners, hinnermost, houtward, hvisits, hmembers, by cbv⟩

end Snapshot

end JavaAtlas
