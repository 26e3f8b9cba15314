import JavaAtlas.Proofs.Symbols.Api
import JavaAtlas.Proofs.Unit.WellFormed
import Mathlib.Data.List.Forall2

/-!
# The list of declarations of a file

The symbols of a unit list every visible type and every member of one, each once, in the order of
their names in the text, and are numbered by position. Whether the names of the file are bound makes
no difference to them.
-/

namespace JavaAtlas

set_option autoImplicit false

inductive Declaration
  | type (t : TypeDecl)
  | member (t : TypeDecl) (m : MemberDecl)

/-- The types that are not local, each followed by its members. -/
def SourceUnit.inventory (u : SourceUnit) : List Declaration :=
  (u.types.filter fun t => !t.isLocal).flatMap fun t => .type t :: t.members.map (.member t)

def Symbol.StandsFor (s : Symbol) : Declaration → Prop
  | .type t =>
    s.kind = .type ∧ s.typeKind = some t.kind ∧ s.fqn = t.fqn ∧ s.name = t.name ∧
      s.span = t.span ∧ s.nameSpan = t.nameSpan ∧ s.signature = t.signature ∧
      (s.container = none ↔ t.parent = none)
  | .member t m =>
    s.kind = m.kind.symbolKind ∧ s.typeKind = none ∧ s.name = m.name ∧ s.span = m.span ∧
      s.nameSpan = m.nameSpan ∧ s.signature = m.signature ∧ s.container = some t.fqn

def Symbol.unnumbered (s : Symbol) : Symbol := { s with ordinal := 0 }

theorem Symbol.standsFor_unnumbered {s : Symbol} {d : Declaration} :
    s.unnumbered.StandsFor d ↔ s.StandsFor d := by
  cases d <;> exact Iff.rfl

namespace Extraction

variable {u : SourceUnit} {t : TypeDecl} {m : MemberDecl} {d : Declaration} {s : Symbol}

def symbolOf (u : SourceUnit) : Declaration → Symbol
  | .type t => typeSymbol u t
  | .member t m => memberSymbol u t m

theorem mem_inventory_type : .type t ∈ u.inventory ↔ t ∈ u.types ∧ t.isLocal = false := by
  simp [SourceUnit.inventory]

theorem mem_inventory_member :
    .member t m ∈ u.inventory ↔ (t ∈ u.types ∧ t.isLocal = false) ∧ m ∈ t.members := by
  simp [SourceUnit.inventory]

theorem flatMap_symbolsOf (u : SourceUnit) :
    u.visibleTypes.flatMap (symbolsOf u) = u.inventory.map (symbolOf u) := by
  rw [SourceUnit.inventory, List.map_flatMap]
  refine List.flatMap_congr fun t _ => ?_
  rw [symbolsOf, List.map_cons, List.map_map]
  rfl

theorem unnumbered_symbolOf (u : SourceUnit) (d : Declaration) :
    (symbolOf u d).unnumbered = symbolOf u d := by
  cases d <;> rfl

/-- But for their numbers the symbols are those of the declarations by position. -/
theorem exists_perm_inventory (u : SourceUnit) : ∃ ds : List Declaration, ds.Perm u.inventory ∧
    (declarations u).map Symbol.unnumbered = ds.map (symbolOf u) ∧
    (ds.map (symbolOf u)).Pairwise fun a b => a.nameSpan.start ≤ b.nameSpan.start := by
  let before (a b : Symbol) : Bool := a.nameSpan.start ≤ b.nameSpan.start
  have hsorted : (u.inventory.mergeSort fun a b => before (symbolOf u a) (symbolOf u b)).map
      (symbolOf u) = (u.inventory.map (symbolOf u)).mergeSort before :=
    List.map_mergeSort fun _ _ _ _ => rfl
  refine ⟨u.inventory.mergeSort fun a b => before (symbolOf u a) (symbolOf u b),
    List.mergeSort_perm _ _, ?_, ?_⟩
  · rw [hsorted, declarations, List.map_map, flatMap_symbolsOf]
    refine (List.map_congr_left fun e he => ?_).trans (List.zipIdx_map_fst 0 _)
    have hmem := List.mem_mergeSort.mp (List.fst_mem_of_mem_zipIdx he)
    obtain ⟨d, -, hd⟩ := List.mem_map.mp hmem
    rw [← hd]
    exact (congrArg Symbol.unnumbered hd.symm).trans (unnumbered_symbolOf u d)
  · rw [hsorted]
    refine (List.pairwise_mergeSort (fun a b c hab hbc => ?_) (fun a b => ?_) _).imp
      of_decide_eq_true
    · exact decide_eq_true (Nat.le_trans (of_decide_eq_true hab) (of_decide_eq_true hbc))
    · rw [Bool.or_eq_true, decide_eq_true_iff, decide_eq_true_iff]
      exact Nat.le_total _ _

theorem ordered_declarations (u : SourceUnit) :
    (declarations u).Pairwise fun a b => a.nameSpan.start ≤ b.nameSpan.start := by
  obtain ⟨ds, -, hsymbols, hordered⟩ := exists_perm_inventory u
  rw [← hsymbols, List.pairwise_map] at hordered
  exact hordered

theorem exists_of_mem_declarations (h : s ∈ declarations u) :
    ∃ d ∈ u.inventory, s.unnumbered = symbolOf u d := by
  obtain ⟨ds, hperm, hsymbols, -⟩ := exists_perm_inventory u
  have hmem : s.unnumbered ∈ ds.map (symbolOf u) := hsymbols ▸ List.mem_map_of_mem h
  obtain ⟨d, hd, heq⟩ := List.mem_map.mp hmem
  exact ⟨d, hperm.mem_iff.mp hd, heq.symm⟩

/-- The container of a visible type is the type around it, which is visible too. -/
theorem container_typeSymbol (h : u.Linked) (ht : t ∈ u.types) (hvisible : t.isLocal = false) :
    (t.parent = none ∧ (typeSymbol u t).container = none) ∨
      (t.parent ≠ none ∧ ∃ o ∈ u.visibleTypes, (typeSymbol u t).container = some o.fqn ∧
        t.fqn = o.fqn ++ "." ++ t.name) := by
  cases hparent : t.parent with
  | none => exact Or.inl ⟨rfl, by rw [typeSymbol, hparent, Option.bind_none]⟩
  | some p =>
    obtain ⟨i, hi⟩ := List.getElem?_of_mem ht
    obtain ⟨-, o, ho, hlocal, hfqn⟩ := h.parent i t hi p hparent
    have hmem : o ∈ u.types := List.mem_of_getElem? ho
    refine Or.inr ⟨Option.some_ne_none p, o, List.mem_filter.mpr ⟨hmem, ?_⟩, ?_, hfqn⟩
    · rw [Bool.not_eq_true']
      exact Bool.eq_false_iff.mpr fun hoLocal => Bool.eq_false_iff.mp hvisible (hlocal hoLocal)
    · rw [typeSymbol, hparent, Option.bind_some, ho, Option.map_some]

theorem standsFor_symbolOf (h : u.Linked) (hd : d ∈ u.inventory) : (symbolOf u d).StandsFor d := by
  cases d with
  | member t m => exact ⟨rfl, rfl, rfl, rfl, rfl, rfl, rfl⟩
  | type t =>
    obtain ⟨ht, hvisible⟩ := mem_inventory_type.mp hd
    refine ⟨rfl, rfl, rfl, rfl, rfl, rfl, rfl, ?_⟩
    rcases container_typeSymbol h ht hvisible with ⟨hparent, hnone⟩ | ⟨hparent, o, -, hsome, -⟩
    · exact iff_of_true hnone hparent
    · refine iff_of_false (fun hnone => ?_) hparent
      rw [symbolOf, hsome] at hnone
      cases hnone

theorem exists_standsFor_of_mem_declarations (h : u.Linked) (hs : s ∈ declarations u) :
    ∃ d ∈ u.inventory, s.StandsFor d := by
  obtain ⟨d, hd, hsymbol⟩ := exists_of_mem_declarations hs
  exact ⟨d, hd, Symbol.standsFor_unnumbered.mp (hsymbol ▸ standsFor_symbolOf h hd)⟩

/-- Under the container of a symbol its full name goes on with its own. -/
theorem contained_of_container (h : u.Linked) (hs : s ∈ declarations u) {c : String}
    (hc : s.container = some c) :
    s.fqn = c ++ "." ++ s.name ∧ ∃ o ∈ u.visibleTypes, o.fqn = c := by
  have hc : s.unnumbered.container = some c := hc
  have hfqn : s.fqn = s.unnumbered.fqn := rfl
  have hname : s.name = s.unnumbered.name := rfl
  obtain ⟨d, hd, hsymbol⟩ := exists_of_mem_declarations hs
  rw [hsymbol] at hc hfqn hname
  rw [hfqn, hname]
  cases d with
  | type t =>
    obtain ⟨ht, hvisible⟩ := mem_inventory_type.mp hd
    rcases container_typeSymbol h ht hvisible with ⟨-, hnone⟩ | ⟨-, o, ho, hcontainer, hjoin⟩
    · rw [symbolOf, hnone] at hc
      cases hc
    · obtain rfl := Option.some.inj (hcontainer.symm.trans hc)
      exact ⟨hjoin, o, ho, rfl⟩
  | member t m =>
    obtain rfl := Option.some.inj hc
    obtain ⟨⟨ht, hvisible⟩, -⟩ := mem_inventory_member.mp hd
    exact ⟨rfl, t, List.mem_filter.mpr ⟨ht, by rw [hvisible]; rfl⟩, rfl⟩

end Extraction

/-- The symbols of a file stand for the visible declarations of the unit, each for one of them, in
the order of the text, numbered, under the types that declare them and with the path of the unit. -/
structure FileSymbols.Lists (f : FileSymbols) (u : SourceUnit) : Prop where
  declared : ∃ ds : List Declaration, ds.Perm u.inventory ∧
    List.Forall₂ Symbol.StandsFor f.symbols ds
  numbered : ∀ (i : Nat) (s : Symbol), f.symbols[i]? = some s → i < 4294967296 → s.ordinal.toNat = i
  ordered : f.symbols.Pairwise fun a b => a.nameSpan.start ≤ b.nameSpan.start
  located : f.Located u.path
  contained : ∀ s ∈ f.symbols, ∀ c, s.container = some c →
    s.fqn = c ++ "." ++ s.name ∧ ∃ o ∈ f.types, o.fqn = c
  resolved : ∀ e ∈ f.supertypes, e.resolved = true → e.supertype ∈ f.references.map (·.target)

open Extraction in
/-- Sound links are enough for a sound list. -/
theorem SourceUnit.Linked.lists {u : SourceUnit} (h : u.Linked) {f : FileSymbols}
    (hsymbols : f.symbols = declarations u) (hsound : f.Sound) : f.Lists u where
  declared := by
    obtain ⟨ds, hperm, heq, -⟩ := exists_perm_inventory u
    have hunnumbered :
        List.Forall₂ Symbol.StandsFor ((declarations u).map Symbol.unnumbered) ds := by
      rw [heq, List.forall₂_map_left_iff, List.forall₂_same]
      exact fun d hd => standsFor_symbolOf h (hperm.mem_iff.mp hd)
    exact ⟨ds, hperm, hsymbols ▸ (List.forall₂_map_left_iff.mp hunnumbered).imp
      fun _ _ => Symbol.standsFor_unnumbered.mp⟩
  numbered i s hs hi := by rw [hsound.numbered i s hs, toNat_ordinalOf hi]
  ordered := hsymbols ▸ ordered_declarations u
  located s hs := FileSymbols.located_declarations u s (hsymbols ▸ hs)
  contained s hs c hc := by
    obtain ⟨hfqn, o, ho, rfl⟩ := contained_of_container h (hsymbols ▸ hs) hc
    refine ⟨hfqn, List.mem_map.mp ?_⟩
    rw [FileSymbols.types, hsymbols]
    exact mem_declarations_of_visible u ho
  resolved := hsound.resolved

open Extraction in
/-- Bound or not, the symbols of a unit list its declarations, and what the binding leaves alone is
the same. -/
theorem SourceUnit.lists_ofTree (text : String) (root : Java.Tree) (path : Path)
    (print : Fingerprint) (level : LanguageLevel) (diagnostics : List Diagnostic)
    (ctx : TypeLookup) :
    let u := ofTree text root path print level diagnostics
    let bare := ofSource u
    let bound := ofAttributed (u.bindTypes ctx)
    bare.Lists u ∧ bound.Lists u ∧ bound.symbols = bare.symbols ∧ bound.calls = bare.calls ∧
      bound.scopes = bare.scopes ∧ bound.package = bare.package := by
  intro u bare bound
  have hlinked : u.Linked := linked_ofTree text root path print level diagnostics
  exact ⟨hlinked.lists rfl (sound_ofSource u), hlinked.lists rfl (sound_ofAttributed u ctx),
    rfl, rfl, rfl, rfl⟩

end JavaAtlas
