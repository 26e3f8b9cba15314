import JavaAtlas.Proofs.Symbols.Listing

/-!
# Which declarations are exported

A type is among the symbols of its file exactly if no code stands around its declaration, and a
member only if it stands directly in such a type. Bodies of anonymous classes and of enum constants,
and the blocks of a `switch`, keep the members that stand in them but not the types.
-/

namespace JavaAtlas

set_option autoImplicit false

open Java
open scoped List

namespace Java

variable {text : String} {p q : Place} {t : TypeDecl}

theorem DeclaresType.isCode {node : Tree} (h : DeclaresType text node t) : node.isCode = false := by
  obtain ⟨k, hk, hkind⟩ := h.kind
  exact Tree.isCode_of_not_disowns ((Tree.disowns_of_phrase hk).trans (typeKind?_disowning hkind))

/-- What stands directly in a node that is no code has the same code around it. -/
theorem Place.DirectlyIn.inCode_eq (h : p.DirectlyIn q) (hq : q.node.isCode = false) :
    p.inCode = q.inCode := by
  obtain ⟨inner, own, hpath, hinner, hown⟩ := h
  have hopen : inner.any Tree.isCode = false :=
    List.any_eq_false.mpr fun t ht =>
      Bool.eq_false_iff.mp (Tree.isCode_of_not_disowns (hinner t ht))
  have hbody : own.any Tree.isCode = false := by
    rcases hown with rfl | ⟨body, rfl, hbody⟩
    · rfl
    · rw [List.any_cons, List.any_nil, Tree.isCode_of_isBody hbody, Bool.or_false]
  rw [Place.inCode, hpath, List.any_append, List.any_append, hopen, hbody, Bool.false_or,
    Bool.false_or, Place.path, List.any_cons, hq, Bool.false_or, Place.inCode]

end Java

/-- The symbol stands for the declaration at a place: of a type that is not local, or of a member
that stands directly in one. -/
inductive Exported (text : String) (root : Tree) (u : SourceUnit) (s : Symbol) : Place → Prop
  | type {t : TypeDecl} {p : Place} (inUnit : t ∈ u.types) (visible : t.isLocal = false)
      (declares : DeclaresType text p.node t) (symbol : s.StandsFor (.type t)) :
      Exported text root u s p
  | member {t : TypeDecl} {m : MemberDecl} {p q : Place} (inUnit : t ∈ u.types)
      (visible : t.isLocal = false) (inTree : q ∈ root.places [])
      (declares : DeclaresType text q.node t) (inType : p.DirectlyIn q)
      (declared : m ∈ membersAt text p.node) (symbol : s.StandsFor (.member t m)) :
      Exported text root u s p

def FileSymbols.ExportsFrom (text : String) (root : Tree) (u : SourceUnit) (f : FileSymbols) :
    Prop :=
  ∀ s ∈ f.symbols, ∃ p ∈ root.places [], p.inCode = false ∧ Exported text root u s p

namespace Java

variable {text : String} {root : Tree} {T : Trace} {u : SourceUnit}

/-- Each type has its place, and is visible exactly if no code is around that. -/
theorem Traced.forall₂_sites {seen : List Place} (h : Traced text seen T u) :
    List.Forall₂ (fun t p => DeclaresType text p.node t ∧ t.isLocal = p.inCode) u.types
      (T.types.map Site.place) := by
  refine List.forall₂_iff_get.mpr ⟨by rw [List.length_map, h.length_types], fun i hi hi' => ?_⟩
  have hlt : i < T.types.length := h.length_types ▸ hi
  have hentry := h.entry i _ _ (List.getElem?_eq_getElem hi) (List.getElem?_eq_getElem hlt)
  rw [List.get_eq_getElem, List.get_eq_getElem, List.getElem_map]
  exact ⟨hentry.declares, hentry.isLocal⟩

/-- A visible type stands where there is no code. -/
theorem Traced.place_of_visible {seen : List Place} (h : Traced text seen T u) {t : TypeDecl}
    (ht : t ∈ u.types) (hvisible : t.isLocal = false) :
    ∃ p ∈ seen, p.inCode = false ∧ DeclaresType text p.node t ∧
      ∀ m ∈ t.members, ∃ q ∈ seen, q.DirectlyIn p ∧ m ∈ membersAt text q.node := by
  obtain ⟨i, hi⟩ := List.getElem?_of_mem ht
  obtain ⟨s, hs, hentry⟩ := h.site? hi
  have hseen : s.place ∈ seen :=
    h.seen_types.subset (List.mem_map_of_mem (List.mem_of_getElem? hs))
  obtain ⟨places, hplaces, hmembers, hin⟩ := hentry.members
  refine ⟨s.place, hseen, hentry.isLocal ▸ hvisible, hentry.declares, fun m hm => ?_⟩
  rw [hmembers] at hm
  obtain ⟨q, hq, hm⟩ := List.mem_flatMap.mp hm
  exact ⟨q, hplaces.subset hq, hin q hq, hm⟩

theorem Traced.exportsFrom (h : Traced text (root.places []) T u) {f : FileSymbols}
    (hsymbols : f.symbols = Extraction.declarations u) : f.ExportsFrom text root u := by
  intro s hs
  obtain ⟨d, hd, hsymbol⟩ := Extraction.exists_standsFor_of_mem_declarations
    (SourceUnit.linked_of_traced h) (hsymbols ▸ hs)
  cases d with
  | type t =>
    obtain ⟨ht, hvisible⟩ := Extraction.mem_inventory_type.mp hd
    obtain ⟨p, hp, hcode, hdeclares, -⟩ := h.place_of_visible ht hvisible
    exact ⟨p, hp, hcode, .type ht hvisible hdeclares hsymbol⟩
  | member t m =>
    obtain ⟨⟨ht, hvisible⟩, hm⟩ := Extraction.mem_inventory_member.mp hd
    obtain ⟨p, hp, hcode, hdeclares, hmembers⟩ := h.place_of_visible ht hvisible
    obtain ⟨q, hq, hin, hdeclared⟩ := hmembers m hm
    refine ⟨q, hq, ?_, .member ht hvisible hp hdeclares hin hdeclared hsymbol⟩
    rw [hin.inCode_eq hdeclares.isCode, hcode]

end Java

open Extraction in
/-- A type is exported exactly if no code is around its declaration, and with it at most the members
that stand directly in it. -/
theorem SourceUnit.exported_outsideCode (text : String) (root : Tree) (path : Path)
    (print : Fingerprint) (level : LanguageLevel) (diagnostics : List Diagnostic)
    (ctx : TypeLookup) :
    let u := ofTree text root path print level diagnostics
    (∃ sites, sites <+ root.places [] ∧
      List.Forall₂ (fun t p => DeclaresType text p.node t ∧ t.isLocal = p.inCode) u.types sites) ∧
      (ofSource u).ExportsFrom text root u ∧
      (ofAttributed (u.bindTypes ctx)).ExportsFrom text root u := by
  intro u
  obtain ⟨T, h⟩ := traced_ofTree text root path print level diagnostics
  exact ⟨⟨_, h.seen_types, h.forall₂_sites⟩, h.exportsFrom rfl, h.exportsFrom rfl⟩

/-- The body of an enum constant keeps its field `x` but not its type `B`. -/
example :
    let text := "enum E { X { class B {} int x; } }"
    let phrase (p : Phrase) (field : Option Field) (start stop : Nat) (children : List Tree) :=
      .node { kind := .phrase p, field := field, span := .clamp start stop } children
    let root := phrase .program none 0 34 [
      phrase .enumDeclaration none 0 34 [
        phrase .identifier (some .name) 5 6 [],
        phrase .enumBody (some .body) 7 34 [
          phrase .enumConstant none 9 32 [
            phrase .identifier (some .name) 9 10 [],
            phrase .classBody (some .body) 11 32 [
              phrase .classDeclaration none 13 23 [
                phrase .identifier (some .name) 19 20 [],
                phrase .classBody (some .body) 21 23 []],
              phrase .fieldDeclaration none 24 30 [
                phrase .integralType (some .type) 24 27 [],
                phrase .variableDeclarator (some .declarator) 28 29 [
                  phrase .identifier (some .name) 28 29 []]]]]]]]
    (SourceUnit.ofTree text root ⟨"/E.java"⟩ default {} []).visibleTypes.map (fun t =>
      (t.fqn, t.members.map (·.name))) = [("E", ["X"]), ("E.B", [])] := by
  decide +kernel

end JavaAtlas
