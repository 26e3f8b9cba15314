import JavaAtlas.Proofs.Unit.Visits

/-!
# Units made from trees are well formed

Every link of a unit leads to an entry that is there, the entry of a type agrees with that of the
type around it, and in a nested tree the range at one end of a link lies within that at the other.
So every way outwards ends at a type with nothing around it.
-/

namespace JavaAtlas

set_option autoImplicit false

open Java

namespace SourceUnit

/-- Every link leads to an entry, and a type agrees with the one around it. -/
structure Linked (u : SourceUnit) : Prop where
  parent : ∀ (i : Nat) (t : TypeDecl), u.types[i]? = some t → ∀ p, t.parent = some p →
    p < i ∧ ∃ o, u.types[p]? = some o ∧ (o.isLocal = true → t.isLocal = true) ∧
      t.fqn = o.fqn ++ "." ++ t.name
  supertype : ∀ t ∈ u.types, ∀ k ∈ t.supertypes, k < u.typeRefs.length
  ref : ∀ r ∈ u.typeRefs, ∀ i, r.enclosing = some i → i < u.types.length
  call : ∀ c ∈ u.calls, ∀ i, c.enclosing = some i → i < u.types.length

/-- Members, nested types and the references to supertypes lie within their type. -/
structure Contained (R : SpanRel) (u : SourceUnit) : Prop where
  parent : ∀ t ∈ u.types, ∀ p o, t.parent = some p → u.types[p]? = some o → R o.span t.span
  member : ∀ t ∈ u.types, ∀ m ∈ t.members, R t.span m.span
  supertype : ∀ t ∈ u.types, ∀ k ∈ t.supertypes, ∀ r, u.typeRefs[k]? = some r → R t.span r.span

/-- A way outwards on which every type is there, up to one with nothing around it. -/
inductive Walk (u : SourceUnit) : Option Nat → List (Nat × TypeDecl) → Prop
  | outside : Walk u none []
  | step {i : Nat} {t : TypeDecl} {rest : List (Nat × TypeDecl)} (ht : u.types[i]? = some t)
      (hrest : Walk u t.parent rest) : Walk u (some i) ((i, t) :: rest)

/-! ## Links -/

section Links

variable {text : String} {seen : List Place} {T : Trace} {u : SourceUnit}

theorem lt_of_around (h : Traced text seen T u) {e : Option Nat} {p : Place} (he : T.Around e p)
    {i : Nat} (hi : e = some i) : i < u.types.length := by
  obtain ⟨s, hs, -⟩ := he i hi
  exact h.length_types ▸ (List.getElem?_eq_some_iff.mp hs).1

theorem linked_of_traced (h : Traced text seen T u) : u.Linked where
  parent i t ht p hp := by
    obtain ⟨s, -, hentry⟩ := h.site? ht
    obtain ⟨hlt, o, ho, hfqn, hbelow⟩ := hentry.parent p hp
    obtain ⟨outer, houter, hentry'⟩ := h.type? ho
    refine ⟨hlt, outer, houter, fun hlocal => ?_, ?_⟩
    · rw [hentry'.isLocal] at hlocal
      rw [hentry.isLocal]
      exact hbelow.inCode hlocal
    · rw [hentry.fqn, hentry'.fqn, hfqn]
  supertype t ht k hk := by
    obtain ⟨i, hi⟩ := List.getElem?_of_mem ht
    obtain ⟨s, -, hentry⟩ := h.site? hi
    obtain ⟨p, hp, -⟩ := hentry.supertypes k hk
    exact h.length_refs ▸ (List.getElem?_eq_some_iff.mp hp).1
  ref r hr i hi := by
    obtain ⟨k, hk⟩ := List.getElem?_of_mem hr
    have hlt : k < T.refs.length := h.length_refs ▸ (List.getElem?_eq_some_iff.mp hk).1
    exact lt_of_around h (h.ref k r _ hk (List.getElem?_eq_getElem hlt)).2 hi
  call c hc i hi := by
    obtain ⟨p, -, haround⟩ := h.call c hc
    exact lt_of_around h haround hi

/-- The links of a unit are sound whatever tree it was made from. -/
theorem linked_ofTree (text : String) (root : Tree) (path : Path) (print : Fingerprint)
    (level : LanguageLevel) (diagnostics : List Diagnostic) :
    (ofTree text root path print level diagnostics).Linked := by
  obtain ⟨T, h⟩ := traced_ofTree text root path print level diagnostics
  exact linked_of_traced h

end Links

/-! ## Ranges -/

theorem span_of_mem_membersAt {text : String} {node : Tree} {m : MemberDecl}
    (h : m ∈ membersAt text node) : m.span = node.span := by
  rw [membersAt] at h
  split at h
  · obtain ⟨n, -, rfl⟩ := Option.map_eq_some_iff.mp (Option.mem_toList.mp h)
    rfl
  · rw [membersOf] at h
    dsimp only at h
    split at h
    case h_6 | h_7 =>
      obtain ⟨d, -, hd⟩ := List.mem_filterMap.mp h
      obtain ⟨n, -, rfl⟩ := Option.map_eq_some_iff.mp hd
      rfl
    case h_8 => cases h
    all_goals
      split at h
      · cases h
      · rw [List.mem_singleton.mp h]

theorem contained_of_traced {R : SpanRel} [IsTrans Span R] {text : String} {root : Tree} {T : Trace}
    {u : SourceUnit} (hroot : root.Nested R) (h : Traced text (root.places []) T u) :
    u.Contained R where
  parent t ht p o hp ho := by
    obtain ⟨i, hi⟩ := List.getElem?_of_mem ht
    obtain ⟨s, hs, hentry⟩ := h.site? hi
    obtain ⟨-, s', hs', -, hbelow⟩ := hentry.parent p hp
    have hentry' := h.entry p o s' ho hs'
    have hseen : s.place ∈ root.places [] :=
      h.seen_types.subset (List.mem_map_of_mem (List.mem_of_getElem? hs))
    rw [hentry.declares.span, hentry'.declares.span]
    exact hbelow.within hroot hseen
  member t ht m hm := by
    obtain ⟨i, hi⟩ := List.getElem?_of_mem ht
    obtain ⟨s, hs, hentry⟩ := h.site? hi
    obtain ⟨places, hseen, hmembers, hin⟩ := hentry.members
    rw [hmembers, List.mem_flatMap] at hm
    obtain ⟨p, hp, hm⟩ := hm
    rw [hentry.declares.span, span_of_mem_membersAt hm]
    exact (hin p hp).below.within hroot (hseen.subset hp)
  supertype t ht k hk r hr := by
    obtain ⟨i, hi⟩ := List.getElem?_of_mem ht
    obtain ⟨s, hs, hentry⟩ := h.site? hi
    obtain ⟨p, hp, hbelow⟩ := hentry.supertypes k hk
    rw [hentry.declares.span, (h.ref k r p hr hp).1]
    exact hbelow.within hroot (h.seen_refs.subset (List.mem_of_getElem? hp))

/-! ## Ways outwards -/

theorem walk_enclosingFrom {u : SourceUnit} (h : u.Linked) {fuel i : Nat} (hfuel : i < fuel)
    (hi : i < u.types.length) : u.Walk (some i) (u.enclosingFrom fuel (some i)) := by
  induction fuel generalizing i with
  | zero => omega
  | succ fuel ih =>
    have ht : u.types[i]? = some u.types[i] := List.getElem?_eq_getElem hi
    rw [enclosingFrom, ht]
    refine .step ht ?_
    cases hp : u.types[i].parent with
    | none =>
      cases fuel <;> exact .outside
    | some p =>
      have hlt := (h.parent i _ ht p hp).1
      exact ih (by omega) (by omega)

/-- The way outwards from any place of the unit never misses a type and ends. -/
theorem Linked.walk {u : SourceUnit} (h : u.Linked) {e : Option Nat}
    (he : ∀ i, e = some i → i < u.types.length) : u.Walk e (u.enclosingTypes e) := by
  cases e with
  | none =>
    rw [enclosingTypes]
    cases u.types.length <;> exact .outside
  | some i => exact walk_enclosingFrom h (he i rfl) (he i rfl)

/-- A unit made from a nested tree is well formed: its links lead to entries that agree with each
other, its ranges lie within each other, and the ways outwards from its references and calls end. -/
theorem wellFormed_ofTree {root : Tree} (hroot : root.Nested Span.Holds) (text : String)
    (path : Path) (print : Fingerprint) (level : LanguageLevel) (diagnostics : List Diagnostic) :
    let u := ofTree text root path print level diagnostics
    u.Linked ∧ u.Contained Span.Holds ∧
      (∀ r ∈ u.typeRefs, u.Walk r.enclosing (u.enclosingTypes r.enclosing)) ∧
      ∀ c ∈ u.calls, u.Walk c.enclosing (u.enclosingTypes c.enclosing) := by
  intro u
  obtain ⟨T, h⟩ := traced_ofTree text root path print level diagnostics
  have hlinked := linked_of_traced h
  exact ⟨hlinked, contained_of_traced hroot h, fun r hr => hlinked.walk (hlinked.ref r hr),
    fun c hc => hlinked.walk (hlinked.call c hc)⟩

/-- A class with a supertype, a nested class with a field, and a local class beside a call. -/
def nestedText : String := "class A extends B { class C { int x; } void f() { class D {} g(); } }"

def nestedTree : Tree :=
  let phrase (p : Phrase) (field : Option Field) (start stop : Nat) (children : List Tree) : Tree :=
    .node { kind := .phrase p, field := field, span := .clamp start stop } children
  phrase .program none 0 69 [
    phrase .classDeclaration none 0 69 [
      phrase .identifier (some .name) 6 7 [],
      phrase .superclass (some .superclass) 8 17 [phrase .typeIdentifier none 16 17 []],
      phrase .classBody (some .body) 18 69 [
        phrase .classDeclaration none 20 38 [
          phrase .identifier (some .name) 26 27 [],
          phrase .classBody (some .body) 28 38 [
            phrase .fieldDeclaration none 30 36 [
              phrase .integralType (some .type) 30 33 [],
              phrase .variableDeclarator (some .declarator) 34 35 [
                phrase .identifier (some .name) 34 35 []]]]],
        phrase .methodDeclaration none 39 67 [
          phrase .voidType (some .type) 39 43 [],
          phrase .identifier (some .name) 44 45 [],
          phrase .formalParameters (some .parameters) 45 47 [],
          phrase .block (some .body) 48 67 [
            phrase .classDeclaration none 50 60 [
              phrase .identifier (some .name) 56 57 [],
              phrase .classBody (some .body) 58 60 []],
            phrase .expressionStatement none 61 65 [
              phrase .methodInvocation none 61 64 [
                phrase .identifier (some .name) 61 62 [],
                phrase .argumentList (some .arguments) 62 64 []]]]]]]]

theorem wellFormed_ofTree_nested :
    nestedTree.Nested Span.Holds ∧
      let u := ofTree nestedText nestedTree ⟨"/A.java"⟩ default {} []
      u.types.map (fun t => (t.fqn, t.parent, t.isLocal)) =
          [("A", none, false), ("A.C", some 0, false), ("A.D", some 0, true)] ∧
        u.types.map (fun t => (t.supertypes, t.members.map (·.name))) =
          [([0], ["f"]), ([], ["x"]), ([], [])] ∧
        u.Linked ∧ u.Contained Span.Holds ∧
        ∀ c ∈ u.calls, u.Walk c.enclosing (u.enclosingTypes c.enclosing) := by
  have hnested : nestedTree.Nested Span.Holds := by decide
  obtain ⟨hlinked, hcontained, -, hcalls⟩ :=
    wellFormed_ofTree hnested nestedText ⟨"/A.java"⟩ default {} []
  exact ⟨hnested, by decide +kernel, by decide +kernel, hlinked, hcontained, hcalls⟩

end SourceUnit

end JavaAtlas
