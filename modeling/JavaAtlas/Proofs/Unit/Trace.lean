import JavaAtlas.Proofs.Unit.Places

/-!
# Where the entries of a unit come from

Every entry of a unit stands for a place of its tree. A visit reaches the places in the order of the
text and knows the type around each of them, so what an entry says about its surroundings is what
the tree says about those of its place: which type is around it, whether code is, and to which type
a member belongs.
-/

namespace JavaAtlas

set_option autoImplicit false

namespace Java

open scoped List
open SourceUnit (noteSupertype)

def membersAt (text : String) (t : Tree) : List MemberDecl :=
  if t.is .formalParameter then (componentOf? text t).toList else membersOf text t

structure DeclaresType (text : String) (node : Tree) (t : TypeDecl) : Prop where
  kind : ∃ p, node.kind = .phrase p ∧ typeKind? p = some t.kind
  name : ∃ n, node.childInRole? .name = some n ∧ t.name = n.textIn text ∧ t.nameSpan = n.span
  span : t.span = node.span

/-- The place of a type declaration and the full name the type got. -/
structure Site where
  place : Place
  fqn : String

/-- What the types and references of a unit stand for. -/
structure Trace where
  types : List Site
  refs : List Place

namespace Trace

variable {T T' T'' : Trace} {news more : List Place} {e : Option Nat} {p : Place} {i : Nat}

/-- The type that a link leads to is there, and its declaration is around the place. -/
def Around (T : Trace) (e : Option Nat) (p : Place) : Prop :=
  ∀ i, e = some i → ∃ s, T.types[i]? = some s ∧ p.Below s.place

def Owns (T : Trace) (e : Option Nat) (p : Place) : Prop :=
  ∀ i, e = some i → ∃ s, T.types[i]? = some s ∧ p.DirectlyIn s.place

/-- Nothing is taken back, and what is new refers from some of the places `news`. -/
structure Grows (news : List Place) (T T' : Trace) : Prop where
  types : T.types <+: T'.types
  refs : ∃ added, T'.refs = T.refs ++ added ∧ added ⊆ news

theorem Grows.refl (news : List Place) (T : Trace) : T.Grows news T :=
  ⟨List.prefix_refl _, [], (List.append_nil _).symm, List.nil_subset _⟩

theorem Grows.trans (h : T.Grows news T') (h' : T'.Grows more T'') :
    T.Grows (news ++ more) T'' := by
  obtain ⟨added, hadded, hnews⟩ := h.refs
  obtain ⟨added', hadded', hmore⟩ := h'.refs
  refine ⟨h.types.trans h'.types, added ++ added', ?_, ?_⟩
  · rw [hadded', hadded, List.append_assoc]
  · exact List.append_subset.mpr ⟨List.subset_append_of_subset_left _ hnews,
      List.subset_append_of_subset_right _ hmore⟩

theorem Grows.type? (h : T.Grows news T') {s : Site} (hs : T.types[i]? = some s) :
    T'.types[i]? = some s := by
  obtain ⟨hi, rfl⟩ := List.getElem?_eq_some_iff.mp hs
  exact List.prefix_iff_getElem?.mp h.types i hi

theorem Grows.ref? (h : T.Grows news T') (hp : T.refs[i]? = some p) : T'.refs[i]? = some p := by
  obtain ⟨added, hadded, -⟩ := h.refs
  rw [hadded, List.getElem?_append_left (List.getElem?_eq_some_iff.mp hp).1, hp]

theorem Around.mono (h : T.Around e p) (hgrows : T.Grows news T') : T'.Around e p := by
  intro i hi
  obtain ⟨s, hs, hbelow⟩ := h i hi
  exact ⟨s, hgrows.type? hs, hbelow⟩

theorem Owns.mono (h : T.Owns e p) (hgrows : T.Grows news T') : T'.Owns e p := by
  intro i hi
  obtain ⟨s, hs, hin⟩ := h i hi
  exact ⟨s, hgrows.type? hs, hin⟩

theorem Around.child (h : T.Around e p) (t : Tree) : T.Around e (p.child t) := by
  intro i hi
  obtain ⟨s, hs, hbelow⟩ := h i hi
  exact ⟨s, hs, hbelow.child t⟩

theorem Owns.child (h : T.Owns e p) (hopen : p.node.disowns = false) (t : Tree) :
    T.Owns e (p.child t) := by
  intro i hi
  obtain ⟨s, hs, hin⟩ := h i hi
  exact ⟨s, hs, hin.child hopen t⟩

/-- What hides a type hides all that a link leads to it from. -/
def hidden (T : Trace) (e : Option Nat) : Bool :=
  (e.bind fun i => T.types[i]?).any fun s => s.place.inCode

theorem hidden_mono (h : T.Around e p) (hgrows : T.Grows news T') : T'.hidden e = T.hidden e := by
  cases e with
  | none => rfl
  | some i =>
    obtain ⟨s, hs, -⟩ := h i rfl
    rw [hidden, hidden, Option.bind_some, Option.bind_some, hs, hgrows.type? hs]

end Trace

/-! ## Entries -/

/-- What entry number `i` of the types of a unit says is what the tree says about its site. -/
structure Entry (text : String) (seen : List Place) (T : Trace) (i : Nat) (t : TypeDecl)
    (s : Site) : Prop where
  fqn : t.fqn = s.fqn
  declares : DeclaresType text s.place.node t
  isLocal : t.isLocal = s.place.inCode
  parent : ∀ j, t.parent = some j → j < i ∧ ∃ o, T.types[j]? = some o ∧
    s.fqn = o.fqn ++ "." ++ t.name ∧ s.place.Below o.place
  members : ∃ places, places <+ seen ∧ t.members = places.flatMap (fun p => membersAt text p.node) ∧
    ∀ p ∈ places, p.DirectlyIn s.place
  supertypes : ∀ k ∈ t.supertypes, ∃ p, T.refs[k]? = some p ∧ p.Below s.place

/-- The unit holds what was found at the places seen so far. -/
structure Traced (text : String) (seen : List Place) (T : Trace) (u : SourceUnit) : Prop where
  length_types : u.types.length = T.types.length
  length_refs : u.typeRefs.length = T.refs.length
  seen_types : T.types.map Site.place <+ seen
  seen_refs : T.refs <+ seen
  entry : ∀ (i : Nat) (t : TypeDecl) (s : Site), u.types[i]? = some t → T.types[i]? = some s →
    Entry text seen T i t s
  ref : ∀ (k : Nat) (r : TypeRef) (p : Place), u.typeRefs[k]? = some r → T.refs[k]? = some p →
    r.span = p.node.span ∧ T.Around r.enclosing p
  call : ∀ c ∈ u.calls, ∃ p ∈ seen, T.Around c.enclosing p

section Traced

variable {text : String} {seen more : List Place} {T T' : Trace} {u u' : SourceUnit} {p : Place}

theorem Entry.mono {i : Nat} {t : TypeDecl} {s : Site} (h : Entry text seen T i t s)
    (hgrows : T.Grows more T') : Entry text (seen ++ more) T' i t s where
  fqn := h.fqn
  declares := h.declares
  isLocal := h.isLocal
  parent j hj := by
    obtain ⟨hlt, o, ho, hrest⟩ := h.parent j hj
    exact ⟨hlt, o, hgrows.type? ho, hrest⟩
  members := by
    obtain ⟨places, hseen, hrest⟩ := h.members
    exact ⟨places, hseen.trans (List.sublist_append_left _ _), hrest⟩
  supertypes k hk := by
    obtain ⟨p, hp, hbelow⟩ := h.supertypes k hk
    exact ⟨p, hgrows.ref? hp, hbelow⟩

theorem Traced.type? (h : Traced text seen T u) {i : Nat} {s : Site} (hs : T.types[i]? = some s) :
    ∃ t, u.types[i]? = some t ∧ Entry text seen T i t s := by
  have hi : i < u.types.length := h.length_types ▸ (List.getElem?_eq_some_iff.mp hs).1
  have ht : u.types[i]? = some u.types[i] := List.getElem?_eq_getElem hi
  exact ⟨_, ht, h.entry i _ s ht hs⟩

theorem Traced.site? (h : Traced text seen T u) {i : Nat} {t : TypeDecl}
    (ht : u.types[i]? = some t) : ∃ s, T.types[i]? = some s ∧ Entry text seen T i t s := by
  have hi : i < T.types.length := h.length_types ▸ (List.getElem?_eq_some_iff.mp ht).1
  have hs : T.types[i]? = some T.types[i] := List.getElem?_eq_getElem hi
  exact ⟨_, hs, h.entry i t _ ht hs⟩

/-- Only types, references and calls are traced. -/
theorem Traced.congr (h : Traced text seen T u) (htypes : u'.types = u.types)
    (hrefs : u'.typeRefs = u.typeRefs) (hcalls : u'.calls = u.calls) : Traced text seen T u' where
  length_types := htypes ▸ h.length_types
  length_refs := hrefs ▸ h.length_refs
  seen_types := h.seen_types
  seen_refs := h.seen_refs
  entry := htypes ▸ h.entry
  ref := hrefs ▸ h.ref
  call := hcalls ▸ h.call

theorem Traced.seeing (h : Traced text seen T u) (more : List Place) :
    Traced text (seen ++ more) T u where
  length_types := h.length_types
  length_refs := h.length_refs
  seen_types := h.seen_types.trans (List.sublist_append_left _ _)
  seen_refs := h.seen_refs.trans (List.sublist_append_left _ _)
  entry i t s ht hs := (h.entry i t s ht hs).mono (Trace.Grows.refl more T)
  ref := h.ref
  call c hc := by
    obtain ⟨p, hp, haround⟩ := h.call c hc
    exact ⟨p, List.mem_append_left _ hp, haround⟩

theorem Traced.modifyType (h : Traced text seen T u) (i : Nat) {f : TypeDecl → TypeDecl}
    (hf : ∀ t s, u.types[i]? = some t → T.types[i]? = some s → Entry text seen T i t s →
      Entry text seen T i (f t) s) : Traced text seen T (u.modifyType i f) where
  length_types := (List.length_modify _ _ _).trans h.length_types
  length_refs := h.length_refs
  seen_types := h.seen_types
  seen_refs := h.seen_refs
  entry j t s ht hs := by
    have ht : (u.types.modify i f)[j]? = some t := ht
    rw [List.getElem?_modify] at ht
    obtain ⟨t', ht', rfl⟩ := Option.map_eq_some_iff.mp ht
    split
    next hij =>
      subst hij
      exact hf t' s ht' hs (h.entry i t' s ht' hs)
    next => exact h.entry j t' s ht' hs
  ref := h.ref
  call := h.call

theorem Traced.pushRef (h : Traced text seen T u) {r : TypeRef} (hspan : r.span = p.node.span)
    (haround : T.Around r.enclosing p) :
    Traced text (seen ++ [p]) { T with refs := T.refs ++ [p] }
      { u with typeRefs := u.typeRefs ++ [r] } := by
  have hgrows : T.Grows [p] { T with refs := T.refs ++ [p] } :=
    ⟨List.prefix_refl _, [p], rfl, List.Subset.refl _⟩
  refine ⟨h.length_types, ?_, ?_, ?_, ?_, ?_, ?_⟩
  · rw [List.length_append, List.length_append, h.length_refs]
    rfl
  · exact h.seen_types.trans (List.sublist_append_left _ _)
  · exact h.seen_refs.append (List.Sublist.refl _)
  · exact fun i t s ht hs => (h.entry i t s ht hs).mono hgrows
  · intro k r' q hr hq
    rcases Nat.lt_or_ge k u.typeRefs.length with hk | hk
    · rw [List.getElem?_append_left hk] at hr
      rw [List.getElem?_append_left (h.length_refs ▸ hk)] at hq
      exact ⟨(h.ref k r' q hr hq).1, (h.ref k r' q hr hq).2.mono hgrows⟩
    · rw [List.getElem?_append_right hk] at hr
      rw [List.getElem?_append_right (h.length_refs ▸ hk)] at hq
      rw [List.mem_singleton.mp (List.mem_of_getElem? hr),
        List.mem_singleton.mp (List.mem_of_getElem? hq)]
      exact ⟨hspan, haround.mono hgrows⟩
  · intro c hc
    obtain ⟨q, hq, hcall⟩ := h.call c hc
    exact ⟨q, List.mem_append_left _ hq, hcall.mono hgrows⟩

theorem Traced.pushCalls (h : Traced text seen T u) {calls : List CallSite}
    (hcalls : ∀ c ∈ calls, T.Around c.enclosing p) :
    Traced text (seen ++ [p]) T { u with calls := u.calls ++ calls } := by
  have hseen := h.seeing [p]
  refine ⟨hseen.length_types, hseen.length_refs, hseen.seen_types, hseen.seen_refs, hseen.entry,
    hseen.ref, fun c hc => ?_⟩
  rcases List.mem_append.mp hc with hc | hc
  · exact hseen.call c hc
  · exact ⟨p, List.mem_append_right _ List.mem_cons_self, hcalls c hc⟩

theorem Traced.pushType (h : Traced text seen T u) {t : TypeDecl}
    (ht : Entry text (seen ++ [p]) { T with types := T.types ++ [⟨p, t.fqn⟩] } T.types.length t
      ⟨p, t.fqn⟩) :
    Traced text (seen ++ [p]) { T with types := T.types ++ [⟨p, t.fqn⟩] }
      { u with types := u.types ++ [t] } := by
  have hgrows : T.Grows [p] { T with types := T.types ++ [⟨p, t.fqn⟩] } :=
    ⟨List.prefix_append _ _, [], (List.append_nil _).symm, List.nil_subset _⟩
  refine ⟨?_, h.length_refs, ?_, ?_, ?_, ?_, ?_⟩
  · rw [List.length_append, List.length_append, h.length_types]
    rfl
  · rw [List.map_append]
    exact h.seen_types.append (List.Sublist.refl _)
  · exact h.seen_refs.trans (List.sublist_append_left _ _)
  · intro i t' s ht' hs
    rcases Nat.lt_or_ge i u.types.length with hi | hi
    · rw [List.getElem?_append_left hi] at ht'
      rw [List.getElem?_append_left (h.length_types ▸ hi)] at hs
      exact (h.entry i t' s ht' hs).mono hgrows
    · have hlast : i = T.types.length := by
        have := (List.getElem?_eq_some_iff.mp hs).1
        rw [List.length_append, List.length_singleton, ← h.length_types] at this
        rw [← h.length_types]
        omega
      subst hlast
      rw [← h.length_types, List.getElem?_concat_length] at ht'
      rw [List.getElem?_concat_length] at hs
      rw [← Option.some.inj ht', ← Option.some.inj hs]
      exact ht
  · intro k r q hr hq
    exact ⟨(h.ref k r q hr hq).1, (h.ref k r q hr hq).2.mono hgrows⟩
  · intro c hc
    obtain ⟨q, hq, hcall⟩ := h.call c hc
    exact ⟨q, List.mem_append_left _ hq, hcall.mono hgrows⟩

end Traced

/-! ## What a visit is told -/

/-- The context says what is around the place. -/
structure Context.Describes (c : Context) (T : Trace) (p : Place) : Prop where
  around : T.Around c.enclosing p
  inCode : (c.inBlock || T.hidden c.enclosing) = p.inCode
  owner : T.Owns c.memberOwner p

/-- What a visit is told holds at the place it is planned for. -/
def Visit.Describes (T : Trace) (p : Place) : Visit → Prop
  | .skip => True
  | .plain c | .typeParam _ _ c | .argumentsWithin c => c.Describes T p
  | .body c => c.unowned.Describes T p ∧ p.node.isBody = true ∧
    ∀ i, c.memberOwner = some i → ∃ s, T.types[i]? = some s ∧ p.around = s.place.path
  | .typeParams _ _ c => c.Describes T p ∧ p.node.disowns = false
  | .superClause i c => c.Describes T p ∧ p.node.disowns = false ∧ T.Around (some i) p
  | .components i c => c.Describes T p ∧ p.node.disowns = false ∧ T.Owns (some i) p
  | .component i c => c.Describes T p ∧ T.Owns (some i) p

/-- Between the visits of two children at most a supertype is noted, for a type around them. -/
def Plan.Notes (plan : Plan) (T : Trace) (p : Place) : Prop :=
  ∀ child before after, plan.settle child before after = after ∨
    ∃ i, T.Around (some i) p ∧ plan.settle child before after = noteSupertype i before after

section Describes

variable {T T' : Trace} {news : List Place} {p : Place} {c : Context}

theorem Context.Describes.mono (h : c.Describes T p) (hgrows : T.Grows news T') :
    c.Describes T' p where
  around := h.around.mono hgrows
  inCode := by rw [Trace.hidden_mono h.around hgrows, h.inCode]
  owner := h.owner.mono hgrows

theorem Visit.Describes.mono {v : Visit} (h : v.Describes T p) (hgrows : T.Grows news T') :
    v.Describes T' p := by
  cases v with
  | skip => trivial
  | plain c | typeParam _ _ c | argumentsWithin c => exact Context.Describes.mono h hgrows
  | body c =>
    obtain ⟨hc, hbody, howner⟩ := h
    refine ⟨hc.mono hgrows, hbody, fun i hi => ?_⟩
    obtain ⟨s, hs, hpath⟩ := howner i hi
    exact ⟨s, hgrows.type? hs, hpath⟩
  | typeParams _ _ c => exact ⟨h.1.mono hgrows, h.2⟩
  | superClause i c => exact ⟨h.1.mono hgrows, h.2.1, h.2.2.mono hgrows⟩
  | components i c => exact ⟨h.1.mono hgrows, h.2.1, h.2.2.mono hgrows⟩
  | component i c => exact ⟨h.1.mono hgrows, h.2.mono hgrows⟩

theorem Plan.Notes.mono {plan : Plan} (h : plan.Notes T p) (hgrows : T.Grows news T') :
    plan.Notes T' p := by
  intro child before after
  refine (h child before after).imp_right ?_
  rintro ⟨i, haround, hsettle⟩
  exact ⟨i, haround.mono hgrows, hsettle⟩

theorem Trace.owns_none (T : Trace) (p : Place) : T.Owns none p := fun _ h => nomatch h

theorem Context.Describes.unowned (h : c.Describes T p) : c.unowned.Describes T p :=
  ⟨h.around, h.inCode, T.owns_none p⟩

theorem Context.Describes.child (h : c.Describes T p) (hopen : p.node.disowns = false) (t : Tree) :
    c.Describes T (p.child t) where
  around := h.around.child t
  inCode := by
    rw [h.inCode, Place.inCode_child, Tree.isCode_of_not_disowns hopen, Bool.false_or]
  owner := h.owner.child hopen t

theorem Context.Describes.unowned_child (h : c.Describes T p) (hcode : p.node.isCode = false)
    (t : Tree) : c.unowned.Describes T (p.child t) where
  around := h.around.child t
  inCode := by
    rw [Place.inCode_child, hcode, Bool.false_or]
    exact h.inCode
  owner := T.owns_none _

theorem Context.Describes.code_child (h : c.Describes T p) (hcode : p.node.isCode = true)
    (t : Tree) : { c.unowned with inBlock := true }.Describes T (p.child t) where
  around := h.around.child t
  inCode := by rw [Place.inCode_child, hcode, Bool.true_or, Bool.true_or]
  owner := T.owns_none _

/-- Directly in a type the type is around and owns what stands there. -/
theorem describes_inner {i : Nat} {s : Site} (hs : T.types[i]? = some s) {q : Place}
    (hbelow : q.Below s.place) (hcode : q.inCode = s.place.inCode) (howns : T.Owns (some i) q) :
    Context.Describes ⟨some i, some i, false⟩ T q where
  around j hj := ⟨s, Option.some.inj hj ▸ hs, hbelow⟩
  inCode := by
    rw [Trace.hidden, Option.bind_some, hs, Option.any_some, Bool.false_or, hcode]
  owner := howns

/-- Every child of the node at `p` is visited with a context that describes its place. -/
def DescribesAll (T : Trace) (p : Place) (visit : Tree → Visit) : Prop :=
  ∀ t, (visit t).Describes T (p.child t)

variable {visit visit' : Tree → Visit}

theorem describesAll_skip (T : Trace) (p : Place) : DescribesAll T p fun _ => .skip :=
  fun _ => trivial

theorem DescribesAll.ite (h : DescribesAll T p visit) (h' : DescribesAll T p visit')
    (cond : Tree → Bool) : DescribesAll T p fun t => if cond t then visit t else visit' t := by
  intro t
  dsimp only
  split
  · exact h t
  · exact h' t

theorem DescribesAll.exceptName (h : DescribesAll T p visit) (node : Tree) :
    DescribesAll T p (exceptName node visit) :=
  (describesAll_skip T p).ite h fun t => (node.childInRole? .name).map Tree.label == some t.label

theorem describesAll_plainParts (h : DescribesAll T p fun _ => .plain c) :
    DescribesAll T p (plainParts c) :=
  (describesAll_skip T p).ite h fun t => t.is .modifiers

theorem describesAll_callableParts (h : c.Describes T p) (hcode : p.node.isCode = false)
    (node : Tree) : DescribesAll T p (callableParts node c.unowned) := by
  intro t
  rw [callableParts]
  split
  · rename_i hparams
    exact ⟨h.unowned_child hcode t, Tree.disowns_of_phrase (beq_iff_eq.mp hparams)⟩
  · exact describesAll_plainParts (fun t => h.unowned_child hcode t) t

/-- The header of a type belongs to what is around the type, the rest to the type itself. -/
theorem describesAll_typeParts {i : Nat} {s : Site} (h : c.Describes T p)
    (hopen : p.node.disowns = false) (hs : T.types[i]? = some s) (hplace : s.place = p)
    (node : Tree) :
    DescribesAll T p (typeParts node i c ⟨some i, some i, false⟩) := by
  have haround (t : Tree) : T.Around (some i) (p.child t) := fun j hj =>
    ⟨s, Option.some.inj hj ▸ hs, hplace ▸ Place.child_below s.place t⟩
  have howns (t : Tree) : T.Owns (some i) (p.child t) := fun j hj =>
    ⟨s, Option.some.inj hj ▸ hs, hplace ▸ Place.child_directlyIn s.place t⟩
  have hcode (t : Tree) : (p.child t).inCode = s.place.inCode := by
    rw [Place.inCode_child, Tree.isCode_of_not_disowns hopen, Bool.false_or, hplace]
  have hinner (t : Tree) : Context.Describes ⟨some i, some i, false⟩ T (p.child t) :=
    describes_inner hs (hplace ▸ Place.child_below s.place t) (hcode t) (howns t)
  intro t
  rw [typeParts]
  split
  · trivial
  split
  · rename_i hparams
    exact ⟨h.child hopen t, Tree.disowns_of_phrase (beq_iff_eq.mp hparams)⟩
  split
  · rename_i hclause
    refine ⟨h.child hopen t, ?_, haround t⟩
    obtain ⟨k, hk, hclause⟩ := List.any_eq_true.mp hclause
    refine (Tree.disowns_of_phrase (beq_iff_eq.mp hclause)).trans ?_
    exact (by decide : ∀ k ∈ [Phrase.superclass, .superInterfaces, .extendsInterfaces],
      disowning.contains k = false) k hk
  split
  · rename_i hcomponents
    exact ⟨hinner t, Tree.disowns_of_phrase (beq_iff_eq.mp hcomponents), howns t⟩
  split
  · rename_i hbody
    refine ⟨(hinner t).unowned, hbody, fun j hj => ⟨s, Option.some.inj hj ▸ hs, ?_⟩⟩
    rw [hplace, Place.child]
  · exact hinner t

/-- In its own body a type owns what stands there. -/
theorem describesAll_body (h : Visit.Describes T p (.body c)) :
    DescribesAll T p fun _ => .plain c := by
  obtain ⟨hc, hbody, howner⟩ := h
  have hcode := Tree.isCode_of_isBody hbody
  intro t
  refine ⟨hc.around.child t, ?_, fun i hi => ?_⟩
  · rw [Place.inCode_child, hcode, Bool.false_or]
    exact hc.inCode
  · obtain ⟨s, hs, hpath⟩ := howner i hi
    exact ⟨s, hs, Place.child_directlyIn_of_body hpath hbody t⟩

end Describes

end Java

end JavaAtlas
