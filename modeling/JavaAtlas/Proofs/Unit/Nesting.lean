import JavaAtlas.Unit.Parse
import Mathlib.Order.Defs.Unbundled

/-!
# How the parts of a unit lie within each other

A visit knows the type around the node it stands at and whether it is inside code, and what it notes
refers to that type. So every link of a unit leads to a declaration that was noted before, and if the
nodes of the tree lie within each other then so do the ranges at both ends of a link.
-/

namespace JavaAtlas

set_option autoImplicit false

/-- What ties a declaration to what is around it. -/
structure Setting where
  span : Span
  parent : Option Nat
  isLocal : Bool

def TypeDecl.setting (t : TypeDecl) : Setting := ⟨t.span, t.parent, t.isLocal⟩

/-- The file, the content and the language level a unit is for. -/
def SourceUnit.origin (u : SourceUnit) : Path × Fingerprint × LanguageLevel :=
  (u.path, u.fingerprint, u.languageLevel)

/-- Where a unit comes from, the links between its parts, and the ranges they lead to. -/
structure Outline where
  origin : Path × Fingerprint × LanguageLevel
  types : List Setting
  refs : List TypeRef
  scopes : List Scope

def SourceUnit.outline (u : SourceUnit) : Outline :=
  ⟨u.origin, u.types.map TypeDecl.setting, u.typeRefs, u.scopes⟩

/-- `R a b` stands for: `b` lies within `a`. -/
abbrev SpanRel := Span → Span → Prop

/-- Nothing is asked of the ranges. -/
def Span.Anywhere : SpanRel := fun _ _ => True

instance : IsTrans Span Span.Anywhere := ⟨fun _ _ _ _ _ => trivial⟩

/-- `inner` lies within `outer`. -/
def Span.Holds (outer inner : Span) : Prop := outer.covers inner = true

instance : DecidableRel Span.Holds := fun a b => inferInstanceAs (Decidable (a.covers b = true))

instance : IsTrans Span Span.Holds where
  trans a b c hab hbc := by
    simp only [Span.Holds, Span.covers, Bool.and_eq_true, decide_eq_true_eq] at hab hbc ⊢
    exact ⟨Nat.le_trans hab.1 hbc.1, Nat.le_trans hbc.2 hab.2⟩

namespace Outline

variable {R : SpanRel} {o o' o'' : Outline} {e : Option Nat} {span inner : Span}

/-- The type that a link leads to is there, and lies around the range. -/
def Within (R : SpanRel) (o : Outline) (e : Option Nat) (span : Span) : Prop :=
  ∀ i, e = some i → ∃ t, o.types[i]? = some t ∧ R t.span span

def InCode (R : SpanRel) (o : Outline) (span : Span) : Prop :=
  ∃ s ∈ o.scopes, s.kind = .block ∧ R s.span span

structure Nested (R : SpanRel) (o : Outline) : Prop where
  /-- A type stands behind the one it is declared in. -/
  parent_lt : ∀ (i : Nat) (t : Setting), o.types[i]? = some t → ∀ p, t.parent = some p → p < i
  parent : ∀ t ∈ o.types, o.Within R t.parent t.span
  inCode : ∀ t ∈ o.types, t.isLocal = true → o.InCode R t.span
  enclosing : ∀ r ∈ o.refs, o.Within R r.enclosing r.span

/-- Nothing is taken back, and what is there keeps its number. -/
structure Extends (o o' : Outline) : Prop where
  origin : o'.origin = o.origin
  types : o.types <+: o'.types
  scopes : o.scopes ⊆ o'.scopes

theorem Extends.refl (o : Outline) : o.Extends o :=
  ⟨rfl, List.prefix_refl _, List.Subset.refl _⟩

theorem Extends.trans (h : o.Extends o') (h' : o'.Extends o'') : o.Extends o'' :=
  ⟨h'.origin.trans h.origin, h.types.trans h'.types, List.Subset.trans h.scopes h'.scopes⟩

theorem Extends.getElem? (h : o.Extends o') {i : Nat} {t : Setting} (ht : o.types[i]? = some t) :
    o'.types[i]? = some t := by
  obtain ⟨hi, rfl⟩ := List.getElem?_eq_some_iff.mp ht
  exact List.prefix_iff_getElem?.mp h.types i hi

theorem Within.mono (h : o.Within R e span) (hext : o.Extends o') : o'.Within R e span := by
  intro i hi
  obtain ⟨t, ht, hspan⟩ := h i hi
  exact ⟨t, hext.getElem? ht, hspan⟩

theorem InCode.mono (h : o.InCode R span) (hext : o.Extends o') : o'.InCode R span := by
  obtain ⟨s, hs, hkind, hspan⟩ := h
  exact ⟨s, hext.scopes hs, hkind, hspan⟩

section Trans

variable [IsTrans Span R]

theorem Within.narrow (h : o.Within R e span) (hinner : R span inner) : o.Within R e inner := by
  intro i hi
  obtain ⟨t, ht, hspan⟩ := h i hi
  exact ⟨t, ht, IsTrans.trans _ _ _ hspan hinner⟩

theorem InCode.narrow (h : o.InCode R span) (hinner : R span inner) : o.InCode R inner := by
  obtain ⟨s, hs, hkind, hspan⟩ := h
  exact ⟨s, hs, hkind, IsTrans.trans _ _ _ hspan hinner⟩

end Trans

/-! ## What one node adds -/

def pushScope (o : Outline) (s : Scope) : Outline := { o with scopes := o.scopes ++ [s] }

def pushRef (o : Outline) (r : TypeRef) : Outline := { o with refs := o.refs ++ [r] }

def pushType (o : Outline) (t : Setting) : Outline := { o with types := o.types ++ [t] }

theorem extends_pushScope (o : Outline) (s : Scope) : o.Extends (o.pushScope s) :=
  ⟨rfl, List.prefix_refl _, List.subset_append_left _ _⟩

theorem extends_pushRef (o : Outline) (r : TypeRef) : o.Extends (o.pushRef r) :=
  ⟨rfl, List.prefix_refl _, List.Subset.refl _⟩

theorem extends_pushType (o : Outline) (t : Setting) : o.Extends (o.pushType t) :=
  ⟨rfl, List.prefix_append _ _, List.Subset.refl _⟩

theorem Nested.pushScope (h : o.Nested R) (s : Scope) : (o.pushScope s).Nested R where
  parent_lt := h.parent_lt
  parent t ht := (h.parent t ht).mono (o.extends_pushScope s)
  inCode t ht hlocal := (h.inCode t ht hlocal).mono (o.extends_pushScope s)
  enclosing r hr := (h.enclosing r hr).mono (o.extends_pushScope s)

theorem Nested.pushRef (h : o.Nested R) {r : TypeRef} (hr : o.Within R r.enclosing r.span) :
    (o.pushRef r).Nested R where
  parent_lt := h.parent_lt
  parent t ht := (h.parent t ht).mono (o.extends_pushRef r)
  inCode t ht hlocal := (h.inCode t ht hlocal).mono (o.extends_pushRef r)
  enclosing r' hr' := by
    rcases List.mem_append.mp hr' with hr' | hr'
    · exact (h.enclosing r' hr').mono (o.extends_pushRef r)
    · rw [List.mem_singleton.mp hr']
      exact hr.mono (o.extends_pushRef r)

theorem Nested.pushType (h : o.Nested R) {t : Setting} (hparent : o.Within R t.parent t.span)
    (hcode : t.isLocal = true → o.InCode R t.span) : (o.pushType t).Nested R where
  parent_lt i t' hi p hp := by
    have hi : (o.types ++ [t])[i]? = some t' := hi
    by_cases hlt : i < o.types.length
    · rw [List.getElem?_append_left hlt] at hi
      exact h.parent_lt i t' hi p hp
    · rw [List.getElem?_append_right (Nat.le_of_not_lt hlt)] at hi
      obtain rfl : t' = t := List.mem_singleton.mp (List.mem_of_getElem? hi)
      obtain ⟨_, htype, -⟩ := hparent p hp
      exact Nat.lt_of_lt_of_le (List.getElem?_eq_some_iff.mp htype).1 (Nat.le_of_not_lt hlt)
  parent t' ht' := by
    rcases List.mem_append.mp ht' with ht' | ht'
    · exact (h.parent t' ht').mono (o.extends_pushType t)
    · rw [List.mem_singleton.mp ht']
      exact hparent.mono (o.extends_pushType t)
  inCode t' ht' hlocal := by
    rcases List.mem_append.mp ht' with ht' | ht'
    · exact (h.inCode t' ht' hlocal).mono (o.extends_pushType t)
    · rw [List.mem_singleton.mp ht'] at hlocal ⊢
      exact (hcode hlocal).mono (o.extends_pushType t)
  enclosing r hr := (h.enclosing r hr).mono (o.extends_pushType t)

end Outline

namespace SourceUnit

/-- Changing what an entry says about its own parts changes no link. -/
theorem outline_modifyType (u : SourceUnit) (i : Nat) {f : TypeDecl → TypeDecl}
    (hf : ∀ t, (f t).setting = t.setting) : (u.modifyType i f).outline = u.outline := by
  have htypes : (u.types.modify i f).map TypeDecl.setting = u.types.map TypeDecl.setting := by
    refine List.ext_getElem? fun j => ?_
    rw [List.getElem?_map, List.getElem?_map, List.getElem?_modify]
    by_cases hj : i = j
    · cases u.types[j]? <;> simp [hj, hf]
    · simp [hj]
  rw [modifyType, outline, htypes]
  rfl

theorem outline_pushMember (u : SourceUnit) (owner : Nat) (m : MemberDecl) :
    (u.pushMember owner m).outline = u.outline := u.outline_modifyType owner fun _ => rfl

theorem outline_noteSupertype (owner : Nat) (before after : SourceUnit) :
    (noteSupertype owner before after).outline = after.outline := by
  rw [noteSupertype]
  split
  · exact after.outline_modifyType owner fun _ => rfl
  · rfl

end SourceUnit

namespace Java

mutual

/-- Every node lies within the one around it. -/
def Tree.Nested (R : SpanRel) : Tree → Prop
  | .node l children => Tree.NestedAll R l.span children

def Tree.NestedAll (R : SpanRel) (around : Span) : List Tree → Prop
  | [] => True
  | t :: rest => R around t.span ∧ t.Nested R ∧ Tree.NestedAll R around rest

end

mutual

instance Tree.decidableNested {R : SpanRel} [DecidableRel R] : (t : Tree) → Decidable (t.Nested R)
  | .node l children => Tree.decidableNestedAll l.span children

instance Tree.decidableNestedAll {R : SpanRel} [DecidableRel R] (around : Span) :
    (trees : List Tree) → Decidable (Tree.NestedAll R around trees)
  | [] => isTrue trivial
  | t :: rest =>
    have : Decidable (t.Nested R) := Tree.decidableNested t
    have : Decidable (Tree.NestedAll R around rest) := Tree.decidableNestedAll around rest
    inferInstanceAs (Decidable (R around t.span ∧ t.Nested R ∧ Tree.NestedAll R around rest))

end

/-- The context goes with the place it is used at. -/
structure Context.Fits (R : SpanRel) (c : Context) (o : Outline) (span : Span) : Prop where
  enclosing : o.Within R c.enclosing span
  inCode : c.inBlock = true → o.InCode R span

def Visit.context? : Visit → Option Context
  | .skip => none
  | .plain c | .body c | .typeParams _ _ c | .typeParam _ _ c | .superClause _ c | .components _ c
  | .component _ c | .argumentsWithin c => some c

def Visit.Fits (R : SpanRel) (v : Visit) (o : Outline) (span : Span) : Prop :=
  ∀ c, v.context? = some c → c.Fits R o span

section

variable {R : SpanRel} {o o' : Outline} {span inner : Span}

theorem Context.Fits.mono {c : Context} (h : c.Fits R o span) (hext : o.Extends o') :
    c.Fits R o' span :=
  ⟨h.enclosing.mono hext, fun hcode => (h.inCode hcode).mono hext⟩

theorem Context.Fits.narrow [IsTrans Span R] {c : Context} (h : c.Fits R o span)
    (hinner : R span inner) : c.Fits R o inner :=
  ⟨h.enclosing.narrow hinner, fun hcode => (h.inCode hcode).narrow hinner⟩

/-- The same place, whoever owns the members there. -/
def Context.Agrees (c c' : Context) : Prop := c'.enclosing = c.enclosing ∧ c'.inBlock = c.inBlock

theorem Context.Fits.agrees {c c' : Context} (h : c.Fits R o span) (hc : c.Agrees c') :
    c'.Fits R o span :=
  ⟨hc.1 ▸ h.enclosing, fun hcode => h.inCode (hc.2 ▸ hcode)⟩

end

/-! ## Visiting the children -/

/-- The children are visited at the place `c`, or not at all. -/
def StaysAt (c : Context) (visit : Tree → Visit) : Prop :=
  ∀ child c', (visit child).context? = some c' → c.Agrees c'

section StaysAt

variable {c c' : Context} {visit visit' : Tree → Visit}

theorem staysAt_skip (c : Context) : StaysAt c fun _ => .skip := fun _ _ h => nomatch h

theorem staysAt_all {v : Visit} (hv : v.context? = some c') (h : c.Agrees c') : StaysAt c fun _ => v :=
  fun _ _ heq => Option.some.inj (hv.symm.trans heq) ▸ h

theorem staysAt_plain (h : c.Agrees c') : StaysAt c fun _ => .plain c' := staysAt_all rfl h

theorem StaysAt.ite (h : StaysAt c visit) (h' : StaysAt c visit') (p : Tree → Bool) :
    StaysAt c fun child => if p child then visit child else visit' child := by
  intro child c'' hc
  dsimp only at hc
  split at hc
  · exact h child c'' hc
  · exact h' child c'' hc

theorem StaysAt.exceptName (h : StaysAt c visit) (t : Tree) : StaysAt c (exceptName t visit) :=
  (staysAt_skip c).ite h fun child => (t.childInRole? .name).map Tree.label == some child.label

theorem staysAt_plainParts (h : c.Agrees c') : StaysAt c (plainParts c') :=
  (staysAt_skip c).ite (staysAt_plain h) fun child => child.is .modifiers

theorem staysAt_callableParts (h : c.Agrees c') (t : Tree) : StaysAt c (callableParts t c') :=
  (staysAt_all rfl h).ite (staysAt_plainParts h) fun child => child.is .typeParameters

end StaysAt

/-- What is noted after a child changes no link. -/
def Plan.KeepsOutline (p : Plan) : Prop :=
  ∀ child before after, (p.settle child before after).outline = after.outline

/-- What is added for a node at `span`, and how its children are visited, keeps to the nesting. -/
structure Adds (R : SpanRel) (span : Span) (o : Outline) (answer : SourceUnit × Plan) : Prop where
  nested : answer.1.outline.Nested R
  grown : o.Extends answer.1.outline
  fits : ∀ child : Tree, R span child.span → (answer.2.visit child).Fits R answer.1.outline child.span
  keeps : answer.2.KeepsOutline

section Adds

variable {R : SpanRel} [IsTrans Span R] {span : Span} {c : Context} {u u' : SourceUnit}
  {visit : Tree → Visit}

theorem adds_nothing (hu : u.outline.Nested R) (hc : c.Fits R u.outline span)
    (hout : u'.outline = u.outline) (hvisit : StaysAt c visit) :
    Adds R span u.outline (u', .of visit) where
  nested := hout.symm ▸ hu
  grown := hout.symm ▸ Outline.Extends.refl _
  fits child hin c' hc' := hout.symm ▸ (hc.narrow hin).agrees (hvisit child c' hc')
  keeps _ _ _ := rfl

theorem adds_ref (hu : u.outline.Nested R) (hc : c.Fits R u.outline span) (name : String)
    (hvisit : StaysAt c visit) : Adds R span u.outline (u.pushRef name span c, .of visit) := by
  by_cases hname : name = ""
  · exact adds_nothing hu hc (by rw [SourceUnit.pushRef, if_pos hname]) hvisit
  · have hout : (u.pushRef name span c).outline = u.outline.pushRef ⟨name, span, c.enclosing⟩ := by
      rw [SourceUnit.pushRef, if_neg hname]
      rfl
    have hgrown := u.outline.extends_pushRef ⟨name, span, c.enclosing⟩
    exact {
      nested := hout.symm ▸ hu.pushRef hc.enclosing
      grown := hout.symm ▸ hgrown
      fits := fun child hin c' hc' =>
        hout.symm ▸ ((hc.narrow hin).mono hgrown).agrees (hvisit child c' hc')
      keeps := fun _ _ _ => rfl }

/-- Inside a scope the type around is the same, and inside a block there is code. -/
theorem adds_scope (hu : u.outline.Nested R) (hc : c.Fits R u.outline span) (kind : ScopeKind)
    (henclosing : ∀ child c', (visit child).context? = some c' → c'.enclosing = c.enclosing)
    (hcode : ∀ child c', (visit child).context? = some c' → c'.inBlock = true →
      c.inBlock = true ∨ kind = .block) :
    Adds R span u.outline (u.pushScope kind span, .of visit) where
  nested := hu.pushScope _
  grown := u.outline.extends_pushScope _
  fits child hin c' hc' := by
    have hchild := (hc.narrow hin).mono (u.outline.extends_pushScope ⟨kind, span⟩)
    refine ⟨henclosing child c' hc' ▸ hchild.enclosing, fun hblock => ?_⟩
    rcases hcode child c' hc' hblock with hblock | rfl
    · exact hchild.inCode hblock
    · exact ⟨⟨.block, span⟩, List.mem_append_right _ List.mem_cons_self, rfl, hin⟩
  keeps _ _ _ := rfl

theorem adds_typeBody (hu : u.outline.Nested R) (hc : c.Fits R u.outline span)
    (hvisit : StaysAt c visit) : Adds R span u.outline (u.pushScope .typeBody span, .of visit) :=
  adds_scope hu hc .typeBody (fun child c' hc' => (hvisit child c' hc').1)
    fun child c' hc' hcode => Or.inl ((hvisit child c' hc').2 ▸ hcode)

theorem inCode_of_isLocal (hu : u.outline.Nested R) (hc : c.Fits R u.outline span) (name : String)
    (kind : TypeKind) (nameSpan : Span) (modifiers : List String)
    (h : (u.declare c name kind span nameSpan modifiers).isLocal = true) :
    u.outline.InCode R span := by
  rcases Bool.or_eq_true_iff.mp h with hblock | hparent
  · exact hc.inCode hblock
  · obtain ⟨p, hp, hlocal⟩ := (Option.any_eq_true _ _).mp hparent
    obtain ⟨i, hi, hp⟩ := Option.bind_eq_some_iff.mp hp
    obtain ⟨t, ht, hin⟩ := hc.enclosing i hi
    have hsetting : u.outline.types[i]? = some p.setting := by
      show (u.types.map TypeDecl.setting)[i]? = _
      rw [List.getElem?_map, hp, Option.map_some]
    obtain rfl : p.setting = t := Option.some.inj (hsetting.symm.trans ht)
    exact (hu.inCode _ (List.mem_of_getElem? ht) hlocal).narrow hin

/-- The header of a type is visited where the type stands, its body inside the type. -/
theorem adds_type (hu : u.outline.Nested R) (hc : c.Fits R u.outline span) (name : String)
    (kind : TypeKind) (nameSpan : Span) (modifiers : List String)
    (hvisit : ∀ child c', (visit child).context? = some c' →
      c.Agrees c' ∨ c'.enclosing = some u.types.length ∧ c'.inBlock = false) :
    Adds R span u.outline
      ({ u with types := u.types ++ [u.declare c name kind span nameSpan modifiers] }, .of visit) := by
  generalize hdecl : u.declare c name kind span nameSpan modifiers = decl
  have hspan : decl.setting.span = span := hdecl ▸ rfl
  have hparent : decl.setting.parent = c.enclosing := hdecl ▸ rfl
  have hout : { u with types := u.types ++ [decl] }.outline = u.outline.pushType decl.setting := by
    simp [SourceUnit.outline, SourceUnit.origin, Outline.pushType]
  have hgrown := u.outline.extends_pushType decl.setting
  refine ⟨?_, hout.symm ▸ hgrown, fun child hin c' hc' => ?_, fun _ _ _ => rfl⟩
  · rw [hout]
    refine hu.pushType (by rw [hspan, hparent]; exact hc.enclosing) fun hlocal => ?_
    rw [hspan]
    exact inCode_of_isLocal hu hc name kind nameSpan modifiers (hdecl ▸ hlocal)
  · show c'.Fits R { u with types := u.types ++ [decl] }.outline child.span
    rw [hout]
    rcases hvisit child c' hc' with hagrees | ⟨henclosing, hcode⟩
    · exact ((hc.narrow hin).mono hgrown).agrees hagrees
    · refine ⟨fun i hi => ⟨decl.setting, ?_, hspan.symm ▸ hin⟩, fun h => ?_⟩
      · obtain rfl : u.types.length = i := Option.some.inj (henclosing.symm.trans hi)
        show (u.types.map TypeDecl.setting ++ [decl.setting])[u.types.length]? = _
        rw [← List.length_map TypeDecl.setting, List.getElem?_concat_length]
      · rw [hcode] at h
        cases h

end Adds

section Visits

variable {R : SpanRel} [IsTrans Span R]

theorem agrees_unowned (c : Context) : c.Agrees c.unowned := ⟨rfl, rfl⟩

theorem agrees_refl (c : Context) : c.Agrees c := ⟨rfl, rfl⟩

theorem outline_addMembers (text : String) (t : Tree) (c : Context) (u : SourceUnit) :
    (addMembers text t c u).outline = u.outline := by
  rw [addMembers]
  split
  · rfl
  · generalize membersOf text t = members
    induction members generalizing u with
    | nil => rfl
    | cons m members ih => exact (ih _).trans (u.outline_pushMember _ m)

theorem typeParts_context (t : Tree) (index : Nat) (outer inner : Context) (child : Tree) {c' : Context}
    (h : (typeParts t index outer inner child).context? = some c') : c' = outer ∨ c' = inner := by
  simp only [typeParts] at h
  split at h
  · cases h
  · split at h
    · exact Or.inl (Option.some.inj h).symm
    · split at h
      · exact Or.inl (Option.some.inj h).symm
      · split at h
        · exact Or.inr (Option.some.inj h).symm
        · split at h <;> exact Or.inr (Option.some.inj h).symm

theorem planPlain_adds {text : String} {t : Tree} {c : Context} {u : SourceUnit}
    (hu : u.outline.Nested R) (hc : c.Fits R u.outline t.span) :
    Adds R t.span u.outline (planPlain text t c u) := by
  have hall : StaysAt c fun _ => .plain c := staysAt_plain (agrees_refl c)
  have hunowned : StaysAt c (plainParts c.unowned) := staysAt_plainParts (agrees_unowned c)
  have hcallable : StaysAt c (callableParts t c.unowned) := staysAt_callableParts (agrees_unowned c) t
  have hmembers := outline_addMembers text t c u
  rw [planPlain]
  split
  · exact adds_nothing hu hc rfl hall
  · exact adds_nothing hu hc rfl hall
  · split
    · split
      · exact adds_nothing hu hc rfl hall
      · refine adds_type hu hc _ _ _ _ fun child c' hc' => ?_
        rw [exceptName] at hc'
        split at hc'
        · cases hc'
        · rcases typeParts_context _ _ _ _ _ hc' with rfl | rfl
          · exact Or.inl (agrees_refl _)
          · exact Or.inr ⟨rfl, rfl⟩
    · split
      case _ => split <;> exact adds_nothing hu hc rfl (staysAt_skip c)
      · exact adds_nothing hu hc rfl (staysAt_skip c)
      iterate 3 exact adds_nothing hu hc hmembers (hcallable.exceptName t)
      iterate 2 exact adds_nothing hu hc hmembers hunowned
      · exact adds_nothing hu hc hmembers ((staysAt_plain (agrees_unowned c)).ite (staysAt_skip c) _)
      · exact adds_nothing hu hc hmembers (hunowned.exceptName t)
      iterate 2
        · refine adds_scope hu hc .block (fun _ _ heq => ?_) fun _ _ _ _ => Or.inr rfl
          exact Option.some.inj heq ▸ rfl
      iterate 4 exact adds_typeBody hu hc (staysAt_plain (agrees_unowned c))
      · exact adds_ref hu hc _ (staysAt_skip c)
      · have hwithin : StaysAt c fun _ => .argumentsWithin c := staysAt_all rfl (agrees_refl c)
        -- a type is noted only if it has a name
        split
        · exact adds_ref hu hc _ hwithin
        · exact adds_nothing hu hc rfl hwithin
      · exact adds_nothing hu hc rfl (staysAt_all rfl (agrees_refl c))
      · exact adds_nothing hu hc rfl (hall.exceptName t)
      · exact adds_nothing hu hc rfl hall

theorem plan_adds {text : String} {v : Visit} {t : Tree} {u : SourceUnit}
    (hu : u.outline.Nested R) (hv : v.Fits R u.outline t.span) :
    Adds R t.span u.outline (plan text v t u) := by
  cases v with
  | skip =>
    exact ⟨hu, Outline.Extends.refl _, fun _ _ _ hc => (nomatch hc), fun _ _ _ => rfl⟩
  | plain c => exact planPlain_adds hu (hv c rfl)
  | body c => exact adds_typeBody hu (hv c rfl) (staysAt_plain (agrees_refl c))
  | typeParams scope owner c =>
    exact adds_nothing hu (hv c rfl) rfl (staysAt_all rfl (agrees_refl c))
  | typeParam scope owner c =>
    simp only [plan]
    split
    · refine adds_nothing hu (hv c rfl) ?_ ((staysAt_skip c).ite (staysAt_plain (agrees_refl c)) _)
      split
      · rfl
      · cases owner with
        | none => rfl
        | some i => exact u.outline_modifyType i fun _ => rfl
    · exact adds_nothing hu (hv c rfl) rfl (staysAt_skip c)
  | superClause owner c =>
    have hvisit : StaysAt c fun child => if child.is .typeList then .superClause owner c else .plain c :=
      (staysAt_all rfl (agrees_refl c)).ite (staysAt_plain (agrees_refl c)) _
    have hadds := adds_nothing hu (hv c rfl) rfl hvisit
    refine ⟨hadds.nested, hadds.grown, hadds.fits, fun child before after => ?_⟩
    simp only [plan]
    split
    · rfl
    · exact SourceUnit.outline_noteSupertype owner before after
  | components owner c =>
    exact adds_nothing hu (hv c rfl) rfl (staysAt_all rfl (agrees_refl c))
  | component owner c =>
    simp only [plan]
    split
    · refine adds_nothing hu (hv c rfl) ?_ ((staysAt_plain (agrees_refl c)).ite (staysAt_skip c) _)
      cases componentOf? text t with
      | none => rfl
      | some m => exact u.outline_pushMember owner m
    · exact planPlain_adds hu (hv c rfl)
  | argumentsWithin c =>
    simp only [plan]
    split
    · exact planPlain_adds hu (hv c rfl)
    · split
      · exact adds_nothing hu (hv c rfl) rfl (staysAt_all rfl (agrees_refl c))
      · exact adds_nothing hu (hv c rfl) rfl (staysAt_skip c)

end Visits

mutual

/-- A visit keeps to the nesting if its context goes with the place of the node. -/
theorem nested_visit {R : SpanRel} [IsTrans Span R] (text : String) (v : Visit) (t : Tree) (u : SourceUnit)
    (hu : u.outline.Nested R) (ht : t.Nested R) (hv : v.Fits R u.outline t.span) :
    (visit text v t u).outline.Nested R ∧ u.outline.Extends (visit text v t u).outline := by
  match t with
  | .node l children =>
    have hadds : Adds R l.span u.outline (plan text v (.node l children) u) := plan_adds hu hv
    rw [visit]
    obtain ⟨hnested, hgrown⟩ := nested_visitAll text _ hadds.keeps children l.span _ hadds.nested ht
      hadds.fits
    exact ⟨hnested, hadds.grown.trans hgrown⟩

theorem nested_visitAll {R : SpanRel} [IsTrans Span R] (text : String) (p : Plan) (hp : p.KeepsOutline) (trees : List Tree)
    (around : Span) (u : SourceUnit) (hu : u.outline.Nested R) (htrees : Tree.NestedAll R around trees)
    (hfits : ∀ child : Tree, R around child.span → (p.visit child).Fits R u.outline child.span) :
    (visitAll text p trees u).outline.Nested R ∧
      u.outline.Extends (visitAll text p trees u).outline := by
  match trees with
  | [] => exact ⟨hu, Outline.Extends.refl _⟩
  | t :: rest =>
    obtain ⟨hin, ht, hrest⟩ := htrees
    rw [visitAll]
    split
    · have hsettled := hp t u (visit text (p.visit t) t u)
      obtain ⟨hnested, hgrown⟩ := nested_visit text (p.visit t) t u hu ht (hfits t hin)
      rw [← hsettled] at hnested hgrown
      obtain ⟨hnested', hgrown'⟩ := nested_visitAll text p hp rest around _ hnested hrest
        fun child hchild c hc => (hfits child hchild c hc).mono hgrown
      exact ⟨hnested', hgrown.trans hgrown'⟩
    · exact nested_visitAll text p hp rest around u hu hrest hfits

end

/-- The unit of a nested tree is nested, and is still for what it was started for. -/
theorem nested_lower {R : SpanRel} [IsTrans Span R] (text : String) {root : Tree}
    (hroot : root.Nested R) (start : SourceUnit) (htypes : start.types = [])
    (hrefs : start.typeRefs = []) :
    (lower text root start).outline.Nested R ∧ start.outline.Extends (lower text root start).outline := by
  have hstart : start.outline.Nested R := by
    rw [SourceUnit.outline, htypes, hrefs]
    exact ⟨fun _ _ h => (nomatch h), fun _ h => (nomatch h), fun _ h => (nomatch h),
      fun _ h => (nomatch h)⟩
  have hvisit : Visit.Fits R (.plain {}) start.outline root.span :=
    fun c hc => Option.some.inj hc ▸ ⟨fun _ h => (nomatch h), fun h => (nomatch h)⟩
  exact nested_visit text _ root start hstart hroot hvisit

theorem Tree.nested_anywhere (t : Tree) : t.Nested Span.Anywhere := by
  match t with
  | .node l children => exact nestedAll_anywhere l.span children
where
  nestedAll_anywhere (around : Span) (trees : List Tree) :
      Tree.NestedAll Span.Anywhere around trees := by
    match trees with
    | [] => trivial
    | t :: rest => exact ⟨trivial, t.nested_anywhere, nestedAll_anywhere around rest⟩

end Java

namespace SourceUnit

/-- The unit of any tree, with any problems found in it. -/
def ofTree (text : String) (root : Java.Tree) (path : Path) (print : Fingerprint)
    (level : LanguageLevel) (diagnostics : List Diagnostic) : SourceUnit :=
  { Java.lower text root { path := path, fingerprint := print, languageLevel := level } with
    diagnostics := diagnostics }

theorem parse_eq_ofTree {parser : Java.Parser} {text : String} {root : Java.Tree}
    (h : parser text = .ok root) (path : Path) (print : Fingerprint) (level : LanguageLevel) :
    ∃ diagnostics, parse parser path text print level =
      ofTree text root path print level diagnostics := by
  rw [parse, h]
  exact ⟨_, rfl⟩

theorem nested_ofTree {R : SpanRel} [IsTrans Span R] (text : String) {root : Java.Tree}
    (hroot : root.Nested R) (path : Path) (print : Fingerprint) (level : LanguageLevel)
    (diagnostics : List Diagnostic) :
    (ofTree text root path print level diagnostics).outline.Nested R :=
  (Java.nested_lower text hroot _ rfl rfl).1

end SourceUnit

end JavaAtlas
