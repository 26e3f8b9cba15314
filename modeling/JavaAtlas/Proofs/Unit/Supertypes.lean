import JavaAtlas.Proofs.Unit.Visits
import Mathlib.Data.List.Forall2

/-!
# What a declaration notes as its supertypes

A visit mentions the same types whatever unit it adds to and whatever is around its node. Of each
type in the clauses of a declaration the first mention is noted, in the order of the clauses: for a
plain or dotted name that is the type itself, behind an annotation it is what the annotation
mentions. Nothing else changes what a declaration notes.
-/

namespace JavaAtlas

set_option autoImplicit false

/-- What a reference says apart from the type around it. -/
structure Mention where
  name : String
  span : Span
deriving DecidableEq

def TypeRef.mention (r : TypeRef) : Mention := ⟨r.name, r.span⟩

def SourceUnit.mentions (u : SourceUnit) : List Mention := u.typeRefs.map TypeRef.mention

namespace Java

open SourceUnit (noteSupertype)

/-! ## Mentions -/

def Visit.mode : Visit → Visit
  | .skip => .skip
  | .plain _ => .plain {}
  | .body _ => .body {}
  | .typeParams _ _ _ => .typeParams default none {}
  | .typeParam _ _ _ => .typeParam default none {}
  | .superClause _ _ => .superClause 0 {}
  | .components _ _ => .components 0 {}
  | .component _ _ => .component 0 {}
  | .argumentsWithin _ => .argumentsWithin {}

/-- Nothing that is noted after a child is a mention. -/
def Plan.KeepsMentions (p : Plan) : Prop :=
  ∀ child before after, (p.settle child before after).mentions = after.mentions

/-- Two answers for the same node add the same mentions and go on in the same way. -/
structure Alike (u u' : SourceUnit) (a a' : SourceUnit × Plan) : Prop where
  added : ∃ ms, a.1.mentions = u.mentions ++ ms ∧ a'.1.mentions = u'.mentions ++ ms
  modes : ∀ child, (a.2.visit child).mode = (a'.2.visit child).mode
  keeps : a.2.KeepsMentions ∧ a'.2.KeepsMentions

section Alike

variable {u u' v v' : SourceUnit} {visit visit' : Tree → Visit} {c c' : Context} {t : Tree}

theorem alike_of_same (hv : v.mentions = u.mentions) (hv' : v'.mentions = u'.mentions)
    (hmodes : ∀ child, (visit child).mode = (visit' child).mode) :
    Alike u u' (v, .of visit) (v', .of visit') where
  added := ⟨[], by simpa using hv, by simpa using hv'⟩
  modes := hmodes
  keeps := ⟨fun _ _ _ => rfl, fun _ _ _ => rfl⟩

theorem alike_pushRef (name : String) (span : Span) (c c' : Context)
    (hmodes : ∀ child, (visit child).mode = (visit' child).mode) :
    Alike u u' (u.pushRef name span c, .of visit) (u'.pushRef name span c', .of visit') := by
  rw [SourceUnit.pushRef, SourceUnit.pushRef]
  split
  · exact alike_of_same rfl rfl hmodes
  · exact ⟨⟨[⟨name, span⟩], List.map_append, List.map_append⟩, hmodes, fun _ _ _ => rfl,
      fun _ _ _ => rfl⟩

theorem mode_exceptName (hmodes : ∀ child, (visit child).mode = (visit' child).mode) (t child : Tree) :
    (exceptName t visit child).mode = (exceptName t visit' child).mode := by
  rw [exceptName, exceptName]
  split
  · rfl
  · exact hmodes child

theorem mode_plainParts (c c' : Context) (child : Tree) :
    (plainParts c child).mode = (plainParts c' child).mode := by
  rw [plainParts, plainParts]
  split <;> rfl

theorem mode_callableParts (t : Tree) (c c' : Context) (child : Tree) :
    (callableParts t c child).mode = (callableParts t c' child).mode := by
  rw [callableParts, callableParts]
  split
  · rfl
  · exact mode_plainParts c c' child

theorem mode_typeParts (t : Tree) (i i' : Nat) (outer outer' inner inner' : Context) (child : Tree) :
    (typeParts t i outer inner child).mode = (typeParts t i' outer' inner' child).mode := by
  simp only [typeParts]
  repeat' split
  all_goals rfl

theorem mentions_addMembers (text : String) (t : Tree) (c : Context) (u : SourceUnit) :
    (addMembers text t c u).mentions = u.mentions := by
  rw [addMembers]
  split
  · rfl
  · generalize membersOf text t = members
    induction members generalizing u with
    | nil => rfl
    | cons m members ih => exact ih _

theorem planPlain_alike (text : String) (t : Tree) (c c' : Context) (u u' : SourceUnit) :
    Alike u u' (planPlain text t c u) (planPlain text t c' u') := by
  have hmembers := mentions_addMembers text t c u
  have hmembers' := mentions_addMembers text t c' u'
  unfold planPlain
  cases hkind : t.kind with
  | token | error => exact alike_of_same rfl rfl fun _ => rfl
  | phrase p =>
    dsimp only
    cases htype : typeKind? p with
    | some kind =>
      dsimp only
      cases t.childInRole? .name with
      | none => exact alike_of_same rfl rfl fun _ => rfl
      | some n => exact alike_of_same rfl rfl (mode_exceptName (mode_typeParts t _ _ _ _ _ _) t)
    | none =>
      dsimp only
      split
      case h_1 => split <;> exact alike_of_same rfl rfl fun _ => rfl
      case h_3 | h_4 | h_5 =>
        exact alike_of_same hmembers hmembers' (mode_exceptName (mode_callableParts t _ _) t)
      case h_6 | h_7 => exact alike_of_same hmembers hmembers' (mode_plainParts _ _)
      case h_8 =>
        refine alike_of_same hmembers hmembers' fun child => ?_
        split <;> rfl
      case h_9 => exact alike_of_same hmembers hmembers' (mode_exceptName (mode_plainParts _ _) t)
      case h_16 => exact alike_pushRef _ _ c c' fun _ => rfl
      case h_17 =>
        split
        · exact alike_pushRef _ _ c c' fun _ => rfl
        · exact alike_of_same rfl rfl fun _ => rfl
      case h_19 =>
        have hplain (child : Tree) : (Visit.plain c).mode = (Visit.plain c').mode := rfl
        exact alike_of_same rfl rfl (mode_exceptName hplain t)
      all_goals exact alike_of_same rfl rfl fun _ => rfl

theorem plan_alike (text : String) {v v' : Visit} (h : v.mode = v'.mode) (t : Tree)
    (u u' : SourceUnit) : Alike u u' (plan text v t u) (plan text v' t u') := by
  cases v <;> cases v' <;> try cases h
  case skip.skip => exact alike_of_same rfl rfl fun _ => rfl
  case plain.plain c c' => exact planPlain_alike text t c c' u u'
  case body.body => exact alike_of_same rfl rfl fun _ => rfl
  case typeParams.typeParams => exact alike_of_same rfl rfl fun _ => rfl
  case typeParam.typeParam scope owner c scope' owner' c' =>
    simp only [plan]
    split
    · refine alike_of_same ?_ ?_ fun child => ?_
      · split
        · rfl
        · cases owner <;> rfl
      · split
        · rfl
        · cases owner' <;> rfl
      · split <;> rfl
    · exact alike_of_same rfl rfl fun _ => rfl
  case superClause.superClause owner c owner' c' =>
    refine ⟨⟨[], by simp [plan], by simp [plan]⟩, fun child => ?_, ?_, ?_⟩
    · simp only [plan]
      split <;> rfl
    · intro child before after
      simp only [plan, noteSupertype]
      repeat' split
      all_goals rfl
    · intro child before after
      simp only [plan, noteSupertype]
      repeat' split
      all_goals rfl
  case components.components => exact alike_of_same rfl rfl fun _ => rfl
  case component.component owner c owner' c' =>
    simp only [plan]
    split
    · refine alike_of_same ?_ ?_ fun child => ?_
      · cases componentOf? text t <;> rfl
      · cases componentOf? text t <;> rfl
      · split <;> rfl
    · exact planPlain_alike text t c c' u u'
  case argumentsWithin.argumentsWithin c c' =>
    simp only [plan]
    split
    · exact planPlain_alike text t c c' u u'
    · split <;> exact alike_of_same rfl rfl fun _ => rfl

end Alike

mutual

/-- Whatever unit a visit adds to, it adds the same mentions. -/
theorem mentions_visit_alike (text : String) {v v' : Visit} (h : v.mode = v'.mode) (t : Tree)
    (u u' : SourceUnit) : ∃ ms, (visit text v t u).mentions = u.mentions ++ ms ∧
      (visit text v' t u').mentions = u'.mentions ++ ms := by
  match t with
  | .node l children =>
    obtain ⟨⟨ms, hms, hms'⟩, hmodes, hkeeps, hkeeps'⟩ := plan_alike text h (.node l children) u u'
    obtain ⟨ms₂, h₂, h₂'⟩ := mentions_visitAll_alike text hmodes hkeeps hkeeps' children _ _
    rw [visit, visit]
    exact ⟨ms ++ ms₂, by rw [h₂, hms, List.append_assoc], by rw [h₂', hms', List.append_assoc]⟩

theorem mentions_visitAll_alike (text : String) {p p' : Plan}
    (hmodes : ∀ child, (p.visit child).mode = (p'.visit child).mode) (hp : p.KeepsMentions)
    (hp' : p'.KeepsMentions) (trees : List Tree) (u u' : SourceUnit) :
    ∃ ms, (visitAll text p trees u).mentions = u.mentions ++ ms ∧
      (visitAll text p' trees u').mentions = u'.mentions ++ ms := by
  match trees with
  | [] => exact ⟨[], (List.append_nil _).symm, (List.append_nil _).symm⟩
  | t :: rest =>
    rw [visitAll, visitAll]
    split
    · obtain ⟨ms, hms, hms'⟩ := mentions_visit_alike text (hmodes t) t u u'
      obtain ⟨ms₂, h₂, h₂'⟩ := mentions_visitAll_alike text hmodes hp hp' rest
        (p.settle t u (visit text (p.visit t) t u)) (p'.settle t u' (visit text (p'.visit t) t u'))
      rw [h₂, h₂', hp, hp', hms, hms']
      exact ⟨ms ++ ms₂, List.append_assoc _ _ _, List.append_assoc _ _ _⟩
    · exact mentions_visitAll_alike text hmodes hp hp' rest u u'

end

/-- The types that are mentioned at and below a node that is visited plainly. -/
def mentionsOf (text : String) (t : Tree) : List Mention := (visit text (.plain {}) t {}).mentions

theorem mentions_visit_plain (text : String) (c : Context) (t : Tree) (u : SourceUnit) :
    (visit text (.plain c) t u).mentions = u.mentions ++ mentionsOf text t := by
  have hmode : (Visit.plain c).mode = (Visit.plain {}).mode := rfl
  obtain ⟨ms, hms, hms'⟩ := mentions_visit_alike text hmode t u {}
  rw [mentionsOf, hms, hms']
  rfl

/-! ## Clauses -/

mutual

/-- The types written in an `extends` or `implements` clause or in the list of one, in order. -/
def clauseTypes : Tree → List Tree
  | .node _ children => clauseTypesAll children

def clauseTypesAll : List Tree → List Tree
  | [] => []
  | t :: rest =>
    (if t.isNamed then if t.is .typeList then clauseTypes t else [t] else []) ++ clauseTypesAll rest

end

/-- The types written in the clauses of a declaration, in order. -/
def Tree.supertypes (t : Tree) : List Tree :=
  (t.namedChildren.filter fun c =>
    [Phrase.superclass, .superInterfaces, .extendsInterfaces].any c.is &&
      (t.childInRole? .name).map Tree.label != some c.label).flatMap clauseTypes

/-- What each of some types mentions first. -/
def firstMentions (text : String) (types : List Tree) : List Mention :=
  types.filterMap fun t => (mentionsOf text t).head?

theorem firstMentions_append (text : String) (types more : List Tree) :
    firstMentions text (types ++ more) = firstMentions text types ++ firstMentions text more :=
  List.filterMap_append

theorem firstMentions_singleton (text : String) (t : Tree) :
    firstMentions text [t] = (mentionsOf text t).head?.toList := by
  rw [firstMentions, List.filterMap_cons]
  cases (mentionsOf text t).head? <;> rfl

/-- The numbers are those of the mentions. -/
def Refer (mentions : List Mention) (ks : List Nat) (ms : List Mention) : Prop :=
  List.Forall₂ (fun k m => mentions[k]? = some m) ks ms

theorem Refer.mono {mentions mentions' : List Mention} {ks : List Nat} {ms : List Mention}
    (h : Refer mentions ks ms) (hbefore : mentions <+: mentions') : Refer mentions' ks ms := by
  refine h.imp fun k m hk => ?_
  obtain ⟨hlt, rfl⟩ := List.getElem?_eq_some_iff.mp hk
  exact List.prefix_iff_getElem?.mp hbefore k hlt

theorem Refer.append {mentions : List Mention} {ks ks' : List Nat} {ms ms' : List Mention}
    (h : Refer mentions ks ms) (h' : Refer mentions ks' ms') :
    Refer mentions (ks ++ ks') (ms ++ ms') := List.rel_append h h'

theorem Refer.eq_nil {mentions : List Mention} {ks : List Nat} (h : Refer mentions ks []) : ks = [] :=
  List.forall₂_nil_right_iff.mp h

/-- The entry is of a declaration at one of the places, and notes what the types in its clauses
mention first. -/
def Notes (text : String) (places : List Place) (u : SourceUnit) (d : TypeDecl) : Prop :=
  ∃ p ∈ places, DeclaresType text p.node d ∧
    Refer u.mentions d.supertypes (firstMentions text p.node.supertypes)

/-- From one unit to a later one each entry gets the mentions that `given` says, and what is new is
of declarations at the places. -/
structure Supplies (text : String) (places : List Place) (given : Nat → List Mention)
    (u u' : SourceUnit) : Prop where
  mentions : u.mentions <+: u'.mentions
  length : u.types.length ≤ u'.types.length
  kept : ∀ (i : Nat) (d : TypeDecl), u.types[i]? = some d → ∃ d', u'.types[i]? = some d' ∧
    (∀ node, DeclaresType text node d → DeclaresType text node d') ∧
    ∃ ks, d'.supertypes = d.supertypes ++ ks ∧ Refer u'.mentions ks (given i)
  fresh : ∀ (i : Nat) (d : TypeDecl), u.types.length ≤ i → u'.types[i]? = some d →
    Notes text places u' d

section Supplies

variable {text : String} {places places' : List Place} {given given' : Nat → List Mention}
  {u u' u'' : SourceUnit}

theorem Notes.mono {d : TypeDecl} (h : Notes text places u d) (hplaces : places ⊆ places')
    (hbefore : u.mentions <+: u'.mentions) : Notes text places' u' d := by
  obtain ⟨p, hp, hdeclares, hrefer⟩ := h
  exact ⟨p, hplaces hp, hdeclares, hrefer.mono hbefore⟩

/-- What a declaration says apart from its members and type parameters. -/
def core (d : TypeDecl) : TypeDecl := { d with members := [], typeParams := [] }

theorem supplies_of_cores (text : String) (hcores : u'.types.map core = u.types.map core)
    (hmentions : u.mentions <+: u'.mentions) (places : List Place) :
    Supplies text places (fun _ => []) u u' where
  mentions := hmentions
  length := by
    have hlength := congrArg List.length hcores
    rw [List.length_map, List.length_map] at hlength
    exact Nat.le_of_eq hlength.symm
  kept i d hd := by
    have hcore : (u'.types.map core)[i]? = some (core d) := by
      rw [hcores, List.getElem?_map, hd, Option.map_some]
    rw [List.getElem?_map, Option.map_eq_some_iff] at hcore
    obtain ⟨d', hd', heq⟩ := hcore
    obtain ⟨hname, -, hkind, hspan, hnameSpan, -, -, -, -, hsupertypes, -⟩ := TypeDecl.mk.inj heq
    refine ⟨d', hd', fun node hnode => ?_, [], by rw [hsupertypes, List.append_nil],
      List.Forall₂.nil⟩
    exact ⟨hkind ▸ hnode.kind, hname ▸ hnameSpan ▸ hnode.name, hspan ▸ hnode.span⟩
  fresh i d hi hd := by
    have hlength := congrArg List.length hcores
    rw [List.length_map, List.length_map] at hlength
    exact absurd (List.getElem?_eq_some_iff.mp hd).1 (by omega)

theorem Supplies.trans (h : Supplies text places given u u')
    (h' : Supplies text places' given' u' u'') (hnew : ∀ i, u.types.length ≤ i → given' i = []) :
    Supplies text (places ++ places') (fun i => given i ++ given' i) u u'' where
  mentions := h.mentions.trans h'.mentions
  length := Nat.le_trans h.length h'.length
  kept i d hd := by
    obtain ⟨d', hd', hdeclares, ks, hks, hrefer⟩ := h.kept i d hd
    obtain ⟨d'', hd'', hdeclares', ks', hks', hrefer'⟩ := h'.kept i d' hd'
    refine ⟨d'', hd'', fun node hnode => hdeclares' node (hdeclares node hnode), ks ++ ks', ?_, ?_⟩
    · rw [hks', hks, List.append_assoc]
    · exact (hrefer.mono h'.mentions).append hrefer'
  fresh i d hi hd := by
    rcases Nat.lt_or_ge i u'.types.length with hlt | hge
    · obtain ⟨d'', hd'', hdeclares, ks, hks, hrefer⟩ :=
        h'.kept i _ (List.getElem?_eq_getElem hlt)
      obtain rfl := Option.some.inj (hd''.symm.trans hd)
      rw [hnew i hi] at hrefer
      obtain ⟨p, hp, hdeclares', hrefer'⟩ := h.fresh i _ hi (List.getElem?_eq_getElem hlt)
      refine ⟨p, List.mem_append_left _ hp, hdeclares _ hdeclares', ?_⟩
      rw [hks, hrefer.eq_nil, List.append_nil]
      exact hrefer'.mono h'.mentions
    · exact (h'.fresh i d hge hd).mono (List.subset_append_right _ _) (List.prefix_refl _)

theorem Supplies.congr (h : Supplies text places given u u') (hplaces : places ⊆ places')
    (hgiven : ∀ i, i < u.types.length → given i = given' i) : Supplies text places' given' u u' where
  mentions := h.mentions
  length := h.length
  kept i d hd := by
    rw [← hgiven i (List.getElem?_eq_some_iff.mp hd).1]
    exact h.kept i d hd
  fresh i d hi hd := (h.fresh i d hi hd).mono hplaces (List.prefix_refl _)

/-- The type declared at a place gets what the rest of the visit gives to it. -/
theorem Supplies.declared {d : TypeDecl} {p : Place}
    (h : Supplies text places given { u with types := u.types ++ [d] } u')
    (hd : DeclaresType text p.node d) (hnone : d.supertypes = [])
    (hown : given u.types.length = firstMentions text p.node.supertypes)
    (hothers : ∀ i, i < u.types.length → given i = []) :
    Supplies text (p :: places) (fun _ => []) u u' where
  mentions := h.mentions
  length := by
    have hlength := h.length
    rw [List.length_append] at hlength
    omega
  kept i d' hd' := by
    have hi : i < u.types.length := (List.getElem?_eq_some_iff.mp hd').1
    have hkept : (u.types ++ [d])[i]? = some d' := by rw [List.getElem?_append_left hi, hd']
    rw [← hothers i hi]
    exact h.kept i d' hkept
  fresh i d' hi hd' := by
    rcases Nat.eq_or_lt_of_le hi with rfl | hlt
    · obtain ⟨d'', hd'', hdeclares, ks, hks, hrefer⟩ := h.kept _ d List.getElem?_concat_length
      obtain rfl := Option.some.inj (hd''.symm.trans hd')
      rw [hnone, List.nil_append] at hks
      refine ⟨p, List.mem_cons_self, hdeclares _ hd, ?_⟩
      rwa [hks, ← hown]
    · have hlength : (u.types ++ [d]).length ≤ i := by
        rw [List.length_append]
        exact hlt
      exact (h.fresh i d' hlength hd').mono (List.subset_cons_self _ _) (List.prefix_refl _)

/-- What is noted after a type is what the visit of the type mentioned first. -/
theorem supplies_noteSupertype (text : String) {ms : List Mention}
    (hms : u'.mentions = u.mentions ++ ms) (owner : Nat) (places : List Place) :
    Supplies text places (fun i => if owner = i then ms.head?.toList else []) u'
      (noteSupertype owner u u') := by
  have hlengths : u'.typeRefs.length = u.typeRefs.length + ms.length := by
    have hlength := congrArg List.length hms
    rwa [List.length_append, SourceUnit.mentions, SourceUnit.mentions, List.length_map,
      List.length_map] at hlength
  rw [noteSupertype]
  cases ms with
  | nil =>
    rw [if_neg (by rw [hlengths, List.length_nil]; omega)]
    refine (supplies_of_cores text rfl (List.prefix_refl _) places).congr (List.Subset.refl _) ?_
    intro i _
    simp
  | cons m ms =>
    rw [if_pos (by rw [hlengths, List.length_cons]; omega)]
    have hfirst : u'.mentions[u.typeRefs.length]? = some m := by
      rw [hms, ← List.length_map TypeRef.mention]
      exact List.getElem?_append_right (Nat.le_refl _) |>.trans (by simp [SourceUnit.mentions])
    refine ⟨List.prefix_refl _, Nat.le_of_eq (List.length_modify _ _ _).symm, ?_, ?_⟩
    · intro i d hd
      have hmodify (f : TypeDecl → TypeDecl) :
          (u'.types.modify owner f)[i]? = some (if owner = i then f d else d) := by
        rw [List.getElem?_modify, hd]
        rfl
      refine ⟨_, hmodify _, ?_, ?_⟩
      · intro node hnode
        split <;> exact ⟨hnode.kind, hnode.name, hnode.span⟩
      · split
        · exact ⟨[u.typeRefs.length], rfl, .cons hfirst .nil⟩
        · exact ⟨[], (List.append_nil _).symm, .nil⟩
    · intro i d hi hd
      have hlt := (List.getElem?_eq_some_iff.mp hd).1
      rw [SourceUnit.modifyType, List.length_modify] at hlt
      exact absurd hlt (Nat.not_lt.mpr hi)

end Supplies

/-! ## Visits -/

def Visit.owner? : Visit → Option Nat
  | .superClause owner _ => some owner
  | _ => none

/-- How the types of a clause are visited. -/
def clausePlan (owner : Nat) (c : Context) : Plan where
  visit child := if child.is .typeList then .superClause owner c else .plain c
  settle child before after :=
    if child.is .typeList then after else noteSupertype owner before after

/-- What is done at a node: nothing that concerns supertypes, or a type is declared, or a clause is
gone through. -/
inductive Answer (text : String) (t : Tree) (u : SourceUnit) :
    Option Nat → SourceUnit × Plan → Prop
  | quiet {u' : SourceUnit} {visit : Tree → Visit} :
      u'.types.map core = u.types.map core → (∀ child, (visit child).owner? = none) →
      Answer text t u none (u', .of visit)
  | declares {d : TypeDecl} {outer inner : Context} : DeclaresType text t d → d.supertypes = [] →
      Answer text t u none ({ u with types := u.types ++ [d] },
        .of (exceptName t (typeParts t u.types.length outer inner)))
  | clause (owner : Nat) (c : Context) : Answer text t u (some owner) (u, clausePlan owner c)

section Answer

variable {u : SourceUnit} {visit : Tree → Visit}

theorem map_core_modifyType (u : SourceUnit) (i : Nat) {f : TypeDecl → TypeDecl}
    (hf : ∀ d, core (f d) = core d) : (u.modifyType i f).types.map core = u.types.map core := by
  refine List.ext_getElem? fun j => ?_
  rw [SourceUnit.modifyType, List.getElem?_map, List.getElem?_map, List.getElem?_modify]
  by_cases hj : i = j
  · cases u.types[j]? <;> simp [hj, hf]
  · simp [hj]

theorem map_core_addMembers (text : String) (t : Tree) (c : Context) (u : SourceUnit) :
    (addMembers text t c u).types.map core = u.types.map core := by
  rw [addMembers]
  split
  · rfl
  · rename_i owner _
    generalize membersOf text t = members
    induction members generalizing u with
    | nil => rfl
    | cons m members ih => exact (ih _).trans (map_core_modifyType u owner fun _ => rfl)

theorem owner?_exceptName (h : ∀ child, (visit child).owner? = none) (t child : Tree) :
    (exceptName t visit child).owner? = none := by
  rw [exceptName]
  split
  · rfl
  · exact h child

theorem owner?_plainParts (c : Context) (child : Tree) : (plainParts c child).owner? = none := by
  rw [plainParts]
  split <;> rfl

theorem owner?_callableParts (t : Tree) (c : Context) (child : Tree) :
    (callableParts t c child).owner? = none := by
  rw [callableParts]
  split
  · rfl
  · exact owner?_plainParts c child

theorem planPlain_answer (text : String) (t : Tree) (c : Context) (u : SourceUnit) :
    Answer text t u none (planPlain text t c u) := by
  have hmembers := map_core_addMembers text t c u
  unfold planPlain
  cases hkind : t.kind with
  | token | error => exact .quiet rfl fun _ => rfl
  | phrase p =>
    dsimp only
    cases htype : typeKind? p with
    | some kind =>
      dsimp only
      cases hname : t.childInRole? .name with
      | none => exact .quiet rfl fun _ => rfl
      | some n => exact .declares ⟨⟨p, hkind, htype⟩, ⟨n, hname, rfl, rfl⟩, rfl⟩ rfl
    | none =>
      dsimp only
      split
      case h_1 => split <;> exact .quiet rfl fun _ => rfl
      case h_3 | h_4 | h_5 =>
        exact .quiet hmembers (owner?_exceptName (owner?_callableParts t _) t)
      case h_6 | h_7 => exact .quiet hmembers (owner?_plainParts _)
      case h_8 =>
        refine .quiet hmembers fun child => ?_
        split <;> rfl
      case h_9 => exact .quiet hmembers (owner?_exceptName (owner?_plainParts _) t)
      case h_16 =>
        refine .quiet ?_ fun _ => rfl
        rw [SourceUnit.pushRef]
        split <;> rfl
      case h_17 =>
        refine .quiet ?_ fun _ => rfl
        split
        · rw [SourceUnit.pushRef]
          split <;> rfl
        · rfl
      case h_19 => exact .quiet rfl (owner?_exceptName (fun _ => rfl) t)
      all_goals exact .quiet rfl fun _ => rfl

theorem plan_answer (text : String) (v : Visit) (t : Tree) (u : SourceUnit) :
    Answer text t u v.owner? (plan text v t u) := by
  cases v with
  | skip | body c | typeParams scope owner c | components owner c => exact .quiet rfl fun _ => rfl
  | plain c => exact planPlain_answer text t c u
  | typeParam scope owner c =>
    simp only [plan]
    split
    · refine .quiet ?_ fun child => ?_
      · split
        · rfl
        · cases owner with
          | none => rfl
          | some i => exact map_core_modifyType u i fun _ => rfl
      · split <;> rfl
    · exact .quiet rfl fun _ => rfl
  | superClause owner c => exact .clause owner c
  | component owner c =>
    simp only [plan]
    split
    · refine .quiet ?_ fun child => ?_
      · cases componentOf? text t with
        | none => rfl
        | some m => exact map_core_modifyType u owner fun _ => rfl
      · split <;> rfl
    · exact planPlain_answer text t c u
  | argumentsWithin c =>
    simp only [plan]
    split
    · exact planPlain_answer text t c u
    · split <;> exact .quiet rfl fun _ => rfl

theorem owner?_typeParts (t : Tree) (index : Nat) (outer inner : Context) (child : Tree) :
    (typeParts t index outer inner child).owner? =
      if [Phrase.superclass, .superInterfaces, .extendsInterfaces].any child.is then some index
      else none := by
  have hother {p : Phrase} (hp : child.is p = true)
      (hno : [Phrase.superclass, .superInterfaces, .extendsInterfaces].contains p = false) :
      ¬ [Phrase.superclass, .superInterfaces, .extendsInterfaces].any child.is = true := by
    rw [Tree.any_is_of_phrase (beq_iff_eq.mp hp), hno]
    exact Bool.false_ne_true
  simp only [typeParts]
  split
  next hmodifiers =>
    rw [if_neg (hother hmodifiers rfl)]
    rfl
  next =>
    split
    next hparams =>
      rw [if_neg (hother hparams rfl)]
      rfl
    next =>
      split
      next => rfl
      next =>
        split
        · rfl
        · split <;> rfl

/-- The types in the clauses of a declaration are those that a visit notes for it. -/
theorem firstMentions_supertypes (text : String) (t : Tree) (index : Nat) (outer inner : Context) :
    (t.children.flatMap fun child =>
      if child.isNamed && (exceptName t (typeParts t index outer inner) child).owner? = some index then
        firstMentions text (clauseTypes child) else []) = firstMentions text t.supertypes := by
  have hchild (child : Tree) :
      decide ((exceptName t (typeParts t index outer inner) child).owner? = some index) =
        ([Phrase.superclass, .superInterfaces, .extendsInterfaces].any child.is &&
          (t.childInRole? .name).map Tree.label != some child.label) := by
    rw [exceptName, bne]
    split
    next hname =>
      rw [hname]
      simp [Visit.owner?]
    next hname =>
      rw [owner?_typeParts, Bool.not_eq_true _ |>.mp hname]
      split
      next hclause => simp [hclause]
      next hclause => simp [Bool.not_eq_true _ |>.mp hclause]
  simp only [hchild]
  rw [Tree.supertypes, Tree.namedChildren, List.filter_filter]
  induction t.children with
  | nil => rfl
  | cons child rest ih =>
    rw [List.flatMap_cons, ih, List.filter_cons, Bool.and_comm child.isNamed]
    split
    · rw [List.flatMap_cons, firstMentions_append]
    · rfl

theorem eq_of_owner?_exceptName (t : Tree) (index : Nat) (outer inner : Context) {child : Tree}
    {owner : Nat} (h : (exceptName t (typeParts t index outer inner) child).owner? = some owner) :
    owner = index := by
  rw [exceptName] at h
  split at h
  · cases h
  · rw [owner?_typeParts] at h
    split at h
    · exact (Option.some.inj h).symm
    · cases h

end Answer

mutual

theorem visit_supplies (text : String) (v : Visit) (t : Tree) (around : List Tree) (u : SourceUnit)
    (hv : ∀ owner, v.owner? = some owner → owner < u.types.length) :
    Supplies text (t.places around)
      (fun i => if v.owner? = some i then firstMentions text (clauseTypes t) else []) u
      (visit text v t u) := by
  match t with
  | .node l children =>
    have hanswer := plan_answer text v (.node l children) u
    obtain ⟨ms, hms, -⟩ := (plan_alike text (rfl : v.mode = v.mode) (.node l children) u u).added
    rw [visit, Tree.places, clauseTypes]
    generalize plan text v (.node l children) u = answer at hanswer hms
    generalize v.owner? = owner? at hanswer hv
    cases hanswer with
    | @quiet u' visit hcores hvisit =>
      have hrest := visitAll_supplies text visit children (.node l children :: around) u'
        fun child owner h => by rw [hvisit] at h; cases h
      have hfirst := supplies_of_cores text hcores ⟨ms, hms.symm⟩ [(⟨.node l children, around⟩ : Place)]
      refine (hfirst.trans hrest fun i _ => ?_).congr (List.Subset.refl _) fun i _ => ?_
      all_goals simp [hvisit]
    | @declares d outer inner hd hnone =>
      have hrest := visitAll_supplies text
        (exceptName (.node l children) (typeParts (.node l children) u.types.length outer inner))
        children (.node l children :: around) { u with types := u.types ++ [d] } fun child owner h => by
          rw [eq_of_owner?_exceptName _ _ _ _ h, List.length_append, List.length_singleton]
          exact Nat.lt_succ_self _
      refine (hrest.declared (p := ⟨.node l children, around⟩) hd hnone ?_ ?_).congr
        (List.Subset.refl _) fun i _ => ?_
      · exact firstMentions_supertypes text (.node l children) _ _ _
      · intro i hi
        refine List.flatMap_eq_nil_iff.mpr fun child _ => if_neg fun h => ?_
        rw [Bool.and_eq_true, decide_eq_true_iff] at h
        exact absurd (eq_of_owner?_exceptName _ _ _ _ h.2) (Nat.ne_of_lt hi)
      · simp
    | clause owner c =>
      have hrest := visitAll_clause_supplies text owner c children (.node l children :: around) u
        (hv owner rfl)
      refine hrest.congr (List.subset_cons_self _ _) fun i _ => ?_
      simp

theorem visitAll_supplies (text : String) (visit : Tree → Visit) (trees around : List Tree)
    (u : SourceUnit) (hv : ∀ child owner, (visit child).owner? = some owner → owner < u.types.length) :
    Supplies text (Tree.placesAll around trees)
      (fun i => trees.flatMap fun child =>
        if child.isNamed && (visit child).owner? = some i then firstMentions text (clauseTypes child)
        else []) u (visitAll text (.of visit) trees u) := by
  match trees with
  | [] =>
    rw [visitAll]
    exact supplies_of_cores text rfl (List.prefix_refl _) _
  | t :: rest =>
    rw [visitAll, Tree.placesAll]
    split
    next hnamed =>
      have hfirst := visit_supplies text (visit t) t around u fun owner h => hv t owner h
      have hrest := visitAll_supplies text visit rest around (Java.visit text (visit t) t u)
        fun child owner h => Nat.lt_of_lt_of_le (hv child owner h) hfirst.length
      refine (hfirst.trans hrest fun i hi => ?_).congr (List.Subset.refl _) fun i _ => ?_
      · refine List.flatMap_eq_nil_iff.mpr fun child _ => if_neg fun h => ?_
        rw [Bool.and_eq_true, decide_eq_true_iff] at h
        exact absurd (hv child i h.2) (Nat.not_lt.mpr hi)
      · rw [List.flatMap_cons, hnamed]
        simp
    next hnamed =>
      have hrest := visitAll_supplies text visit rest around u hv
      refine hrest.congr (List.subset_append_right _ _) fun i _ => ?_
      rw [List.flatMap_cons, Bool.not_eq_true _ |>.mp hnamed]
      simp

theorem visitAll_clause_supplies (text : String) (owner : Nat) (c : Context)
    (trees around : List Tree) (u : SourceUnit) (howner : owner < u.types.length) :
    Supplies text (Tree.placesAll around trees)
      (fun i => if owner = i then firstMentions text (clauseTypesAll trees) else []) u
      (visitAll text (clausePlan owner c) trees u) := by
  match trees with
  | [] =>
    rw [visitAll]
    refine (supplies_of_cores text rfl (List.prefix_refl _) _).congr (List.Subset.refl _) fun i _ => ?_
    simp [clauseTypesAll, firstMentions]
  | t :: rest =>
    rw [visitAll, Tree.placesAll, clauseTypesAll, firstMentions_append]
    split
    next hnamed =>
      have hfirst : Supplies text (t.places around)
          (fun i => if owner = i then
            firstMentions text (if t.is .typeList then clauseTypes t else [t]) else []) u
          ((clausePlan owner c).settle t u (visit text ((clausePlan owner c).visit t) t u)) := by
        by_cases hlist : t.is .typeList = true
        · have hvisit := visit_supplies text (.superClause owner c) t around u fun o ho =>
            Option.some.inj ho ▸ howner
          simp only [clausePlan, hlist, if_true]
          refine hvisit.congr (List.Subset.refl _) fun i _ => ?_
          simp [Visit.owner?]
        · have hvisit := visit_supplies text (.plain c) t around u fun o ho => nomatch ho
          have hnote := supplies_noteSupertype text (mentions_visit_plain text c t u) owner []
          simp only [clausePlan, hlist]
          refine (hvisit.trans hnote fun i hi => if_neg (by omega)).congr ?_ fun i _ => ?_
          · rw [List.append_nil]
            exact List.Subset.refl _
          · simp [Visit.owner?, firstMentions_singleton]
      have hrest := visitAll_clause_supplies text owner c rest around _
        (Nat.lt_of_lt_of_le howner hfirst.length)
      refine (hfirst.trans hrest fun i hi => ?_).congr (List.Subset.refl _) fun i _ => ?_
      · rw [if_neg (by omega)]
      · by_cases hi : owner = i <;> simp [hi]
    next hnamed =>
      have hrest := visitAll_clause_supplies text owner c rest around u howner
      exact hrest.congr (List.subset_append_right _ _) fun i _ => rfl

end

end Java

open Java in
/-- Whatever tree a unit was made from, the entry of each type notes, in order, what the types in the
clauses of its declaration mention first. -/
theorem SourceUnit.notes_ofTree (text : String) (root : Tree) (path : Path) (print : Fingerprint)
    (level : LanguageLevel) (diagnostics : List Diagnostic) :
    let u := ofTree text root path print level diagnostics
    ∀ d ∈ u.types, Notes text (root.places []) u d := by
  intro u d hd
  obtain ⟨i, hi⟩ := List.getElem?_of_mem hd
  have hsupplies := visit_supplies text (.plain {}) root []
    { path := path, fingerprint := print, languageLevel := level } fun owner h => nomatch h
  exact hsupplies.fresh i d (Nat.zero_le i) hi

end JavaAtlas
