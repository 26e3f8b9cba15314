import JavaAtlas.Proofs.Attribution.Scopes

/-!
# Where a local class is referred to

A local class is listed among the types declared in the type around it, and nothing tells the block it
stands in. So its name leads to it from all over that type. A reference outside the block is bound as
if the class were not there, unless its name leads there first.
-/

namespace JavaAtlas

set_option autoImplicit false

def TypeRef.head (r : TypeRef) : String := String.ofList (r.name.toList.takeWhile (· != '.'))

theorem TypeRef.head_of_simple {r : TypeRef} (h : r.isQualified = false) : r.head = r.name := by
  have hall : ∀ c ∈ r.name.toList, (c != '.') = true := by
    intro c hc
    rw [isQualified, List.contains_eq_mem, decide_eq_false_iff_not] at h
    exact bne_iff_ne.mpr fun heq => h (heq ▸ hc)
  rw [head, List.takeWhile_eq_self_iff.mpr hall, String.ofList_toList]

theorem TypeRef.splitFirst?_of_qualified {r : TypeRef} (h : r.isQualified = true) :
    ∃ rest, Text.splitFirst? '.' r.name = some (r.head, rest) := by
  rw [Text.splitFirst?]
  split
  next hnil =>
    rw [isQualified, List.contains_iff_mem] at h
    simpa using List.dropWhile_eq_nil_iff.mp hnil '.' h
  next after hafter => exact ⟨_, rfl⟩

section Modify

variable {α β : Type} {p : α → Bool} {f : α → α}

/-- Changing an element that is not searched for, before and after, changes no search. -/
theorem filter_modify {as : List α} {i : Nat}
    (h : ∀ a, as[i]? = some a → p a = false ∧ p (f a) = false) :
    (as.modify i f).filter p = as.filter p := by
  induction as generalizing i with
  | nil => rw [List.modify_nil]
  | cons a as ih =>
    cases i with
    | zero =>
      obtain ⟨hold, hnew⟩ := h a rfl
      simp [hold, hnew]
    | succ i =>
      have hrest := ih fun b hb => h b hb
      simp [List.filter_cons, hrest]

theorem findIdx?_modify {as : List α} {i : Nat} (h : ∀ a, as[i]? = some a → p (f a) = false)
    (hne : as.findIdx? p ≠ some i) : (as.modify i f).findIdx? p = as.findIdx? p := by
  induction as generalizing i with
  | nil => rw [List.modify_nil]
  | cons a as ih =>
    cases i with
    | zero =>
      rw [List.findIdx?_cons] at hne
      have hold : p a = false := Bool.eq_false_iff.mpr fun ha => hne (by rw [if_pos ha])
      rw [List.modify_zero_cons, List.findIdx?_cons, List.findIdx?_cons, h a rfl, hold]
    | succ i =>
      rw [List.modify_succ_cons, List.findIdx?_cons, List.findIdx?_cons]
      cases ha : p a with
      | true => rfl
      | false =>
        have hne : as.findIdx? p ≠ some i := fun heq => hne (by simp [List.findIdx?_cons, ha, heq])
        rw [ih (fun b hb => h b hb) hne]

theorem findSome?_eq_of_ne {g g' : α → Option β} {as : List α} {b : β}
    (h : ∀ a ∈ as, g a ≠ some b → g' a = g a) (hne : as.findSome? g ≠ some b) :
    as.findSome? g' = as.findSome? g := by
  induction as with
  | nil => rfl
  | cons a as ih =>
    rw [List.findSome?_cons] at hne
    have ha : g a ≠ some b := fun ha => hne (by rw [ha])
    rw [List.findSome?_cons, List.findSome?_cons, h a List.mem_cons_self ha]
    cases hga : g a with
    | some _ => rfl
    | none =>
      rw [hga] at hne
      exact ih (fun c hc => h c (List.mem_cons_of_mem a hc)) hne

end Modify

namespace SourceUnit

/-- The unit without local class `i`, which is declared nowhere any more. -/
def without (u : SourceUnit) (i : Nat) : SourceUnit :=
  u.modifyType i fun t => { t with parent := none }

/-- Every block around a declaration is around the range as well, the innermost one among them. -/
def SharesBlocks (u : SourceUnit) (t : TypeDecl) (span : Span) : Prop :=
  ∀ s ∈ u.scopes, s.kind = .block → s.span.Holds t.span → s.span.Holds span

instance (u : SourceUnit) (t : TypeDecl) (span : Span) : Decidable (u.SharesBlocks t span) :=
  inferInstanceAs (Decidable (∀ s ∈ u.scopes, _))

section Without

variable {u : SourceUnit} {ctx : TypeLookup} {i : Nat} {t : TypeDecl} {current : Option Nat}
  {name : String}

theorem types_without (u : SourceUnit) (i : Nat) :
    (u.without i).types = u.types.modify i fun t => { t with parent := none } := rfl

theorem getElem?_without_of_ne {j : Nat} (h : j ≠ i) : (u.without i).types[j]? = u.types[j]? := by
  rw [types_without, List.getElem?_modify]
  cases u.types[j]? <;> simp [Ne.symm h]

/-- Away from a class the way outwards does not meet it. -/
theorem enclosingFrom_without (haway : ∀ d, ¬ u.Around current i d) (fuel : Nat) :
    (u.without i).enclosingFrom fuel current = u.enclosingFrom fuel current := by
  induction fuel generalizing current with
  | zero => rfl
  | succ fuel ih =>
    cases current with
    | none => rfl
    | some j =>
      rw [enclosingFrom, enclosingFrom]
      cases ht : u.types[j]? with
      | none =>
        have hnone : (u.without i).types[j]? = none := by
          rw [types_without, List.getElem?_eq_none_iff, List.length_modify]
          exact List.getElem?_eq_none_iff.mp ht
        rw [hnone]
      | some t =>
        have hne : j ≠ i := by
          rintro rfl
          exact haway t (.innermost ht)
        rw [getElem?_without_of_ne hne, ht]
        exact congrArg ((j, t) :: ·) (ih fun d hd => haway d (.outer ht hd))

theorem enclosingTypes_without (haway : ∀ d, ¬ u.Around current i d) :
    (u.without i).enclosingTypes current = u.enclosingTypes current := by
  rw [enclosingTypes, types_without, List.length_modify]
  exact enclosingFrom_without haway u.types.length

/-- No search for visible types finds a local class. -/
theorem filter_visible_without (ht : u.types[i]? = some t) (hlocal : t.isLocal = true)
    (p : TypeDecl → Bool) :
    (u.without i).types.filter (fun d => !d.isLocal && p d) =
      u.types.filter fun d => !d.isLocal && p d := by
  refine filter_modify fun d hd => ?_
  obtain rfl := Option.some.inj (hd.symm.trans ht)
  simp [hlocal]

theorem typeByFqn?_without (ht : u.types[i]? = some t) (hlocal : t.isLocal = true) (fqn : String) :
    (u.without i).typeByFqn? fqn = u.typeByFqn? fqn := by
  rw [typeByFqn?, ← List.head?_filter, filter_visible_without ht hlocal, List.head?_filter]
  rfl

theorem childTypes_without (ht : u.types[i]? = some t) (hlocal : t.isLocal = true)
    (parent : Option Nat) : (u.without i).childTypes parent = u.childTypes parent :=
  filter_visible_without ht hlocal fun d => d.parent == parent

end Without

end SourceUnit

namespace Attribution

/-- The name of a reference leads to local class `i` from the type around it: no type further in, and
no earlier one in that type, has the name. -/
structure Captures (u : SourceUnit) (ctx : TypeLookup) (i : Nat) (t : TypeDecl) (r : TypeRef) :
    Prop where
  not_var : r.name ≠ "var"
  not_known : r.isQualified = true → known u ctx r.name = false
  not_parameter : ∀ p ∈ u.typeParams, p.name = r.head → p.scope.contains r.span.start = false
  name_eq : t.name = r.head
  first : ∃ inner j d outer, u.enclosingTypes r.enclosing = inner ++ (j, d) :: outer ∧
    t.parent = some j ∧ d.name ≠ r.head ∧ (∀ e ∈ inner, ¬ Offers u ctx r.head e.1 e.2) ∧
    ∀ k m, k < i → u.types[k]? = some m → m.parent = some j → m.name ≠ r.head

section Away

variable {u : SourceUnit} {ctx : TypeLookup} {i : Nat} {t : TypeDecl} {name : String}
  {enclosing : Option Nat} (ht : u.types[i]? = some t) (hlocal : t.isLocal = true)

include ht hlocal

theorem known_without (fqn : String) : known (u.without i) ctx fqn = known u ctx fqn := by
  rw [known, SourceUnit.typeByFqn?_without ht hlocal, known]

/-- Another type leads to the class if it is the type around it and declares no other class of the
name before. -/
theorem fromEnclosing?_eq_localType_iff {j : Nat} {d : TypeDecl} (hne : j ≠ i) :
    fromEnclosing? u ctx name j d = some (.localType i) ↔
      d.name ≠ name ∧ t.parent = some j ∧ t.name = name ∧
        ∀ k m, k < i → u.types[k]? = some m → m.parent = some j → m.name ≠ name := by
  rw [fromEnclosing?]
  by_cases hself : d.name = name
  · have hother : declared j d ≠ .localType i := fun h => hne (declared_eq_localType_iff.mp h).2
    simp [hself, hother]
  · rw [if_neg (by simpa using hself)]
    have hfirst : (u.types.findIdx? fun m => m.parent == some j && m.name == name) = some i ↔
        t.parent = some j ∧ t.name = name ∧
          ∀ k m, k < i → u.types[k]? = some m → m.parent = some j → m.name ≠ name := by
      obtain ⟨hi, rfl⟩ := List.getElem?_eq_some_iff.mp ht
      rw [List.findIdx?_eq_some_iff_getElem]
      constructor
      · rintro ⟨_, hboth, hbefore⟩
        rw [Bool.and_eq_true, beq_iff_eq, beq_iff_eq] at hboth
        refine ⟨hboth.1, hboth.2, fun k m hk hm hparent hname => ?_⟩
        obtain ⟨_, rfl⟩ := List.getElem?_eq_some_iff.mp hm
        exact hbefore k hk (by simp [hparent, hname])
      · rintro ⟨hparent, hname, hbefore⟩
        refine ⟨hi, by simp [hparent, hname], fun k hk hboth => ?_⟩
        rw [Bool.and_eq_true, beq_iff_eq, beq_iff_eq] at hboth
        exact hbefore k _ hk (List.getElem?_eq_getElem _) hboth.1 hboth.2
    rw [and_iff_right hself, ← hfirst]
    cases hfind : u.types.findIdx? fun m => m.parent == some j && m.name == name with
    | none =>
      refine iff_of_false ?_ (by simp)
      dsimp only
      split <;> simp
    | some k =>
      show (u.types[k]?).map (declared k) = _ ↔ _
      rw [Option.some_inj, Option.map_eq_some_iff]
      constructor
      · rintro ⟨m, -, hm⟩
        exact (declared_eq_localType_iff.mp hm).2
      · rintro rfl
        exact ⟨t, ht, declared_eq_localType_iff.mpr ⟨hlocal, rfl⟩⟩

theorem fromEnclosing?_without {j : Nat} {d : TypeDecl}
    (h : fromEnclosing? u ctx name j d ≠ some (.localType i)) :
    fromEnclosing? (u.without i) ctx name j d = fromEnclosing? u ctx name j d := by
  rw [fromEnclosing?] at h
  rw [fromEnclosing?, fromEnclosing?]
  split
  next => rfl
  next hself =>
    rw [if_neg hself] at h
    have hother : (u.types.findIdx? fun m => m.parent == some j && m.name == name) ≠ some i := by
      intro hfind
      rw [hfind] at h
      refine h ?_
      show (u.types[i]?).map (declared i) = _
      rw [ht, Option.map_some, declared_eq_localType_iff.mpr ⟨hlocal, rfl⟩]
    have hsame : ((u.without i).types.findIdx? fun m => m.parent == some j && m.name == name) =
        u.types.findIdx? fun m => m.parent == some j && m.name == name :=
      findIdx?_modify (fun d _ => rfl) hother
    rw [hsame]
    cases hfind : u.types.findIdx? fun m => m.parent == some j && m.name == name with
    | none => rfl
    | some k =>
      have hk : k ≠ i := fun heq => hother (heq ▸ hfind)
      simp only [SourceUnit.getElem?_without_of_ne hk]

theorem outer_without (haway : ∀ d, ¬ u.Around enclosing i d)
    (hne : ((u.enclosingTypes enclosing).findSome? fun e => fromEnclosing? u ctx name e.1 e.2) ≠
      some (.localType i)) :
    (((u.without i).enclosingTypes enclosing).findSome?
        fun e => fromEnclosing? (u.without i) ctx name e.1 e.2) =
      (u.enclosingTypes enclosing).findSome? fun e => fromEnclosing? u ctx name e.1 e.2 := by
  rw [SourceUnit.enclosingTypes_without haway]
  exact findSome?_eq_of_ne (fun e _ he => fromEnclosing?_without ht hlocal he) hne

/-- Where the name does not lead to the class, it is bound as if the class were not there. -/
theorem resolveSimple_without (haway : ∀ d, ¬ u.Around enclosing i d) {offset : Nat}
    (hne : resolveSimple u ctx name offset enclosing ≠ some (.localType i)) :
    resolveSimple (u.without i) ctx name offset enclosing =
      resolveSimple u ctx name offset enclosing := by
  have hknown : known (u.without i) ctx = known u ctx := funext (known_without ht hlocal)
  by_cases hparam : isTypeParameter u name offset = true
  · rw [resolveSimple, resolveSimple, if_pos hparam]
    exact if_pos hparam
  · rw [resolveSimple, if_neg hparam] at hne
    rw [resolveSimple, resolveSimple, if_neg hparam, if_neg (by exact hparam)]
    have houter : ((u.enclosingTypes enclosing).findSome? fun e => fromEnclosing? u ctx name e.1 e.2) ≠
        some (.localType i) := fun h => hne (by rw [h]; rfl)
    rw [outer_without ht hlocal haway houter, SourceUnit.childTypes_without ht hlocal, hknown,
      singleImport?, singleImport?, onDemandImport?, onDemandImport?, hknown]
    rfl

/-- A reference is captured exactly if its first segment is looked up and leads to the class. -/
theorem captures_iff (h : u.ParentsFirst) {r : TypeRef} (haway : ∀ d, ¬ u.Around r.enclosing i d) :
    Captures u ctx i t r ↔
      r.name ≠ "var" ∧ (r.isQualified = true → known u ctx r.name = false) ∧
        resolveSimple u ctx r.head r.span.start r.enclosing = some (.localType i) := by
  have haround {e : Nat × TypeDecl} (he : e ∈ u.enclosingTypes r.enclosing) : e.1 ≠ i := fun heq =>
    haway e.2 (heq ▸ (SourceUnit.mem_enclosingTypes_iff h r.enclosing e).mp he)
  rw [resolveSimple_eq_localType_iff, List.findSome?_eq_some_iff]
  constructor
  · rintro ⟨hvar, hunknown, hparam, hname, inner, j, d, outer, hsplit, hparent, hself, hinner, hfirst⟩
    have hmem : (j, d) ∈ u.enclosingTypes r.enclosing := hsplit ▸ by simp
    refine ⟨hvar, hunknown, Bool.eq_false_iff.mpr fun hp => ?_, inner, (j, d), outer, hsplit, ?_,
      fun e he => (fromEnclosing?_eq_none_iff e.1 e.2).mpr (hinner e he)⟩
    · obtain ⟨p, hp, hpname, hscope⟩ := (isTypeParameter_iff _).mp hp
      exact Bool.eq_false_iff.mp (hparam p hp hpname) hscope
    · exact (fromEnclosing?_eq_localType_iff ht hlocal (haround hmem)).mpr
        ⟨hself, hparent, hname, hfirst⟩
  · rintro ⟨hvar, hunknown, hparam, inner, ⟨j, d⟩, outer, hsplit, hfound, hinner⟩
    have hmem : (j, d) ∈ u.enclosingTypes r.enclosing := hsplit ▸ by simp
    obtain ⟨hself, hparent, hname, hfirst⟩ :=
      (fromEnclosing?_eq_localType_iff ht hlocal (haround hmem)).mp hfound
    refine ⟨hvar, hunknown, fun p hp hpname => Bool.eq_false_iff.mpr fun hscope => ?_, hname, inner, j,
      d, outer, hsplit, hparent, hself,
      fun e he => (fromEnclosing?_eq_none_iff e.1 e.2).mp (hinner e he), hfirst⟩
    exact Bool.eq_false_iff.mp hparam ((isTypeParameter_iff _).mpr ⟨p, hp, hpname, hscope⟩)

theorem resolve_of_captures (h : u.ParentsFirst) {r : TypeRef}
    (haway : ∀ d, ¬ u.Around r.enclosing i d) (hcaptures : Captures u ctx i t r) :
    resolve u ctx r = if r.isQualified then .unresolved else .localType i := by
  obtain ⟨hvar, hunknown, hfound⟩ := (captures_iff ht hlocal h haway).mp hcaptures
  cases hsimple : r.isQualified with
  | false =>
    rw [resolve_of_simple hsimple hvar, ← TypeRef.head_of_simple hsimple, hfound]
    rfl
  | true =>
    obtain ⟨rest, hsplit⟩ := TypeRef.splitFirst?_of_qualified hsimple
    simp [resolve, hvar, hsimple, hunknown hsimple, hsplit, hfound]

/-- Any other reference is bound as if the class were not there. -/
theorem resolve_without (h : u.ParentsFirst) {r : TypeRef}
    (haway : ∀ d, ¬ u.Around r.enclosing i d) (hfree : ¬ Captures u ctx i t r) :
    resolve (u.without i) ctx r = resolve u ctx r := by
  rw [captures_iff ht hlocal h haway] at hfree
  have hknown (fqn : String) : known (u.without i) ctx fqn = known u ctx fqn :=
    known_without ht hlocal fqn
  by_cases hvar : r.name = "var"
  · rw [resolve, resolve, if_pos hvar, if_pos hvar]
  · cases hsimple : r.isQualified with
    | false =>
      have hne : resolveSimple u ctx r.name r.span.start r.enclosing ≠ some (.localType i) := by
        rw [← TypeRef.head_of_simple hsimple]
        exact fun hfound => hfree ⟨hvar, by simp [hsimple], hfound⟩
      rw [resolve_of_simple hsimple hvar, resolve_of_simple hsimple hvar,
        resolveSimple_without ht hlocal haway hne]
    | true =>
      obtain ⟨rest, hsplit⟩ := TypeRef.splitFirst?_of_qualified hsimple
      cases hwhole : known u ctx r.name with
      | true => simp [resolve, hvar, hsimple, hknown, hwhole]
      | false =>
        have hne : resolveSimple u ctx r.head r.span.start r.enclosing ≠ some (.localType i) :=
          fun hfound => hfree ⟨hvar, fun _ => hwhole, hfound⟩
        simp [resolve, hvar, hsimple, hknown, hwhole, hsplit,
          resolveSimple_without ht hlocal haway hne]

/-- If a reference away from the class is bound to it, the class has captured it. -/
theorem captures_of_resolve (h : u.ParentsFirst) {r : TypeRef}
    (haway : ∀ d, ¬ u.Around r.enclosing i d) (hr : resolve u ctx r = .localType i) :
    r.isQualified = false ∧ Captures u ctx i t r := by
  obtain ⟨hsimple, hvar, -⟩ := of_resolve_eq_localType h hr
  refine ⟨hsimple, (captures_iff ht hlocal h haway).mpr ⟨hvar, by simp [hsimple], ?_⟩⟩
  rw [resolve_of_simple hsimple hvar] at hr
  rw [TypeRef.head_of_simple hsimple]
  cases hfound : resolveSimple u ctx r.name r.span.start r.enclosing with
  | none => simp [hfound] at hr
  | some found =>
    rw [hfound, Option.getD_some] at hr
    rw [hr]

end Away

/-- A reference respects local class `i`: only from inside the block of the class is it bound to it,
and from outside it is bound as if the class were not there. -/
structure Respects (u : SourceUnit) (ctx : TypeLookup) (i : Nat) (t : TypeDecl) (r : TypeRef) :
    Prop where
  inside : resolve u ctx r = .localType i → u.SharesBlocks t r.span
  outside : ¬ u.SharesBlocks t r.span → resolve u ctx r = resolve (u.without i) ctx r

/-- A capture from outside the block shows, unless a dotted name is not found either way. -/
structure Escapes (u : SourceUnit) (ctx : TypeLookup) (i : Nat) (t : TypeDecl) (r : TypeRef) :
    Prop where
  outside : ¬ u.SharesBlocks t r.span
  captures : Captures u ctx i t r
  shows : r.isQualified = true → resolve (u.without i) ctx r ≠ .unresolved

section Nested

variable {u : SourceUnit} {ctx : TypeLookup} {i : Nat} {t : TypeDecl} {r : TypeRef}
  (hu : u.outline.Nested Span.Holds) (hr : r ∈ u.typeRefs)

include hu

theorem exists_block (ht : u.types[i]? = some t) (hlocal : t.isLocal = true) :
    ∃ s ∈ u.scopes, s.kind = .block ∧ s.span.Holds t.span :=
  hu.inCode t.setting (List.mem_of_getElem? (SourceUnit.getElem?_outline ht)) hlocal

include hr

theorem holds_of_around (h : u.Around r.enclosing i t) : t.span.Holds r.span :=
  h.within hu (hu.enclosing r hr)

/-- Outside the block of a class there is nothing of the class. -/
theorem away_of_not_sharesBlocks (ht : u.types[i]? = some t) (hout : ¬ u.SharesBlocks t r.span)
    (d : TypeDecl) : ¬ u.Around r.enclosing i d := by
  intro haround
  obtain rfl := Option.some.inj (ht.symm.trans haround.getElem?)
  exact hout fun s _ _ hs => IsTrans.trans s.span t.span r.span hs (holds_of_around hu hr haround)

theorem respects_iff_not_escapes (ht : u.types[i]? = some t) (hlocal : t.isLocal = true) :
    Respects u ctx i t r ↔ ¬ Escapes u ctx i t r := by
  have hfirst := SourceUnit.parentsFirst_of_nested hu
  constructor
  · rintro ⟨hinside, houtside⟩ ⟨hout, hcaptures, hshows⟩
    have haway := away_of_not_sharesBlocks hu hr ht hout
    have hbound := resolve_of_captures ht hlocal hfirst haway hcaptures
    cases hsimple : r.isQualified with
    | false => exact hout (hinside (by rw [hbound, hsimple]; rfl))
    | true => exact hshows hsimple (by rw [← houtside hout, hbound, hsimple]; rfl)
  · intro hkept
    refine ⟨fun hbound => ?_, fun hout => ?_⟩
    · by_contra hout
      have haway := away_of_not_sharesBlocks hu hr ht hout
      obtain ⟨hsimple, hcaptures⟩ := captures_of_resolve ht hlocal hfirst haway hbound
      exact hkept ⟨hout, hcaptures, by simp [hsimple]⟩
    · have haway := away_of_not_sharesBlocks hu hr ht hout
      by_cases hcaptures : Captures u ctx i t r
      · have hlost : ¬ (r.isQualified = true → resolve (u.without i) ctx r ≠ .unresolved) :=
          fun hshows => hkept ⟨hout, hcaptures, hshows⟩
        rw [Classical.not_imp, ne_eq, not_not] at hlost
        rw [hlost.2, resolve_of_captures ht hlocal hfirst haway hcaptures, hlost.1]
        rfl
      · exact (resolve_without ht hlocal hfirst haway hcaptures).symm

/-- The name of a local class never leads to it from outside the type it is declared in. -/
theorem reach_of_resolve (hbound : resolve u ctx r = .localType i) (ht : u.types[i]? = some t) :
    t.span.Holds r.span ∨
      ∃ j d, t.parent = some j ∧ u.types[j]? = some d ∧ d.span.Holds r.span := by
  obtain ⟨-, -, t', ht', -, -, hplace⟩ :=
    of_resolve_eq_localType (SourceUnit.parentsFirst_of_nested hu) hbound
  obtain rfl := Option.some.inj (ht'.symm.trans ht)
  rcases hplace with haround | ⟨j, d, hparent, haround⟩
  · exact Or.inl (holds_of_around hu hr haround)
  · exact Or.inr ⟨j, d, hparent, haround.getElem?, holds_of_around hu hr haround⟩

end Nested

end Attribution

/-- Whatever tree a unit was made from, a local class stands in a block and never reaches beyond the
type around it. A reference respects the class exactly if the class does not capture it from outside
that block. -/
theorem SourceUnit.respects_localType {root : Java.Tree} (hroot : root.Nested Span.Holds)
    (text : String) (path : Path) (print : Fingerprint) (level : LanguageLevel)
    (diagnostics : List Diagnostic) (ctx : TypeLookup) {r : TypeRef} {i : Nat} {t : TypeDecl}
    (hr : r ∈ (ofTree text root path print level diagnostics).typeRefs)
    (ht : (ofTree text root path print level diagnostics).types[i]? = some t)
    (hlocal : t.isLocal = true) :
    let u := ofTree text root path print level diagnostics
    (∃ s ∈ u.scopes, s.kind = .block ∧ s.span.Holds t.span) ∧
      (Attribution.Respects u ctx i t r ↔ ¬ Attribution.Escapes u ctx i t r) ∧
      (Attribution.resolve u ctx r = .localType i → t.span.Holds r.span ∨
        ∃ j d, t.parent = some j ∧ u.types[j]? = some d ∧ d.span.Holds r.span) := by
  intro u
  have hu := nested_ofTree text hroot path print level diagnostics
  exact ⟨Attribution.exists_block hu ht hlocal,
    Attribution.respects_iff_not_escapes hu hr ht hlocal,
    fun hbound => Attribution.reach_of_resolve hu hr hbound ht⟩

namespace SourceUnit

/-- A class with a local class `H` in a method and a field of type `H`. -/
def fieldText : String := "class A { void f() { class H {} } H h; }"

def fieldTree : Java.Tree :=
  let phrase (p : Java.Phrase) (field : Option Java.Field) (start stop : Nat)
      (children : List Java.Tree) : Java.Tree :=
    .node { kind := .phrase p, field := field, span := .clamp start stop } children
  phrase .program none 0 40 [
    phrase .classDeclaration none 0 40 [
      phrase .identifier (some .name) 6 7 [],
      phrase .classBody (some .body) 8 40 [
        phrase .methodDeclaration none 10 33 [
          phrase .voidType (some .type) 10 14 [],
          phrase .identifier (some .name) 15 16 [],
          phrase .block (some .body) 19 33 [
            phrase .classDeclaration none 21 31 [
              phrase .identifier (some .name) 27 28 [],
              phrase .classBody (some .body) 29 31 []]]],
        phrase .fieldDeclaration none 34 38 [
          phrase .typeIdentifier (some .type) 34 35 [],
          phrase .variableDeclarator (some .declarator) 36 37 [
            phrase .identifier (some .name) 36 37 []]]]]]

/-- The field is bound to the local class, although there is another type of the name. -/
theorem respects_localType_field :
    fieldTree.Nested Span.Holds ∧
      let u := ofTree fieldText fieldTree ⟨"/A.java"⟩ default {} []
      let ctx : TypeLookup := ⟨fun fqn => fqn == "H", fun _ => false⟩
      let r : TypeRef := ⟨"H", .clamp 34 35, some 0⟩
      let t : TypeDecl := ⟨"H", "A.H", .classType, .clamp 21 31, .clamp 27 28, some 0, true, [], [], [], []⟩
      r ∈ u.typeRefs ∧ u.types[1]? = some t ∧ t.isLocal = true ∧
        Attribution.Escapes u ctx 1 t r ∧
        Attribution.resolve u ctx r = .localType 1 ∧
        Attribution.resolve (u.without 1) ctx r = .named "H" := by
  have hroot : fieldTree.Nested Span.Holds := by decide
  refine ⟨hroot, by decide, by decide, rfl, ?_, by decide, by decide⟩
  obtain ⟨-, hexact, -⟩ := respects_localType hroot fieldText ⟨"/A.java"⟩ default {} []
    ⟨fun fqn => fqn == "H", fun _ => false⟩ (r := ⟨"H", .clamp 34 35, some 0⟩) (i := 1)
    (t := ⟨"H", "A.H", .classType, .clamp 21 31, .clamp 27 28, some 0, true, [], [], [], []⟩)
    (by decide) (by decide) rfl
  by_contra hkept
  exact absurd ((hexact.mpr hkept).inside (by decide)) (by decide)

end SourceUnit

end JavaAtlas
