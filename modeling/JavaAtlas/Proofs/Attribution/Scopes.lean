import JavaAtlas.Proofs.Symbols.RetryKeys
import JavaAtlas.Proofs.Unit.Nesting

/-!
# What a name means at a place

A name without dots is looked for in one scope after another. It stays unbound exactly if none of
them has it, and what it is bound to exists: a type of the context, or one of the file that can be
seen from the place.
-/

namespace JavaAtlas

set_option autoImplicit false

namespace SourceUnit

variable {u : SourceUnit}

/-- Type number `i` is around a place whose innermost type is `current`. -/
inductive Around (u : SourceUnit) : Option Nat → Nat → TypeDecl → Prop
  | innermost {i : Nat} {t : TypeDecl} (ht : u.types[i]? = some t) : Around u (some i) i t
  | outer {i j : Nat} {t d : TypeDecl} (ht : u.types[i]? = some t) (hd : Around u t.parent j d) :
      Around u (some i) j d

theorem Around.getElem? {current : Option Nat} {i : Nat} {t : TypeDecl} (h : u.Around current i t) :
    u.types[i]? = some t := by
  induction h with
  | innermost ht => exact ht
  | outer _ _ ih => exact ih

/-- A type stands behind the one it is declared in. -/
def ParentsFirst (u : SourceUnit) : Prop :=
  ∀ (i : Nat) (t : TypeDecl), u.types[i]? = some t → ∀ p, t.parent = some p → p < i

theorem getElem?_outline {i : Nat} {t : TypeDecl} (h : u.types[i]? = some t) :
    u.outline.types[i]? = some t.setting := by
  show (u.types.map TypeDecl.setting)[i]? = _
  rw [List.getElem?_map, h, Option.map_some]

theorem parentsFirst_of_nested {R : SpanRel} (h : u.outline.Nested R) : u.ParentsFirst :=
  fun i t ht p hp => h.parent_lt i t.setting (getElem?_outline ht) p hp

/-- What lies in a type lies in all types around it. -/
theorem Around.within {R : SpanRel} [IsTrans Span R] (hu : u.outline.Nested R) {current : Option Nat}
    {i : Nat} {t : TypeDecl} {span : Span} (h : u.Around current i t)
    (hspan : u.outline.Within R current span) : R t.span span := by
  induction h with
  | innermost ht =>
    obtain ⟨_, hsetting, hin⟩ := hspan _ rfl
    obtain rfl := Option.some.inj ((getElem?_outline ht).symm.trans hsetting)
    exact hin
  | outer ht _ ih =>
    obtain ⟨_, hsetting, hin⟩ := hspan _ rfl
    obtain rfl := Option.some.inj ((getElem?_outline ht).symm.trans hsetting)
    exact ih ((hu.parent _ (List.mem_of_getElem? hsetting)).narrow hin)

/-- As parents stand first, the bound on the way outwards is never met. -/
theorem mem_enclosingFrom_iff (h : u.ParentsFirst) {fuel : Nat} {current : Option Nat}
    (hfuel : ∀ i t, current = some i → u.types[i]? = some t → i < fuel) (e : Nat × TypeDecl) :
    e ∈ u.enclosingFrom fuel current ↔ u.Around current e.1 e.2 := by
  induction fuel generalizing current with
  | zero =>
    refine ⟨fun he => by simp [enclosingFrom] at he, fun he => ?_⟩
    cases he with
    | innermost ht => exact absurd (hfuel _ _ rfl ht) (Nat.not_lt_zero _)
    | outer ht _ => exact absurd (hfuel _ _ rfl ht) (Nat.not_lt_zero _)
  | succ fuel ih =>
    cases current with
    | none =>
      refine ⟨fun he => by simp [enclosingFrom] at he, fun he => ?_⟩
      cases he
    | some i =>
      rw [enclosingFrom]
      cases ht : u.types[i]? with
      | none =>
        refine ⟨fun he => by simp at he, fun he => ?_⟩
        cases he with
        | innermost ht' => simp [ht] at ht'
        | outer ht' _ => simp [ht] at ht'
      | some t =>
        have hparent : ∀ p d, t.parent = some p → u.types[p]? = some d → p < fuel := fun p d hp _ =>
          Nat.lt_of_lt_of_le (h i t ht p hp) (Nat.le_of_lt_succ (hfuel i t rfl ht))
        rw [List.mem_cons, ih hparent]
        constructor
        · rintro (rfl | he)
          · exact .innermost ht
          · exact .outer ht he
        · intro he
          cases he with
          | innermost ht' => exact Or.inl (Prod.ext rfl (Option.some.inj (ht'.symm.trans ht)))
          | outer ht' hd =>
            obtain rfl := Option.some.inj (ht'.symm.trans ht)
            exact Or.inr hd

theorem mem_enclosingTypes_iff (h : u.ParentsFirst) (current : Option Nat) (e : Nat × TypeDecl) :
    e ∈ u.enclosingTypes current ↔ u.Around current e.1 e.2 :=
  mem_enclosingFrom_iff h (fun _ _ _ ht => (List.getElem?_eq_some_iff.mp ht).1) e

end SourceUnit

namespace Attribution

variable {u : SourceUnit} {ctx : TypeLookup} {name : String}

/-- Where type number `i` is around, `name` means something. -/
inductive Offers (u : SourceUnit) (ctx : TypeLookup) (name : String) (i : Nat) (t : TypeDecl) : Prop
  | itself (h : t.name = name)
  | nested (m : TypeDecl) (hm : m ∈ u.types) (hparent : m.parent = some i) (hname : m.name = name)
  | member (hvisible : t.isLocal = false) (h : ctx.hasType (t.fqn ++ "." ++ name) = true)

/-- Some scope has `name` at a place whose innermost type is `enclosing`. -/
inductive InScope (u : SourceUnit) (ctx : TypeLookup) (name : String) (offset : Nat)
    (enclosing : Option Nat) : Prop
  | typeParameter (p : TypeParam) (hp : p ∈ u.typeParams) (hname : p.name = name)
      (hscope : p.scope.contains offset = true)
  | around (i : Nat) (t : TypeDecl) (h : u.Around enclosing i t) (hoffers : Offers u ctx name i t)
  | topLevel (t : TypeDecl) (ht : t ∈ u.types) (hvisible : t.isLocal = false) (htop : t.parent = none)
      (hname : t.name = name)
  | singleImport (i : Import) (hi : i ∈ u.imports) (hsingle : i.onDemand = false)
      (hvalid : known u ctx i.path = true) (hname : Text.lastSegment i.path = name)
  | samePackage (h : known u ctx (u.qualify name) = true)
  | onDemand (i : Import) (hi : i ∈ u.imports) (hdemand : i.onDemand = true)
      (h : known u ctx (i.path ++ "." ++ name) = true)
  | javaLang (h : ctx.hasType ("java.lang." ++ name) = true)

theorem declared_found {i : Nat} {p : TypeDecl → Bool} (h : u.types.findIdx? p = some i) :
    ∃ m, u.types[i]? = some m ∧ p m = true := by
  obtain ⟨hlt, hm, -⟩ := List.findIdx?_eq_some_iff_getElem.mp h
  exact ⟨u.types[i], List.getElem?_eq_getElem hlt, hm⟩

theorem fromEnclosing?_eq_none_iff (i : Nat) (t : TypeDecl) :
    fromEnclosing? u ctx name i t = none ↔ ¬ Offers u ctx name i t := by
  rw [fromEnclosing?]
  by_cases hself : t.name = name
  · simpa [hself] using Offers.itself hself
  · rw [if_neg (by simpa using hself)]
    cases hfind : u.types.findIdx? fun m => m.parent == some i && m.name == name with
    | some j =>
      obtain ⟨m, hm, hboth⟩ := declared_found hfind
      rw [Bool.and_eq_true, beq_iff_eq, beq_iff_eq] at hboth
      simpa [hm] using Offers.nested m (List.mem_of_getElem? hm) hboth.1 hboth.2
    | none =>
      rw [List.findIdx?_eq_none_iff] at hfind
      by_cases hmember : t.isLocal = false ∧ ctx.hasType (t.fqn ++ "." ++ name) = true
      · simpa [hmember] using Offers.member hmember.1 hmember.2
      · have hnone : ¬ Offers u ctx name i t := by
          rintro (h | ⟨m, hm, hparent, hname⟩ | ⟨hvisible, h⟩)
          · exact hself h
          · simpa [hparent, hname] using hfind m hm
          · exact hmember ⟨hvisible, h⟩
        simpa [hnone] using hmember

theorem outer_eq_none_iff (h : u.ParentsFirst) (enclosing : Option Nat) :
    ((u.enclosingTypes enclosing).findSome? fun e => fromEnclosing? u ctx name e.1 e.2) = none ↔
      ∀ i t, u.Around enclosing i t → ¬ Offers u ctx name i t := by
  rw [List.findSome?_eq_none_iff]
  constructor
  · intro hnone i t haround
    rw [← fromEnclosing?_eq_none_iff]
    exact hnone (i, t) ((SourceUnit.mem_enclosingTypes_iff h enclosing (i, t)).mpr haround)
  · intro hnone e he
    rw [fromEnclosing?_eq_none_iff]
    exact hnone e.1 e.2 ((SourceUnit.mem_enclosingTypes_iff h enclosing e).mp he)

theorem guard_eq_none_iff (b : Bool) (fqn : String) : (if b then some fqn else none) = none ↔ b = false := by
  cases b <;> simp

theorem isTypeParameter_iff (offset : Nat) :
    isTypeParameter u name offset = true ↔
      ∃ p ∈ u.typeParams, p.name = name ∧ p.scope.contains offset = true := by
  rw [isTypeParameter, List.any_eq_true]
  simp

/-- A name without dots is left unbound exactly if no scope has it. -/
theorem resolveSimple_eq_none_iff (h : u.ParentsFirst) (offset : Nat) (enclosing : Option Nat) :
    resolveSimple u ctx name offset enclosing = none ↔ ¬ InScope u ctx name offset enclosing := by
  rw [resolveSimple]
  split
  next hparam =>
    obtain ⟨p, hp, hname, hscope⟩ := (isTypeParameter_iff offset).mp hparam
    simpa using InScope.typeParameter p hp hname hscope
  next hparam =>
    simp only [Option.or_eq_none_iff, Option.map_eq_none_iff, guard_eq_none_iff, outer_eq_none_iff h,
      singleImport?, onDemandImport?, List.find?_eq_none]
    constructor
    · rintro ⟨houter, htop, hsingle, hpackage, hdemand, hlang⟩ hin
      cases hin with
      | typeParameter p hp hname hscope =>
        exact hparam ((isTypeParameter_iff offset).mpr ⟨p, hp, hname, hscope⟩)
      | around i t haround hoffers => exact houter i t haround hoffers
      | topLevel t ht hvisible hparent hname =>
        have hchild : t ∈ u.childTypes none :=
          List.mem_filter.mpr ⟨ht, by rw [hvisible, hparent]; rfl⟩
        exact htop t hchild (beq_iff_eq.mpr hname)
      | singleImport i hi hsingle' hvalid hname =>
        exact hsingle i hi (by rw [hsingle', hvalid, hname, beq_self_eq_true]; rfl)
      | samePackage hknown => exact absurd hknown (by rw [hpackage]; exact Bool.false_ne_true)
      | onDemand i hi hdemand' hknown =>
        refine hdemand _ (List.mem_map.mpr ⟨i, List.mem_filter.mpr ⟨hi, hdemand'⟩, rfl⟩) hknown
      | javaLang hbuiltin => exact absurd hbuiltin (by rw [hlang]; exact Bool.false_ne_true)
    · intro hout
      refine ⟨fun i t haround hoffers => hout (.around i t haround hoffers), fun t ht hname => ?_,
        fun i hi himport => ?_, ?_, fun fqn hfqn hknown => ?_, ?_⟩
      · obtain ⟨hmem, hboth⟩ := List.mem_filter.mp ht
        rw [Bool.and_eq_true, Bool.not_eq_true', beq_iff_eq] at hboth
        exact hout (.topLevel t hmem hboth.1 hboth.2 (beq_iff_eq.mp hname))
      · simp only [Bool.and_eq_true, Bool.not_eq_true', beq_iff_eq] at himport
        exact hout (.singleImport i hi himport.1.1 himport.1.2 himport.2)
      · exact Bool.eq_false_iff.mpr fun hknown => hout (.samePackage hknown)
      · obtain ⟨i, hi, rfl⟩ := List.mem_map.mp hfqn
        obtain ⟨hi, hdemand⟩ := List.mem_filter.mp hi
        exact hout (.onDemand i hi hdemand hknown)
      · exact Bool.eq_false_iff.mpr fun hbuiltin => hout (.javaLang hbuiltin)

/-! ## What a reference is bound to -/

theorem declared_eq_localType_iff {i j : Nat} {t : TypeDecl} :
    declared j t = .localType i ↔ t.isLocal = true ∧ j = i := by
  rw [declared]
  split <;> simp_all

/-- A type around a place leads to a local class only if it is the class or the type around it. -/
theorem of_fromEnclosing?_eq_localType {i j : Nat} {d : TypeDecl} (hd : u.types[j]? = some d)
    (h : fromEnclosing? u ctx name j d = some (.localType i)) :
    ∃ t, u.types[i]? = some t ∧ t.isLocal = true ∧ t.name = name ∧ (i = j ∨ t.parent = some j) := by
  rw [fromEnclosing?] at h
  split at h
  next hname =>
    obtain ⟨hlocal, rfl⟩ := declared_eq_localType_iff.mp (Option.some.inj h)
    exact ⟨d, hd, hlocal, beq_iff_eq.mp hname, Or.inl rfl⟩
  next =>
    split at h
    next m hfind =>
      obtain ⟨t, ht, hboth⟩ := declared_found hfind
      rw [ht, Option.map_some, Option.some_inj, declared_eq_localType_iff] at h
      obtain ⟨hlocal, rfl⟩ := h
      rw [Bool.and_eq_true, beq_iff_eq, beq_iff_eq] at hboth
      exact ⟨t, ht, hlocal, hboth.2, Or.inr hboth.1⟩
    next => split at h <;> simp at h

/-- Only the types around a place lead to local classes. -/
theorem resolveSimple_eq_localType_iff {offset i : Nat} {enclosing : Option Nat} :
    resolveSimple u ctx name offset enclosing = some (.localType i) ↔
      isTypeParameter u name offset = false ∧
        ((u.enclosingTypes enclosing).findSome? fun e => fromEnclosing? u ctx name e.1 e.2) =
          some (.localType i) := by
  rw [resolveSimple]
  cases hparam : isTypeParameter u name offset with
  | true => simp
  | false =>
    rw [if_neg Bool.false_ne_true, and_iff_right rfl]
    refine ⟨fun h => ?_, fun h => by rw [h]; rfl⟩
    rcases Option.or_eq_some_iff.mp h with houter | ⟨-, hnamed⟩
    · exact houter
    · obtain ⟨_, -, heq⟩ := Option.map_eq_some_iff.mp hnamed
      cases heq

theorem resolve_of_simple {r : TypeRef} (hsimple : r.isQualified = false) (hvar : r.name ≠ "var") :
    resolve u ctx r = (resolveSimple u ctx r.name r.span.start r.enclosing).getD .unresolved := by
  rw [resolve, if_neg hvar, hsimple]
  rfl

/-- A local class is referred to by its own name, and only from inside it or the type around it. -/
theorem of_resolve_eq_localType (h : u.ParentsFirst) {r : TypeRef} {i : Nat}
    (hr : resolve u ctx r = .localType i) :
    r.isQualified = false ∧ r.name ≠ "var" ∧
      ∃ t, u.types[i]? = some t ∧ t.isLocal = true ∧ t.name = r.name ∧
        (u.Around r.enclosing i t ∨ ∃ j d, t.parent = some j ∧ u.Around r.enclosing j d) := by
  have hvar : r.name ≠ "var" := fun hvar => by simp [resolve, hvar] at hr
  cases hsimple : r.isQualified with
  | true =>
    simp only [resolve, if_neg hvar, hsimple, Bool.not_true, Bool.false_eq_true, if_false] at hr
    split at hr
    · cases hr
    · split at hr
      · cases hr
      · split at hr
        · split at hr <;> cases hr
        · cases hr
  | false =>
    refine ⟨rfl, hvar, ?_⟩
    rw [resolve_of_simple hsimple hvar] at hr
    cases hfound : resolveSimple u ctx r.name r.span.start r.enclosing with
    | none => simp [hfound] at hr
    | some found =>
      rw [hfound, Option.getD_some] at hr
      obtain ⟨-, houter⟩ := resolveSimple_eq_localType_iff.mp (hr ▸ hfound)
      obtain ⟨e, he, hoffered⟩ := List.exists_of_findSome?_eq_some houter
      have haround := (SourceUnit.mem_enclosingTypes_iff h r.enclosing e).mp he
      obtain ⟨t, ht, hlocal, hname, hplace⟩ := of_fromEnclosing?_eq_localType haround.getElem? hoffered
      refine ⟨t, ht, hlocal, hname, ?_⟩
      rcases hplace with rfl | hparent
      · obtain rfl := Option.some.inj (haround.getElem?.symm.trans ht)
        exact Or.inl haround
      · exact Or.inr ⟨e.1, e.2, hparent, haround⟩

theorem known_iff (fqn : String) :
    known u ctx fqn = true ↔
      (∃ t ∈ u.types, t.isLocal = false ∧ t.fqn = fqn) ∨ ctx.hasType fqn = true := by
  rw [known, Bool.or_eq_true, SourceUnit.typeByFqn?, List.find?_isSome]
  simp

/-- A reference without dots is unbound exactly if no scope has its name. -/
theorem resolve_eq_unresolved_iff (h : u.ParentsFirst) {r : TypeRef} (hsimple : r.isQualified = false) :
    resolve u ctx r = .unresolved ↔
      r.name ≠ "var" ∧ ¬ InScope u ctx r.name r.span.start r.enclosing := by
  by_cases hvar : r.name = "var"
  · simp [resolve, hvar]
  · rw [resolve_of_simple hsimple hvar, ← resolveSimple_eq_none_iff h, and_iff_right hvar]
    cases hfound : resolveSimple u ctx r.name r.span.start r.enclosing with
    | none => simp
    | some found =>
      have hne : found ≠ .unresolved := fun heq =>
        resolveSimple_ne_unresolved ctx r.name r.span.start r.enclosing (heq ▸ hfound)
      simp [hne]

end Attribution

end JavaAtlas
