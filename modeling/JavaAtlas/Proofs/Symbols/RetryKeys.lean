import JavaAtlas.Proofs.Symbols.Bindings
import JavaAtlas.Proofs.Data.MultiMap
import JavaAtlas.Proofs.Text.Split

/-!
# The names by which a unit is tried again

A unit records names when imports or references cannot be bound. Later types are announced by their
simple names and packages by their names. Main statement: what makes a reference or an import of the
unit succeed is announced under a recorded name, with two exceptions. An on-demand import of the
members of a type records the dotted name of the type, and a static import of a member records the
member, where it is its owner that appears.
-/

namespace JavaAtlas

set_option autoImplicit false

namespace Attribution

def AddedType (before after : TypeLookup) (fqn : String) : Prop :=
  before.hasType fqn = false ∧ after.hasType fqn = true

def AddedPackage (before after : TypeLookup) (package : String) : Prop :=
  before.hasPackage package = false ∧ after.hasPackage package = true

/-- The names that `u` records when it is bound against `ctx`. -/
def recorded (u : SourceUnit) (ctx : TypeLookup) : List String :=
  SortedSet.toList (u.bindTypes ctx).unresolvedNames

/-- Something that the second lookup adds is announced under a name that `u` recorded. -/
def Heard (u : SourceUnit) (before after : TypeLookup) : Prop :=
  (∃ fqn, AddedType before after fqn ∧ Text.lastSegment fqn ∈ recorded u before) ∨
    ∃ package, AddedPackage before after package ∧ package ∈ recorded u before

/-- The types whose appearance makes an import succeed: the type imported, or the owner of a static
member. -/
def Supplies (i : Import) (fqn : String) : Prop :=
  fqn = i.path ∨ (i.onDemand = false ∧ i.isStatic = true ∧ Text.ownerOf? i.path = some fqn)

section Binding

variable {u : SourceUnit} {before after : TypeLookup}

theorem mem_recorded_iff (ctx : TypeLookup) (name : String) :
    name ∈ recorded u ctx ↔
      (∃ i ∈ u.imports, importExists u ctx i = false ∧ retryName i = name) ∨
        ∃ r ∈ u.typeRefs, resolve u ctx r = .unresolved ∧ r.simpleName = name := by
  have hset : name ∈ recorded u ctx ↔
      name ∈ (u.imports.filter fun i => !importExists u ctx i).map retryName ++
        (u.typeRefs.filter fun r => resolve u ctx r = .unresolved).map TypeRef.simpleName :=
    ⟨SortedSet.mem_of_mem_ofList, SortedSet.mem_ofList⟩
  rw [hset, List.mem_append, List.mem_map, List.mem_map]
  simp only [List.mem_filter, Bool.not_eq_true', decide_eq_true_eq, and_assoc]

/-! ## What makes a name known -/

theorem addedType_of_known {fqn : String} (hbefore : known u before fqn = false)
    (hafter : known u after fqn = true) : AddedType before after fqn := by
  rw [known, Bool.or_eq_false_iff] at hbefore
  rw [known, hbefore.1, Bool.false_or] at hafter
  exact ⟨hbefore.2, hafter⟩

/-- An import succeeds by a type, or on demand by a package. -/
theorem added_of_importExists {i : Import} (hbefore : importExists u before i = false)
    (hafter : importExists u after i = true) :
    (i.onDemand = true ∧ AddedPackage before after i.path) ∨
      ∃ fqn, Supplies i fqn ∧ AddedType before after fqn := by
  unfold importExists at hbefore hafter
  cases hdemand : i.onDemand with
  | true =>
    simp only [hdemand, if_true, Bool.or_eq_false_iff, Bool.or_eq_true] at hbefore hafter
    rcases hafter with hknown | hpackage
    · exact Or.inr ⟨i.path, Or.inl rfl, addedType_of_known hbefore.1 hknown⟩
    · exact Or.inl ⟨rfl, hbefore.2, hpackage⟩
  | false =>
    simp only [hdemand, Bool.false_eq_true, if_false, Bool.or_eq_false_iff, Bool.or_eq_true,
      Bool.and_eq_true] at hbefore hafter
    right
    rcases hafter with hknown | ⟨hstatic, howner⟩
    · exact ⟨i.path, Or.inl rfl, addedType_of_known hbefore.1 hknown⟩
    · obtain ⟨-, hunknown⟩ := hbefore
      rw [hstatic, Bool.true_and] at hunknown
      cases hpath : Text.ownerOf? i.path with
      | none =>
        rw [hpath] at howner
        simp at howner
      | some owner =>
        rw [hpath, Option.any_some] at hunknown howner
        exact ⟨owner, Or.inr ⟨hdemand, hstatic, hpath⟩, addedType_of_known hunknown howner⟩

theorem added_of_fromEnclosing? {name : String} {index : Nat} {t : TypeDecl} {r : Resolution}
    (hbefore : fromEnclosing? u before name index t = none)
    (hafter : fromEnclosing? u after name index t = some r) :
    AddedType before after (t.fqn ++ "." ++ name) := by
  unfold fromEnclosing? at hbefore hafter
  split at hafter
  next hname => simp [hname] at hbefore
  next hname =>
    simp only [hname, Bool.false_eq_true, if_false] at hbefore
    split at hafter
    next i hmember =>
      simp only [hmember] at hbefore
      rw [hbefore] at hafter
      simp at hafter
    next hnone =>
      simp only [hnone] at hbefore
      split at hafter
      next hknown =>
        rw [Bool.and_eq_true] at hknown
        simp only [hknown.1, Bool.true_and] at hbefore
        split at hbefore
        · simp at hbefore
        next hunknown => exact ⟨Bool.eq_false_iff.mpr hunknown, hknown.2⟩
      · simp at hafter

theorem added_of_singleImport? {name fqn : String} (hbefore : singleImport? u before name = none)
    (hafter : singleImport? u after name = some fqn) :
    AddedType before after fqn ∧ Text.lastSegment fqn = name := by
  obtain ⟨i, hfind, rfl⟩ := Option.map_eq_some_iff.mp hafter
  have hfound := List.find?_some hfind
  have hmissed := List.find?_eq_none.mp (Option.map_eq_none_iff.mp hbefore) i
    (List.mem_of_find?_eq_some hfind)
  simp only [Bool.and_eq_true, Bool.not_eq_true', beq_iff_eq] at hfound hmissed
  obtain ⟨⟨hsingle, hknown⟩, hname⟩ := hfound
  have hunknown : known u before i.path = false := by
    rw [Bool.eq_false_iff]
    exact fun hearlier => hmissed ⟨⟨hsingle, hearlier⟩, hname⟩
  exact ⟨addedType_of_known hunknown hknown, hname⟩

theorem guard_cases {b b' : Bool} {name fqn : String}
    (hbefore : (if b = true then some name else none) = none)
    (hafter : (if b' = true then some name else none) = some fqn) :
    b = false ∧ b' = true ∧ name = fqn := by
  cases b <;> cases b' <;> simp_all

theorem lastSegment_qualify (u : SourceUnit) {name : String} (hname : '.' ∉ name.toList) :
    Text.lastSegment (u.qualify name) = name := by
  unfold SourceUnit.qualify
  cases u.package with
  | none => exact Text.lastSegment_of_no_dot hname
  | some package => exact Text.lastSegment_append_dot package hname

/-- What is added to make a simple name bindable has that simple name. -/
theorem added_of_resolveSimple {name : String} (hname : '.' ∉ name.toList) {offset : Nat}
    {enclosing : Option Nat} {r : Resolution}
    (hbefore : resolveSimple u before name offset enclosing = none)
    (hafter : resolveSimple u after name offset enclosing = some r) :
    ∃ fqn, AddedType before after fqn ∧ Text.lastSegment fqn = name := by
  unfold resolveSimple at hbefore hafter
  split at hbefore
  · simp at hbefore
  next hparam =>
    simp only [hparam, Bool.false_eq_true, if_false, Option.or_eq_none_iff, Option.map_eq_none_iff]
      at hbefore hafter
    obtain ⟨houter, htop, hsingle, hsame, hdemand, hbuiltin⟩ := hbefore
    rcases Option.or_eq_some_iff.mp hafter with hafter | ⟨-, hafter⟩
    · obtain ⟨e, he, hfound⟩ := List.exists_of_findSome?_eq_some hafter
      have hnone := List.findSome?_eq_none_iff.mp houter e he
      exact ⟨_, added_of_fromEnclosing? hnone hfound, Text.lastSegment_append_dot _ hname⟩
    obtain ⟨fqn, hafter, -⟩ := Option.map_eq_some_iff.mp hafter
    rw [htop, Option.map_none, Option.none_or] at hafter
    refine ⟨fqn, ?_⟩
    rcases Option.or_eq_some_iff.mp hafter with himport | ⟨-, hafter⟩
    · exact added_of_singleImport? hsingle himport
    rcases Option.or_eq_some_iff.mp hafter with hpackage | ⟨-, hafter⟩
    · obtain ⟨hunknown, hknown, rfl⟩ := guard_cases hsame hpackage
      exact ⟨addedType_of_known hunknown hknown, lastSegment_qualify u hname⟩
    rcases Option.or_eq_some_iff.mp hafter with hondemand | ⟨-, hlang⟩
    · have hunknown := List.find?_eq_none.mp hdemand fqn (List.mem_of_find?_eq_some hondemand)
      obtain ⟨i, -, rfl⟩ := List.mem_map.mp (List.mem_of_find?_eq_some hondemand)
      exact ⟨addedType_of_known (Bool.eq_false_iff.mpr hunknown) (List.find?_some hondemand),
        Text.lastSegment_append_dot _ hname⟩
    · obtain ⟨hunknown, hknown, rfl⟩ := guard_cases hbuiltin hlang
      exact ⟨⟨hunknown, hknown⟩, Text.lastSegment_append_dot "java.lang" hname⟩

theorem declared_ne_unresolved (index : Nat) (t : TypeDecl) : declared index t ≠ .unresolved := by
  unfold declared
  split <;> simp

theorem fromEnclosing?_ne_unresolved (ctx : TypeLookup) (name : String) (index : Nat) (t : TypeDecl) :
    fromEnclosing? u ctx name index t ≠ some .unresolved := by
  intro h
  unfold fromEnclosing? at h
  split at h
  · exact declared_ne_unresolved index t (Option.some.inj h)
  · split at h
    next i hmember =>
      obtain ⟨m, -, hm⟩ := Option.map_eq_some_iff.mp h
      exact declared_ne_unresolved i m hm
    · split at h <;> simp at h

theorem resolveSimple_ne_unresolved (ctx : TypeLookup) (name : String) (offset : Nat)
    (enclosing : Option Nat) : resolveSimple u ctx name offset enclosing ≠ some .unresolved := by
  intro h
  unfold resolveSimple at h
  split at h
  · simp at h
  · rcases Option.or_eq_some_iff.mp h with houter | ⟨-, hnamed⟩
    · obtain ⟨e, -, hfound⟩ := List.exists_of_findSome?_eq_some houter
      exact fromEnclosing?_ne_unresolved ctx name e.1 e.2 hfound
    · obtain ⟨fqn, -, hfqn⟩ := Option.map_eq_some_iff.mp hnamed
      simp at hfqn

theorem added_of_resolve {r : TypeRef} (hsimple : r.isQualified = false)
    (hbefore : resolve u before r = .unresolved) (hafter : resolve u after r ≠ .unresolved) :
    ∃ fqn, AddedType before after fqn ∧ Text.lastSegment fqn = r.name := by
  have hname : '.' ∉ r.name.toList := by
    rwa [TypeRef.isQualified, List.contains_eq_mem, decide_eq_false_iff_not] at hsimple
  unfold resolve at hbefore hafter
  split at hbefore
  · simp at hbefore
  next hvar =>
    simp only [hvar, hsimple, if_false, Bool.not_false, if_true] at hbefore hafter
    cases hlater : resolveSimple u after r.name r.span.start r.enclosing with
    | none =>
      rw [hlater] at hafter
      exact absurd rfl hafter
    | some found =>
      cases hearlier : resolveSimple u before r.name r.span.start r.enclosing with
      | none => exact added_of_resolveSimple hname hearlier hlater
      | some resolution =>
        rw [hearlier, Option.getD_some] at hbefore
        exact absurd (hbefore ▸ hearlier) (resolveSimple_ne_unresolved before _ _ _)

end Binding

/-! ## What is recorded -/

/-- A simple reference that only the second lookup can bind has recorded the simple name of a type
that this lookup adds. An import that only the second lookup finds has recorded its key, and what
was added is announced under a recorded name, unless the import waits for a type whose simple name is
not the key. -/
theorem heard_of_bound (u : SourceUnit) (before after : TypeLookup) :
    (∀ r ∈ u.typeRefs, r.isQualified = false → resolve u before r = .unresolved →
      resolve u after r ≠ .unresolved → Heard u before after) ∧
    ∀ i ∈ u.imports, importExists u before i = false → importExists u after i = true →
      retryName i ∈ recorded u before ∧
      (Heard u before after ∨ ∃ fqn, AddedType before after fqn ∧ Text.lastSegment fqn ≠ retryName i ∧
        ((i.onDemand = true ∧ fqn = i.path) ∨
          (i.onDemand = false ∧ i.isStatic = true ∧ Text.ownerOf? i.path = some fqn))) := by
  constructor
  · intro r hr hsimple hbefore hafter
    obtain ⟨fqn, hadded, hname⟩ := added_of_resolve hsimple hbefore hafter
    have hkey : r.simpleName ∈ recorded u before :=
      (mem_recorded_iff before _).mpr (Or.inr ⟨r, hr, hbefore, rfl⟩)
    have hlast : r.simpleName = r.name := by
      rw [TypeRef.isQualified, List.contains_eq_mem, decide_eq_false_iff_not] at hsimple
      exact Text.lastSegment_of_no_dot hsimple
    exact Or.inl ⟨fqn, hadded, by rwa [hname, ← hlast]⟩
  · intro i hi hbefore hafter
    have hkey : retryName i ∈ recorded u before :=
      (mem_recorded_iff before _).mpr (Or.inl ⟨i, hi, hbefore, rfl⟩)
    refine ⟨hkey, ?_⟩
    rcases added_of_importExists hbefore hafter with ⟨hdemand, hpackage⟩ | ⟨fqn, hsupplies, hadded⟩
    · rw [retryName, if_pos hdemand] at hkey
      exact Or.inl (Or.inr ⟨i.path, hpackage, hkey⟩)
    · by_cases hsame : Text.lastSegment fqn = retryName i
      · exact Or.inl (Or.inl ⟨fqn, hadded, hsame ▸ hkey⟩)
      · refine Or.inr ⟨fqn, hadded, hsame, ?_⟩
        rcases hsupplies with rfl | hstatic
        · -- a single import is recorded by the simple name of the type it imports
          cases hdemand : i.onDemand with
          | true => exact Or.inl ⟨rfl, rfl⟩
          | false => exact absurd (by rw [retryName, hdemand]; rfl) hsame
        · exact Or.inr hstatic

/-- Two imports that wait for `a.B` do not hear of it, and a reference hears of the type it names. -/
theorem heard_of_bound_members :
    let u : SourceUnit := {
      imports := [⟨"a.B", false, true, default⟩, ⟨"a.B.member", true, false, default⟩]
      typeRefs := [⟨"E", default, none⟩] }
    let before : TypeLookup := ⟨fun _ => false, fun _ => false⟩
    let after : TypeLookup := ⟨fun fqn => fqn == "a.B", fun package => package == "a"⟩
    let later : TypeLookup := ⟨fun fqn => fqn == "E", fun _ => false⟩
    "a.B" ∈ recorded u before ∧ "member" ∈ recorded u before ∧ ¬ Heard u before after ∧
      Heard u before later := by
  intro u before after later
  have hdemand := (heard_of_bound u before after).2 ⟨"a.B", false, true, default⟩ (by simp [u]) rfl rfl
  have hstatic := (heard_of_bound u before after).2 ⟨"a.B.member", true, false, default⟩ (by simp [u])
    rfl rfl
  have hsimple := (heard_of_bound u before later).1 ⟨"E", default, none⟩ (by simp [u]) rfl rfl
  refine ⟨hdemand.1, hstatic.1, ?_, hsimple (by decide)⟩
  have hrecorded : recorded u before = ["E", "a.B", "member"] := rfl
  rintro (⟨fqn, ⟨-, hfqn⟩, hheard⟩ | ⟨package, ⟨-, hpackage⟩, hheard⟩)
  · rw [beq_iff_eq.mp hfqn, hrecorded] at hheard
    exact absurd hheard (by decide)
  · rw [beq_iff_eq.mp hpackage, hrecorded] at hheard
    exact absurd hheard (by decide)

end Attribution

end JavaAtlas
