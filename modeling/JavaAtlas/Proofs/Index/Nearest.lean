import JavaAtlas.Proofs.Index.Hierarchy

/-!
# The nearest methods

A call without a receiver leads to the methods of its name at the least number of edges above the
type around it. The search goes up level by level and remembers the types it has seen, so in a cycle
it ends, and where two ways lead up to one type its methods are given once. Only when no type above
has such a method does the call lead to all methods of the name.
-/

namespace JavaAtlas

set_option autoImplicit false

namespace Snapshot

variable {s : Snapshot}

def methodsOf (s : Snapshot) (name type : String) : List Symbol :=
  (s.membersOf type).filter fun m => m.kind == .method && m.name == name

theorem flatMap_methodsOf (name : String) (types : List String) :
    types.flatMap (s.methodsOf name) =
      (types.flatMap s.membersOf).filter fun m => m.kind == .method && m.name == name := by
  rw [List.filter_flatMap]
  rfl

theorem nearestMethods_eq (s : Snapshot) (owner name : String) :
    s.nearestMethods owner name =
      firstAnswer ((s.supertypeLayers [owner]).map fun types => types.flatMap (s.methodsOf name)) := by
  rw [nearestMethods, firstAnswer]
  simp only [flatMap_methodsOf]

/-- Whatever cycles there are, the search ends, and it ends at the least distance. -/
theorem Exact.nearest_nearestMethods (h : s.Exact) (owner name : String) :
    Searches s.supertypesOf (s.methodsOf name) [] [owner] (s.nearestMethods owner name) ∧
      Nearest (s.Above [owner]) (s.methodsOf name) (s.nearestMethods owner name) := by
  have hstart : ∀ t ∈ [owner],
      t ∈ [owner] ++ (s.entries.flatMap fun e => e.symbols.supertypes).map (·.supertype) :=
    fun t ht => List.mem_append_left _ ht
  have hbound : ([owner] ++ (s.entries.flatMap fun e => e.symbols.supertypes).map
      (·.supertype)).length < s.edgeCount + [owner].length + 1 := by
    rw [List.length_append, List.length_map, edgeCount]
    omega
  have hsearches := (h.confined_supertypes [owner]).searches_layers hstart hbound (s.methodsOf name)
  have hreach : Arrives s.supertypesOf [owner] = s.Above [owner] := by
    funext n t
    exact propext (h.arrives_supertypes_iff [owner] n t)
  rw [nearestMethods_eq, ← hreach]
  exact hsearches

theorem nodup_methodsOf_types {types : List String} (honce : types.Nodup)
    (hlists : ∀ t, s.Lists (s.IsMember t) Symbol.byPlace (s.membersOf t)) (name : String) :
    (types.flatMap (s.methodsOf name)).Nodup := by
  rw [flatMap_methodsOf]
  refine List.Nodup.filter _ (List.nodup_flatMap.mpr ⟨fun t _ => (hlists t).once, ?_⟩)
  refine honce.imp fun {t u} hne m hm hm' => ?_
  have ht := (((hlists t).mem_iff m).mp hm).2.2.1
  have hu := (((hlists u).mem_iff m).mp hm').2.2.1
  exact hne (Option.some.inj (ht.symm.trans hu))

/-- No method is found twice, however far up. -/
theorem nodup_of_nearest {owner name : String} {found : List Symbol}
    (h : Nearest (s.Above [owner]) (s.methodsOf name) found)
    (hlists : ∀ t, s.Lists (s.IsMember t) Symbol.byPlace (s.membersOf t)) : found.Nodup := by
  cases h with
  | nowhere _ => exact List.nodup_nil
  | level honce _ _ _ => exact nodup_methodsOf_types honce hlists name

/-- What a call at the offset leads to when nothing is declared or referred to there. -/
theorem declarationsAt_call {path : Path} {offset : Nat} {call : CallReference}
    (hdeclaration : s.declarationAt? path offset = none)
    (hreference : s.referenceAt? path offset = none) (hcall : s.callAt? path offset = some call) :
    s.declarationsAt path offset =
      match ((call.enclosing.or ((s.enclosingType? path offset).map (·.fqn))).map fun o =>
        s.nearestMethods o call.name).getD [] with
      | [] => (s.query call.name).filter fun m => m.kind == .method
      | found => found := by
  have hgoto := declarationsAt.eq_def s path offset
  rw [hdeclaration, hreference, hcall] at hgoto
  exact hgoto

/-- After any changes of the index, whatever cycles there are: the search upwards from a type ends;
it gives the methods of the name that the types at the least number of edges have, each of these
types once, and nothing exactly if no type above has any. Where symbols carry their positions and
name their files, each of these methods is given once. A call leads to what is found above the type
around it, and to all methods of its name only if there is none. -/
theorem calls_reach_nearest (changes : List IndexChange) :
    let s := applyAll {} changes
    (∀ owner name,
      Searches s.supertypesOf (s.methodsOf name) [] [owner] (s.nearestMethods owner name) ∧
      Nearest (s.Above [owner]) (s.methodsOf name) (s.nearestMethods owner name) ∧
      (s.nearestMethods owner name = [] ↔ ∀ n t, s.Above [owner] n t → s.methodsOf name t = []) ∧
      ((∀ change ∈ changes, change.Numbered) → (∀ change ∈ changes, change.Located) →
        (s.nearestMethods owner name).Nodup)) ∧
    ∀ path offset call, s.declarationAt? path offset = none → s.referenceAt? path offset = none →
      s.callAt? path offset = some call →
      let around := call.enclosing.or ((s.enclosingType? path offset).map (·.fqn))
      (∀ owner, around = some owner → (∃ n t, s.Above [owner] n t ∧ s.methodsOf call.name t ≠ []) →
        s.declarationsAt path offset = s.nearestMethods owner call.name) ∧
      ((∀ owner, around = some owner →
          ∀ n t, s.Above [owner] n t → s.methodsOf call.name t = []) →
        s.declarationsAt path offset = (s.query call.name).filter fun m => m.kind == .method) := by
  intro s
  have h : s.Exact := (exact_of_empty 0).applyAll changes
  constructor
  · intro owner name
    obtain ⟨hsearches, hnearest⟩ := h.nearest_nearestMethods owner name
    refine ⟨hsearches, hnearest, hnearest.eq_nil_iff, fun hnumbered hlocated => ?_⟩
    have hlists := h.lists_membersOf (numbered_applyAll hnumbered) (located_applyAll hlocated)
    exact nodup_of_nearest hnearest hlists
  · intro path offset call hdeclaration hreference hcall around
    have hgoto := declarationsAt_call hdeclaration hreference hcall
    have hnone (owner : String) := (h.nearest_nearestMethods owner call.name).2.eq_nil_iff
    constructor
    · rintro owner haround ⟨n, t, ht, hfound⟩
      have hne : s.nearestMethods owner call.name ≠ [] := fun hnil =>
        hfound ((hnone owner).mp hnil n t ht)
      rw [hgoto, show call.enclosing.or _ = some owner from haround, Option.map_some,
        Option.getD_some]
      split
      · contradiction
      · rfl
    · intro hnowhere
      have hnil : (around.map fun o => s.nearestMethods o call.name).getD [] = [] := by
        cases haround : around with
        | none => rfl
        | some owner => exact (hnone owner).mpr (hnowhere owner haround)
      rw [hgoto, hnil]

/-- `D` extends `B` and `C`, both of which extend `A`, and `A` extends `D`. A method `m` stands in `A`
and in `E`, which nothing extends. -/
def diamond : List IndexChange :=
  let path : Path := ⟨"/A.java"⟩
  let type (name : String) (ordinal : UInt32) : Symbol :=
    ⟨name, name, .type, some .classType, path, default, default, "class " ++ name, none, ordinal⟩
  let method (owner : String) (ordinal : UInt32) : Symbol :=
    ⟨owner ++ ".m", "m", .method, none, path, default, default, "m(): void", some owner, ordinal⟩
  [.upsert path default {
    symbols := [type "A" 0, method "A" 1, type "B" 2, type "C" 3, type "D" 4, type "E" 5,
      method "E" 6]
    calls := [⟨"m", .clamp 10 11, some "D"⟩, ⟨"m", .clamp 20 21, some "F"⟩]
    supertypes := [⟨"D", "B", true⟩, ⟨"D", "C", true⟩, ⟨"B", "A", true⟩, ⟨"C", "A", true⟩,
      ⟨"A", "D", true⟩] }]

theorem calls_reach_nearest_diamond :
    (∀ change ∈ diamond, change.Numbered) ∧ (∀ change ∈ diamond, change.Located) ∧
      let s := applyAll {} diamond
      (s.nearestMethods "D" "m").Nodup ∧ (s.nearestMethods "D" "m").map (·.fqn) = ["A.m"] ∧
        s.declarationsAt ⟨"/A.java"⟩ 10 = s.nearestMethods "D" "m" ∧
        s.declarationsAt ⟨"/A.java"⟩ 20 = (s.query "m").filter fun m => m.kind == .method := by
  have hnumbered : ∀ change ∈ diamond, change.Numbered := by decide
  have hlocated : ∀ change ∈ diamond, change.Located := by decide
  have hfound : ((applyAll {} diamond).nearestMethods "D" "m").map (·.fqn) = ["A.m"] := by cbv
  have hnothing : (applyAll {} diamond).nearestMethods "F" "m" = [] := by cbv
  have hplaces : ∀ n ∈ [10, 20], (applyAll {} diamond).declarationAt? ⟨"/A.java"⟩ n = none ∧
      (applyAll {} diamond).referenceAt? ⟨"/A.java"⟩ n = none := by decide
  have hcalls : (applyAll {} diamond).callAt? ⟨"/A.java"⟩ 10 =
        some ⟨"m", .clamp 10 11, some "D"⟩ ∧
      (applyAll {} diamond).callAt? ⟨"/A.java"⟩ 20 = some ⟨"m", .clamp 20 21, some "F"⟩ := by
    decide
  obtain ⟨hsearch, hgoto⟩ := calls_reach_nearest diamond
  have hat := hplaces 10 (by decide)
  have hat' := hplaces 20 (by decide)
  refine ⟨hnumbered, hlocated, (hsearch "D" "m").2.2.2 hnumbered hlocated, hfound, ?_, ?_⟩
  · refine (hgoto _ _ _ hat.1 hat.2 hcalls.1).1 "D" rfl ?_
    by_contra hno
    have hnil := (hsearch "D" "m").2.2.1.mpr fun n t ht => by
      by_contra hmethod
      exact hno ⟨n, t, ht, hmethod⟩
    rw [hnil] at hfound
    cases hfound
  · refine (hgoto _ _ _ hat'.1 hat'.2 hcalls.2).2 fun owner howner => ?_
    obtain rfl : "F" = owner := Option.some.inj howner
    exact (hsearch "F" "m").2.2.1.mp hnothing

end Snapshot

end JavaAtlas
