import JavaAtlas.Data.SortedSet
import JavaAtlas.Proofs.Data.SortedMap

/-!
# Sorted sets, and maps to such sets

A `MultiMap` that never holds an empty set represents a relation between keys and values, and the
relation determines the map. Linking and unlinking are described by what they do to the relation.
Values that compare equal without being equal would displace each other, so both need a relation in
which that does not happen.
-/

namespace JavaAtlas

set_option autoImplicit false

universe u v

open Std (TransOrd TransCmp OrientedCmp ReflCmp LawfulEqOrd)

namespace SortedSet

variable {α : Type u} [Ord α]

theorem mem_toList_iff (s : SortedSet α) (a : α) : a ∈ s.toList ↔ (a, ()) ∈ s.entries := by
  rw [toList, SortedMap.mem_keys_iff]
  exact ⟨fun ⟨(), h⟩ => h, fun h => ⟨(), h⟩⟩

theorem contains_iff_exists_mem [TransOrd α] {s : SortedSet α} {a : α} :
    s.contains a = true ↔ ∃ b ∈ s.toList, compare a b = .eq := by
  rw [SortedMap.contains_iff]
  constructor
  · rintro ⟨⟨b, _⟩, hb, h⟩
    exact ⟨b, (mem_toList_iff s b).mpr hb, h⟩
  · rintro ⟨b, hb, h⟩
    exact ⟨(b, ()), (mem_toList_iff s b).mp hb, h⟩

theorem contains_add [TransOrd α] (s : SortedSet α) (a b : α) :
    (add s a).contains b = (compare b a == .eq || s.contains b) := by
  rw [add]
  split
  next h =>
    by_cases hab : compare b a = .eq
    · simp [hab, SortedMap.contains_congr s hab, h]
    · simp [hab]
  next => exact SortedMap.contains_insert s a b ()

theorem contains_addAll [TransOrd α] (s : SortedSet α) (as : List α) (b : α) :
    (addAll s as).contains b = (s.contains b || as.any fun a => compare b a == .eq) := by
  induction as generalizing s with
  | nil => simp [addAll]
  | cons a as ih =>
    have := ih (add s a)
    simp only [addAll, List.foldl_cons] at this ⊢
    rw [this, contains_add, List.any_cons]
    cases s.contains b <;> cases compare b a == .eq <;> simp

theorem contains_ofList [TransOrd α] (as : List α) (b : α) :
    (ofList as).contains b = as.any fun a => compare b a == .eq := by
  rw [ofList, contains_addAll]
  rfl

theorem exists_mem_ofList [TransOrd α] {as : List α} {a : α} (h : a ∈ as) :
    ∃ b ∈ (ofList as).toList, compare a b = .eq := by
  rw [← contains_iff_exists_mem, contains_ofList, List.any_eq_true]
  exact ⟨a, h, by simp [ReflCmp.compare_self]⟩

theorem mem_ofList [TransOrd α] [LawfulEqOrd α] {as : List α} {a : α} (h : a ∈ as) :
    a ∈ (ofList as).toList := by
  obtain ⟨b, hb, hc⟩ := exists_mem_ofList h
  rwa [LawfulEqOrd.eq_of_compare hc]

theorem mem_add {s : SortedSet α} [TransOrd α] {a b : α} (h : b ∈ (add s a).toList) :
    b = a ∨ b ∈ s.toList := by
  rw [add] at h
  split at h
  · exact Or.inr h
  · rw [mem_toList_iff, SortedMap.mem_insert_iff] at h
    rcases h with h | ⟨h, _⟩
    · exact Or.inl (Prod.mk.inj h).1
    · exact Or.inr ((mem_toList_iff s b).mpr h)

theorem mem_add_iff [TransOrd α] [LawfulEqOrd α] (s : SortedSet α) (a b : α) :
    b ∈ (add s a).toList ↔ b = a ∨ b ∈ s.toList := by
  refine ⟨mem_add, fun h => ?_⟩
  have hcontains : (add s a).contains b = true := by
    rw [contains_add, Bool.or_eq_true]
    rcases h with rfl | h
    · exact Or.inl (by simp [ReflCmp.compare_self])
    · exact Or.inr (contains_iff_exists_mem.mpr ⟨b, h, ReflCmp.compare_self⟩)
  obtain ⟨c, hc, heq⟩ := contains_iff_exists_mem.mp hcontains
  rwa [LawfulEqOrd.eq_of_compare heq]

theorem mem_addAll [TransOrd α] {s : SortedSet α} {as : List α} {b : α}
    (h : b ∈ (addAll s as).toList) : b ∈ s.toList ∨ b ∈ as := by
  induction as generalizing s with
  | nil => exact Or.inl h
  | cons a as ih =>
    rcases ih (s := add s a) h with h | h
    · rcases mem_add h with rfl | h
      · exact Or.inr List.mem_cons_self
      · exact Or.inl h
    · exact Or.inr (List.mem_cons_of_mem a h)

theorem mem_of_mem_ofList [TransOrd α] {as : List α} {b : α} (h : b ∈ (ofList as).toList) :
    b ∈ as := by
  rcases mem_addAll h with h | h
  · exact absurd h (by simp [toList, SortedMap.keys, EmptyCollection.emptyCollection])
  · exact h

/-- Where elements that compare equal are equal, none is displaced. -/
theorem mem_ofList_iff [TransOrd α] {as : List α}
    (h : ∀ a ∈ as, ∀ b ∈ as, compare a b = .eq → a = b) (a : α) :
    a ∈ (ofList as).toList ↔ a ∈ as := by
  refine ⟨mem_of_mem_ofList, fun ha => ?_⟩
  obtain ⟨b, hb, hc⟩ := exists_mem_ofList ha
  rwa [h a ha b (mem_of_mem_ofList hb) hc]

theorem mem_toList_erase_iff [TransOrd α] (s : SortedSet α) (a b : α) :
    b ∈ toList (s.erase a) ↔ b ∈ s.toList ∧ compare a b ≠ .eq := by
  rw [mem_toList_iff, mem_toList_iff, SortedMap.mem_erase_iff]

end SortedSet

namespace MultiMap

variable {κ : Type u} {α : Type v} [Ord κ] [Ord α]

theorem increasing_lookup (m : MultiMap κ α) (k : κ) :
    (lookup m k).Pairwise fun a b => compare a b = .lt := by
  rw [lookup]
  split
  next s _ => exact s.increasing_keys
  next => exact .nil

/-- The values under each key are exactly those related to it, and no key has none. -/
structure Represents (m : MultiMap κ α) (r : κ → α → Prop) : Prop where
  mem_iff : ∀ k a, a ∈ lookup m k ↔ r k a
  nonempty : ∀ e ∈ m.entries, e.2.entries ≠ []

/-- Among the values of one key, those that compare equal are equal. -/
def Separated (r : κ → α → Prop) : Prop :=
  ∀ k a b, r k a → r k b → compare a b = .eq → a = b

theorem represents_empty : Represents (∅ : MultiMap κ α) fun _ _ => False :=
  ⟨fun _ _ => by simp [lookup, EmptyCollection.emptyCollection],
    fun _ h => by simp [EmptyCollection.emptyCollection] at h⟩

theorem Represents.congr {m : MultiMap κ α} {r r' : κ → α → Prop} (h : Represents m r)
    (hr : ∀ k a, r k a ↔ r' k a) : Represents m r' :=
  ⟨fun k a => (h.mem_iff k a).trans (hr k a), h.nonempty⟩

theorem mem_entries_alter [TransOrd κ] {m : MultiMap κ α} {k : κ}
    {f : Option (SortedSet α) → Option (SortedSet α)} {e : κ × SortedSet α}
    (he : e ∈ (m.alter k f).entries) : e ∈ m.entries ∨ f (m.get? k) = some e.2 := by
  rw [SortedMap.alter] at he
  split at he
  next v hv =>
    rcases (SortedMap.mem_insert_iff m k v e).mp he with rfl | ⟨he, _⟩
    · exact Or.inr hv
    · exact Or.inl he
  next => exact Or.inl ((SortedMap.mem_erase_iff m k e).mp he).1

theorem mem_lookup_of_mem [TransOrd κ] {m : MultiMap κ α} {e : κ × SortedSet α}
    (he : e ∈ m.entries) (a : α) : a ∈ lookup m e.1 ↔ a ∈ e.2.toList := by
  rw [lookup, SortedMap.get?_of_mem he]

theorem contains_link [TransOrd κ] [TransOrd α] (m : MultiMap κ α) (k k' : κ) (a : α) :
    (link m k a).contains k' = (compare k' k == .eq || m.contains k') := by
  rw [SortedMap.contains_eq_isSome_get?, link, SortedMap.get?_alter,
    SortedMap.contains_eq_isSome_get?]
  split
  next h => simp [h]
  next h => simp [h]

theorem contains_unlink_of_ne [TransOrd κ] (m : MultiMap κ α) {k k' : κ}
    (h : compare k' k ≠ .eq) (a : α) : (unlink m k a).contains k' = m.contains k' := by
  rw [SortedMap.contains_eq_isSome_get?, unlink, SortedMap.get?_alter, if_neg h,
    SortedMap.contains_eq_isSome_get?]

theorem contains_of_contains_unlink [TransOrd κ] {m : MultiMap κ α} {k : κ} {a : α}
    (h : (unlink m k a).contains k = true) : m.contains k = true := by
  rw [SortedMap.contains_eq_isSome_get?, unlink, SortedMap.get?_alter,
    if_pos ReflCmp.compare_self] at h
  rw [SortedMap.contains_eq_isSome_get?]
  cases hs : m.get? k with
  | none => simp [hs] at h
  | some s => rfl

variable [TransOrd κ] [LawfulEqOrd κ]

theorem Represents.contains_iff {m : MultiMap κ α} {r : κ → α → Prop} (h : Represents m r) (k : κ) :
    m.contains k = true ↔ ∃ a, r k a := by
  rw [SortedMap.contains_iff]
  constructor
  · rintro ⟨e, he, hk⟩
    obtain rfl := LawfulEqOrd.eq_of_compare hk
    obtain ⟨⟨a, _⟩, ha⟩ := List.exists_mem_of_ne_nil _ (h.nonempty e he)
    exact ⟨a, (h.mem_iff e.1 a).mp
      ((mem_lookup_of_mem he a).mpr ((SortedSet.mem_toList_iff e.2 a).mpr ha))⟩
  · rintro ⟨a, ha⟩
    have hl := (h.mem_iff k a).mpr ha
    rw [lookup] at hl
    split at hl
    next s hs =>
      obtain ⟨k', hk', heq⟩ := SortedMap.get?_eq_some_iff.mp hs
      exact ⟨(k', s), hk', heq⟩
    next => simp at hl

theorem lookup_alter_self (m : MultiMap κ α) (k : κ)
    (f : Option (SortedSet α) → Option (SortedSet α)) :
    lookup (m.alter k f) k = ((f (m.get? k)).map SortedSet.toList).getD [] := by
  rw [lookup, SortedMap.get?_alter, if_pos (ReflCmp.compare_self)]
  cases f (m.get? k) <;> rfl

theorem lookup_alter_of_ne (m : MultiMap κ α) {k k' : κ} (h : k' ≠ k)
    (f : Option (SortedSet α) → Option (SortedSet α)) :
    lookup (m.alter k f) k' = lookup m k' := by
  have hc : compare k' k ≠ .eq := fun hc => h (LawfulEqOrd.eq_of_compare hc)
  rw [lookup, SortedMap.get?_alter, if_neg hc, lookup]

theorem mem_lookup_unlink_self (m : MultiMap κ α) (k : κ) (a b : α) :
    b ∈ lookup (unlink m k a) k ↔ b ∈ lookup m k ∧ compare a b ≠ .eq := by
  rw [unlink, lookup_alter_self, lookup]
  cases m.get? k with
  | none => simp
  | some s =>
    have hmem : b ∈ SortedSet.toList (s.erase a) ↔ b ∈ s.toList ∧ compare a b ≠ .eq := by
      rw [SortedSet.mem_toList_iff, SortedMap.mem_erase_iff, SortedSet.mem_toList_iff]
    rw [← hmem]
    by_cases he : (s.erase a).isEmpty = true
    · have hnil : (s.erase a).entries = [] := List.isEmpty_iff.mp he
      simp [he, SortedSet.mem_toList_iff, hnil]
    · simp [he]

variable [TransOrd α]

theorem Represents.unique {m m' : MultiMap κ α} {r : κ → α → Prop} (h : Represents m r)
    (h' : Represents m' r) : m = m' := by
  have half {m₁ m₂ : MultiMap κ α} (h₁ : Represents m₁ r) (h₂ : Represents m₂ r)
      (e : κ × SortedSet α) (he : e ∈ m₁.entries) : e ∈ m₂.entries := by
    have hc : m₂.contains e.1 = true :=
      (h₂.contains_iff e.1).mpr ((h₁.contains_iff e.1).mp
        (SortedMap.contains_iff.mpr ⟨e, he, ReflCmp.compare_self⟩))
    obtain ⟨e', he', hk⟩ := SortedMap.contains_iff.mp hc
    have hkey : e.1 = e'.1 := LawfulEqOrd.eq_of_compare hk
    have hset : e.2 = e'.2 := by
      apply SortedMap.eq_of_mem_iff
      rintro ⟨a, _⟩
      rw [← SortedSet.mem_toList_iff, ← SortedSet.mem_toList_iff, ← mem_lookup_of_mem he,
        ← mem_lookup_of_mem he', h₁.mem_iff, h₂.mem_iff, hkey]
    have : e = e' := Prod.ext hkey hset
    rwa [this]
  exact SortedMap.eq_of_mem_iff fun e => ⟨half h h' e, half h' h e⟩

theorem mem_lookup_link_self (m : MultiMap κ α) (k : κ) (a b : α) :
    b ∈ lookup (link m k a) k ↔ b = a ∨ (b ∈ lookup m k ∧ compare b a ≠ .eq) := by
  rw [link, lookup_alter_self, Option.map_some, Option.getD_some, SortedSet.mem_toList_iff,
    SortedMap.mem_insert_iff, lookup]
  cases m.get? k with
  | none => simp [EmptyCollection.emptyCollection]
  | some s => simp [SortedSet.mem_toList_iff]

theorem Represents.link {m : MultiMap κ α} {r : κ → α → Prop} (h : Represents m r) (k : κ) (a : α)
    (hsep : ∀ b, r k b → compare b a = .eq → b = a) :
    Represents (link m k a) fun k' b => r k' b ∨ (k' = k ∧ b = a) := by
  constructor
  · intro k' b
    by_cases hk : k' = k
    · subst hk
      rw [mem_lookup_link_self, h.mem_iff]
      constructor
      · rintro (hb | ⟨hb, _⟩)
        · exact Or.inr ⟨rfl, hb⟩
        · exact Or.inl hb
      · rintro (hb | ⟨_, hb⟩)
        · by_cases hc : compare b a = .eq
          · exact Or.inl (hsep b hb hc)
          · exact Or.inr ⟨hb, hc⟩
        · exact Or.inl hb
    · rw [MultiMap.link, lookup_alter_of_ne m hk, h.mem_iff]
      simp [hk]
  · intro e he
    rcases mem_entries_alter he with he | he
    · exact h.nonempty e he
    · have hin : (a, ()) ∈ e.2.entries := by
        rw [← Option.some.inj he, SortedMap.mem_insert_iff]
        exact Or.inl rfl
      exact List.ne_nil_of_mem hin

theorem Represents.unlink {m : MultiMap κ α} {r : κ → α → Prop} (h : Represents m r) (k : κ) (a : α)
    (hsep : ∀ b, r k b → compare a b = .eq → b = a) :
    Represents (unlink m k a) fun k' b => r k' b ∧ ¬ (k' = k ∧ b = a) := by
  constructor
  · intro k' b
    by_cases hk : k' = k
    · subst hk
      rw [mem_lookup_unlink_self, h.mem_iff]
      refine and_congr_right fun hb => not_congr ⟨fun hc => ⟨rfl, hsep b hb hc⟩, ?_⟩
      rintro ⟨_, rfl⟩
      exact ReflCmp.compare_self
    · rw [MultiMap.unlink, lookup_alter_of_ne m hk, h.mem_iff]
      simp [hk]
  · intro e he
    rcases mem_entries_alter he with he | he
    · exact h.nonempty e he
    · cases hm : m.get? k with
      | none => simp [hm] at he
      | some s =>
        simp only [hm] at he
        split at he
        · simp at he
        · rename_i hne
          rw [← Option.some.inj he]
          exact fun hnil => hne (List.isEmpty_iff.mpr hnil)

/-! ## Many links at once -/

def linkAll (m : MultiMap κ α) (pairs : List (κ × α)) : MultiMap κ α :=
  pairs.foldl (fun m p => link m p.1 p.2) m

def unlinkAll (m : MultiMap κ α) (pairs : List (κ × α)) : MultiMap κ α :=
  pairs.foldl (fun m p => unlink m p.1 p.2) m

theorem Represents.linkAll {m : MultiMap κ α} {r : κ → α → Prop} (h : Represents m r)
    (pairs : List (κ × α)) (hsep : Separated fun k a => r k a ∨ (k, a) ∈ pairs) :
    Represents (linkAll m pairs) fun k a => r k a ∨ (k, a) ∈ pairs := by
  induction pairs generalizing m r with
  | nil => exact h.congr fun k a => by simp
  | cons p pairs ih =>
    have hsplit (k : κ) (a : α) : ((r k a ∨ (k = p.1 ∧ a = p.2)) ∨ (k, a) ∈ pairs) ↔
        (r k a ∨ (k, a) ∈ p :: pairs) := by
      rw [List.mem_cons, Prod.ext_iff]
      exact or_assoc
    have hone := h.link p.1 p.2 fun b hb hc =>
      hsep p.1 b p.2 (Or.inl hb) (Or.inr List.mem_cons_self) hc
    refine (ih hone ?_).congr hsplit
    intro k a b ha hb
    exact hsep k a b ((hsplit k a).mp ha) ((hsplit k b).mp hb)

theorem Represents.unlinkAll {m : MultiMap κ α} {r : κ → α → Prop} (h : Represents m r)
    (pairs : List (κ × α)) (hsep : Separated r) (hsub : ∀ p ∈ pairs, r p.1 p.2) :
    Represents (unlinkAll m pairs) fun k a => r k a ∧ (k, a) ∉ pairs := by
  -- a pair may occur twice, so the relation shrinks while `hsep` and `hsub` speak of the first one
  suffices hgen : ∀ r' : κ → α → Prop, (∀ k a, r' k a → r k a) → ∀ m', Represents m' r' →
      Represents (MultiMap.unlinkAll m' pairs) fun k a => r' k a ∧ (k, a) ∉ pairs from
    hgen r (fun _ _ hr => hr) m h
  clear h
  induction pairs with
  | nil => exact fun r' _ m' h' => h'.congr fun k a => by simp
  | cons p pairs ih =>
    intro r' hr' m' h'
    have hone := h'.unlink p.1 p.2 fun b hb hc =>
      (hsep p.1 p.2 b (hsub p List.mem_cons_self) (hr' p.1 b hb) hc).symm
    have hrest := ih (fun q hq => hsub q (List.mem_cons_of_mem p hq)) _
      (fun k a hka => hr' k a hka.1) _ hone
    refine hrest.congr fun k a => ?_
    rw [List.mem_cons, Prod.ext_iff, not_or, and_assoc]

end MultiMap

end JavaAtlas
