import JavaAtlas.Data.SortedMap
import Mathlib.Data.List.Basic
import Mathlib.Data.List.Pairwise

/-!
# Lookups in sorted maps

Every operation is described by what a lookup finds afterwards. Keys that compare equal are
interchangeable in a lookup, whether or not they are equal. A map is determined by its entries, so
two maps with the same members are the same.
-/

namespace JavaAtlas

set_option autoImplicit false

universe u v w

open Std (TransOrd TransCmp OrientedCmp ReflCmp ReflOrd)

section Increasing

variable {α : Type u} (cmp : α → α → Ordering) [TransCmp cmp]

theorem nodup_of_increasing {as : List α} (h : as.Pairwise fun a b => cmp a b = .lt) :
    as.Nodup := by
  refine h.imp ?_
  rintro a _ hlt rfl
  have hself : cmp a a = .eq := ReflCmp.compare_self
  rw [hself] at hlt
  simp at hlt

/-- A list in strictly increasing order is determined by its members. -/
theorem eq_of_increasing {as bs : List α} (ha : as.Pairwise fun a b => cmp a b = .lt)
    (hb : bs.Pairwise fun a b => cmp a b = .lt) (h : ∀ a, a ∈ as ↔ a ∈ bs) : as = bs := by
  have hperm : as.Perm bs := (List.perm_ext_iff_of_nodup (nodup_of_increasing cmp ha)
    (nodup_of_increasing cmp hb)).mpr h
  refine hperm.eq_of_pairwise (fun x y _ _ hxy hyx => ?_) ha hb
  rw [OrientedCmp.gt_of_lt hyx] at hxy
  simp at hxy

theorem eq_of_increasing_of_eq {as : List α} (h : as.Pairwise fun a b => cmp a b = .lt) {a b : α}
    (ha : a ∈ as) (hb : b ∈ as) (heq : cmp a b = .eq) : a = b := by
  by_contra hne
  have hapart : as.Pairwise fun a b => cmp a b ≠ .eq := h.imp fun {a b} hlt => by simp [hlt]
  have : Std.Symm fun a b : α => cmp a b ≠ .eq := ⟨fun a b hab hba => hab (OrientedCmp.eq_symm hba)⟩
  exact hapart.forall ha hb hne heq

theorem pairwise_mergeSort_isLE (as : List α) :
    (as.mergeSort fun a b => (cmp a b).isLE).Pairwise fun a b => (cmp a b).isLE = true := by
  refine List.pairwise_mergeSort (fun _ _ _ => TransCmp.isLE_trans) (fun a b => ?_) as
  have hswap : cmp a b = (cmp b a).swap := OrientedCmp.eq_swap
  rw [hswap]
  cases cmp b a <;> rfl

theorem eq_mergeSort_of_increasing {as bs : List α} (ha : as.Pairwise fun a b => cmp a b = .lt)
    (hb : bs.Nodup) (h : ∀ a, a ∈ as ↔ a ∈ bs) : as = bs.mergeSort fun a b => (cmp a b).isLE := by
  have hperm : as.Perm (bs.mergeSort fun a b => (cmp a b).isLE) :=
    ((List.perm_ext_iff_of_nodup (nodup_of_increasing cmp ha) hb).mpr h).trans
      (List.mergeSort_perm _ _).symm
  refine hperm.eq_of_pairwise (fun x y hx hy hxy hyx => ?_)
    (ha.imp fun {a b} hlt => congrArg Ordering.isLE hlt) (pairwise_mergeSort_isLE cmp bs)
  exact eq_of_increasing_of_eq cmp ha hx (hperm.mem_iff.mpr hy) (OrientedCmp.isLE_antisymm hxy hyx)

end Increasing

namespace SortedMap

variable {κ : Type u} {ν : Type v} [Ord κ]

/-! ## Entries -/

theorem eq_of_mem_of_compare_eq [TransOrd κ] {m : SortedMap κ ν} {a b : κ × ν}
    (ha : a ∈ m.entries) (hb : b ∈ m.entries) (h : compare a.1 b.1 = .eq) : a = b := by
  have hm := m.increasing
  generalize m.entries = entries at ha hb hm
  induction entries with
  | nil => simp at ha
  | cons head rest ih =>
    rw [List.pairwise_cons] at hm
    rcases List.mem_cons.mp ha with rfl | ha'
    · rcases List.mem_cons.mp hb with rfl | hb'
      · rfl
      · have hlt := hm.1 b hb'
        rw [h] at hlt
        simp at hlt
    · rcases List.mem_cons.mp hb with rfl | hb'
      · have hlt := hm.1 a ha'
        rw [OrientedCmp.eq_symm h] at hlt
        simp at hlt
      · exact ih ha' hb' hm.2

theorem find?_eq_some_iff [TransOrd κ] {m : SortedMap κ ν} {k : κ} {e : κ × ν} :
    m.find? k = some e ↔ e ∈ m.entries ∧ compare k e.1 = .eq := by
  constructor
  · intro h
    exact ⟨List.mem_of_find?_eq_some h, by simpa using List.find?_some h⟩
  · rintro ⟨he, hk⟩
    cases hf : m.find? k with
    | none =>
      have := List.find?_eq_none.mp hf e he
      simp [hk] at this
    | some e' =>
      have he' := List.mem_of_find?_eq_some hf
      have hk' : compare k e'.1 = .eq := by simpa using List.find?_some hf
      have : compare e'.1 e.1 = .eq := TransCmp.eq_trans (OrientedCmp.eq_symm hk') hk
      rw [eq_of_mem_of_compare_eq he' he this]

theorem find?_congr [TransOrd κ] (m : SortedMap κ ν) {a b : κ} (h : compare a b = .eq) :
    m.find? a = m.find? b := by
  simp only [find?, TransCmp.congr_left h]

theorem get?_congr [TransOrd κ] (m : SortedMap κ ν) {a b : κ} (h : compare a b = .eq) :
    m.get? a = m.get? b := by
  simp only [get?, find?_congr m h]

theorem contains_eq_isSome_get? (m : SortedMap κ ν) (k : κ) :
    m.contains k = (m.get? k).isSome := by
  simp [contains, get?]

theorem not_contains_empty (k : κ) : ¬ (∅ : SortedMap κ ν).contains k = true := by
  rw [contains_eq_isSome_get?]
  exact Bool.false_ne_true

theorem contains_congr [TransOrd κ] (m : SortedMap κ ν) {a b : κ} (h : compare a b = .eq) :
    m.contains a = m.contains b := by
  simp only [contains, find?_congr m h]

theorem get?_eq_some_iff [TransOrd κ] {m : SortedMap κ ν} {k : κ} {v : ν} :
    m.get? k = some v ↔ ∃ k', (k', v) ∈ m.entries ∧ compare k k' = .eq := by
  simp only [get?, Option.map_eq_some_iff, Prod.exists, find?_eq_some_iff]
  constructor
  · rintro ⟨k', v', h, rfl⟩
    exact ⟨k', h⟩
  · rintro ⟨k', h⟩
    exact ⟨k', v, h, rfl⟩

theorem get?_of_mem [TransOrd κ] {m : SortedMap κ ν} {e : κ × ν} (h : e ∈ m.entries) :
    m.get? e.1 = some e.2 :=
  get?_eq_some_iff.mpr ⟨e.1, h, ReflCmp.compare_self⟩

theorem contains_iff [TransOrd κ] {m : SortedMap κ ν} {k : κ} :
    m.contains k = true ↔ ∃ e ∈ m.entries, compare k e.1 = .eq := by
  simp only [contains, Option.isSome_iff_exists, find?_eq_some_iff]

theorem contains_iff_exists_get? {m : SortedMap κ ν} {k : κ} :
    m.contains k = true ↔ ∃ v, m.get? k = some v := by
  rw [contains_eq_isSome_get?, Option.isSome_iff_exists]

theorem get?_eq_none_iff {m : SortedMap κ ν} {k : κ} :
    m.get? k = none ↔ m.contains k = false := by
  rw [contains_eq_isSome_get?, Option.isSome_eq_false_iff, Option.isNone_iff_eq_none]

theorem mem_values_iff [TransOrd κ] {m : SortedMap κ ν} {v : ν} :
    v ∈ m.values ↔ ∃ k, m.get? k = some v := by
  rw [values, List.mem_map]
  constructor
  · rintro ⟨e, he, rfl⟩
    exact ⟨e.1, get?_of_mem he⟩
  · rintro ⟨k, hk⟩
    obtain ⟨k', he, -⟩ := get?_eq_some_iff.mp hk
    exact ⟨(k', v), he, rfl⟩

theorem eq_empty_of_not_contains [TransOrd κ] {m : SortedMap κ ν} (h : ∀ k, m.contains k = false) :
    m = ∅ := by
  apply ext
  rw [EmptyCollection.emptyCollection, instEmptyCollection, entries_empty,
    List.eq_nil_iff_forall_not_mem]
  intro e he
  have hkey := contains_iff.mpr ⟨e, he, ReflCmp.compare_self⟩
  rw [h e.1] at hkey
  simp at hkey

theorem eq_of_mem_iff [TransOrd κ] {a b : SortedMap κ ν} (h : ∀ e, e ∈ a.entries ↔ e ∈ b.entries) :
    a = b :=
  SortedMap.ext (eq_of_increasing (compareOn fun e : κ × ν => e.1) a.increasing b.increasing h)

/-! ## Insertion -/

theorem find?_insertEntry [TransOrd κ] (k k' : κ) (v : ν) (entries : List (κ × ν)) :
    (insertEntry k v entries).find? (fun e => compare k' e.1 == .eq) =
      if compare k' k = .eq then some (k, v)
      else entries.find? fun e => compare k' e.1 == .eq := by
  induction entries with
  | nil => by_cases h : compare k' k = .eq <;> simp [insertEntry, h]
  | cons head rest ih =>
    obtain ⟨k₀, v₀⟩ := head
    rw [insertEntry]
    split
    next => by_cases h : compare k' k = .eq <;> simp [h]
    next hk =>
      by_cases h : compare k' k = .eq
      · simp [h]
      · have h₀ : compare k' k₀ ≠ .eq := by rwa [← TransCmp.congr_right hk]
        simp [h, h₀]
    next hk =>
      by_cases h : compare k' k = .eq
      · have h₀ : compare k' k₀ ≠ .eq := by simp [TransCmp.congr_left h, hk]
        simp [h₀, ih, h]
      · simp only [List.find?_cons, ih, if_neg h]

theorem find?_insert [TransOrd κ] (m : SortedMap κ ν) (k k' : κ) (v : ν) :
    (m.insert k v).find? k' = if compare k' k = .eq then some (k, v) else m.find? k' :=
  find?_insertEntry k k' v m.entries

theorem get?_insert [TransOrd κ] (m : SortedMap κ ν) (k k' : κ) (v : ν) :
    (m.insert k v).get? k' = if compare k' k = .eq then some v else m.get? k' := by
  simp only [get?, find?_insert]
  split <;> simp

theorem get?_insert_self [TransOrd κ] (m : SortedMap κ ν) (k : κ) (v : ν) :
    (m.insert k v).get? k = some v := by
  simp [get?_insert, ReflCmp.compare_self]

theorem get?_insert_of_ne [TransOrd κ] [Std.LawfulEqOrd κ] (m : SortedMap κ ν) {k k' : κ}
    (h : k' ≠ k) (v : ν) : (m.insert k v).get? k' = m.get? k' := by
  rw [get?_insert, if_neg fun heq => h (Std.LawfulEqCmp.eq_of_compare heq)]

theorem contains_insert [TransOrd κ] (m : SortedMap κ ν) (k k' : κ) (v : ν) :
    (m.insert k v).contains k' = (compare k' k == .eq || m.contains k') := by
  rw [contains_eq_isSome_get?, get?_insert, contains_eq_isSome_get?]
  split
  next h => simp [h]
  next h => simp [h]

theorem mem_insert_iff [TransOrd κ] (m : SortedMap κ ν) (k : κ) (v : ν) (e : κ × ν) :
    e ∈ (m.insert k v).entries ↔ e = (k, v) ∨ (e ∈ m.entries ∧ compare e.1 k ≠ .eq) := by
  have self : compare e.1 e.1 = .eq := ReflCmp.compare_self
  constructor
  · intro he
    have hf := find?_eq_some_iff.mpr ⟨he, self⟩
    rw [find?_insert] at hf
    split at hf
    · exact Or.inl (by simpa using hf.symm)
    · rename_i hk
      exact Or.inr ⟨(find?_eq_some_iff.mp hf).1, hk⟩
  · rintro (rfl | ⟨he, hk⟩)
    · refine (find?_eq_some_iff (k := k)).mp ?_ |>.1
      simp [find?_insert, ReflCmp.compare_self]
    · refine (find?_eq_some_iff (k := e.1)).mp ?_ |>.1
      rw [find?_insert, if_neg hk]
      exact find?_eq_some_iff.mpr ⟨he, self⟩

/-! ## Removal and change -/

theorem find?_erase [TransOrd κ] (m : SortedMap κ ν) (k k' : κ) :
    (m.erase k).find? k' = if compare k' k = .eq then none else m.find? k' := by
  split
  next h =>
    refine List.find?_eq_none.mpr ?_
    intro e he
    have hne := ((mem_erase_iff m k e).mp he).2
    rw [← TransCmp.congr_left h] at hne
    simp [hne]
  next h =>
    cases hf : m.find? k' with
    | none =>
      refine List.find?_eq_none.mpr ?_
      intro e he
      exact List.find?_eq_none.mp hf e ((mem_erase_iff m k e).mp he).1
    | some e =>
      obtain ⟨he, hk⟩ := find?_eq_some_iff.mp hf
      refine find?_eq_some_iff.mpr ⟨(mem_erase_iff m k e).mpr ⟨he, ?_⟩, hk⟩
      intro hke
      exact h (TransCmp.eq_trans hk (OrientedCmp.eq_symm hke))

theorem get?_erase [TransOrd κ] (m : SortedMap κ ν) (k k' : κ) :
    (m.erase k).get? k' = if compare k' k = .eq then none else m.get? k' := by
  simp only [get?, find?_erase]
  split <;> simp

theorem get?_erase_of_ne [TransOrd κ] [Std.LawfulEqOrd κ] (m : SortedMap κ ν) {k k' : κ}
    (h : k' ≠ k) : (m.erase k).get? k' = m.get? k' := by
  rw [get?_erase, if_neg fun heq => h (Std.LawfulEqCmp.eq_of_compare heq)]

theorem contains_erase [TransOrd κ] (m : SortedMap κ ν) (k k' : κ) :
    (m.erase k).contains k' = (compare k' k != .eq && m.contains k') := by
  rw [contains_eq_isSome_get?, get?_erase, contains_eq_isSome_get?]
  split
  next h => simp [h]
  next h => simp [h]

/-! ## Maps of the values -/

theorem find?_map {μ : Type w} (f : κ → ν → μ) (m : SortedMap κ ν) (k : κ) :
    (m.map f).find? k = (m.find? k).map fun e => (e.1, f e.1 e.2) := by
  simp only [find?, map, List.find?_map]
  rfl

theorem get?_map {μ : Type w} (f : ν → μ) (m : SortedMap κ ν) (k : κ) :
    (m.map fun _ => f).get? k = (m.get? k).map f := by
  rw [get?, find?_map, Option.map_map, get?, Option.map_map]
  rfl

theorem contains_map {μ : Type w} (f : ν → μ) (m : SortedMap κ ν) (k : κ) :
    (m.map fun _ => f).contains k = m.contains k := by
  rw [contains_eq_isSome_get?, get?_map, Option.isSome_map, contains_eq_isSome_get?]

theorem map_insert [TransOrd κ] {μ : Type w} (f : ν → μ) (m : SortedMap κ ν) (k : κ) (v : ν) :
    ((m.insert k v).map fun _ => f) = (m.map fun _ => f).insert k (f v) := by
  apply ext
  show (insertEntry k v m.entries).map _ = insertEntry k (f v) (m.entries.map _)
  induction m.entries with
  | nil => rfl
  | cons head rest ih =>
    obtain ⟨k', v'⟩ := head
    rw [insertEntry, List.map_cons, insertEntry]
    split <;> simp [*]

theorem map_erase {μ : Type w} (f : ν → μ) (m : SortedMap κ ν) (k : κ) :
    ((m.erase k).map fun _ => f) = (m.map fun _ => f).erase k := by
  apply ext
  simp only [map, erase, List.filter_map]
  rfl

theorem map_adjust {μ : Type w} {f : ν → μ} {g : ν → ν} (h : ∀ v, f (g v) = f v)
    (m : SortedMap κ ν) (k : κ) : ((m.adjust k g).map fun _ => f) = m.map fun _ => f := by
  apply ext
  simp only [adjust, map, List.map_map]
  refine List.map_congr_left fun e _ => ?_
  by_cases hk : compare k e.1 = .eq <;> simp [hk, h]

theorem get?_adjust [TransOrd κ] (m : SortedMap κ ν) (k k' : κ) (f : ν → ν) :
    (m.adjust k f).get? k' = if compare k' k = .eq then (m.get? k').map f else m.get? k' := by
  simp only [adjust, get?, find?_map]
  cases hf : m.find? k' with
  | none => simp
  | some e =>
    have hk := (find?_eq_some_iff.mp hf).2
    have he : compare k e.1 = compare k k' := TransCmp.congr_right (OrientedCmp.eq_symm hk)
    by_cases h : compare k' k = .eq
    · simp [he, h, OrientedCmp.eq_symm h]
    · have h' : compare k k' ≠ .eq := fun hc => h (OrientedCmp.eq_symm hc)
      simp [he, h, h']

theorem keys_adjust (m : SortedMap κ ν) (k : κ) (f : ν → ν) : (m.adjust k f).keys = m.keys := by
  simp only [adjust, keys, map, List.map_map]
  rfl

theorem get?_alter [TransOrd κ] (m : SortedMap κ ν) (k k' : κ) (f : Option ν → Option ν) :
    (m.alter k f).get? k' = if compare k' k = .eq then f (m.get? k) else m.get? k' := by
  rw [alter]
  split
  next h => rw [get?_insert]; split <;> simp [h]
  next h => rw [get?_erase]; split <;> simp [h]

theorem mem_keys_iff (m : SortedMap κ ν) (k : κ) : k ∈ m.keys ↔ ∃ v, (k, v) ∈ m.entries := by
  simp [keys]

/-! ## Entries up to their order -/

theorem increasing_keys (m : SortedMap κ ν) : m.keys.Pairwise fun a b => compare a b = .lt :=
  List.pairwise_map.mpr m.increasing

theorem nodup_keys [TransOrd κ] (m : SortedMap κ ν) : m.keys.Nodup :=
  nodup_of_increasing compare m.increasing_keys

theorem nodup_entries [TransOrd κ] (m : SortedMap κ ν) : m.entries.Nodup :=
  List.Pairwise.of_map (·.1) (fun _ _ h heq => h (congrArg (·.1) heq)) m.nodup_keys

theorem perm_erase [TransOrd κ] {m : SortedMap κ ν} {k : κ} {e : κ × ν} (h : m.find? k = some e) :
    m.entries.Perm (e :: (m.erase k).entries) := by
  obtain ⟨he, hk⟩ := find?_eq_some_iff.mp h
  have hnot : e ∉ (m.erase k).entries := fun he' => ((mem_erase_iff m k e).mp he').2 hk
  refine (List.perm_ext_iff_of_nodup m.nodup_entries
    (List.nodup_cons.mpr ⟨hnot, (m.erase k).nodup_entries⟩)).mpr fun x => ?_
  rw [List.mem_cons, mem_erase_iff]
  constructor
  · intro hx
    by_cases hc : compare k x.1 = .eq
    · exact Or.inl (eq_of_mem_of_compare_eq hx he (TransCmp.eq_trans (OrientedCmp.eq_symm hc) hk))
    · exact Or.inr ⟨hx, hc⟩
  · rintro (rfl | ⟨hx, -⟩)
    · exact he
    · exact hx

theorem perm_insert [TransOrd κ] {m : SortedMap κ ν} {k : κ} (h : m.contains k = false) (v : ν) :
    (m.insert k v).entries.Perm ((k, v) :: m.entries) := by
  have hnew : ∀ x ∈ m.entries, compare x.1 k ≠ .eq := by
    intro x hx hc
    rw [contains_iff.mpr ⟨x, hx, OrientedCmp.eq_symm hc⟩] at h
    simp at h
  have hnot : (k, v) ∉ m.entries := fun hx => hnew (k, v) hx ReflCmp.compare_self
  refine (List.perm_ext_iff_of_nodup (m.insert k v).nodup_entries
    (List.nodup_cons.mpr ⟨hnot, m.nodup_entries⟩)).mpr fun x => ?_
  rw [mem_insert_iff, List.mem_cons]
  exact or_congr_right ⟨fun hx => hx.1, fun hx => ⟨hx, hnew x hx⟩⟩

theorem erase_of_not_contains [TransOrd κ] {m : SortedMap κ ν} {k : κ} (h : m.contains k = false) :
    m.erase k = m := by
  apply SortedMap.ext
  refine List.filter_eq_self.mpr fun e he => ?_
  rw [bne_iff_ne]
  intro hc
  rw [contains_iff.mpr ⟨e, he, hc⟩] at h
  simp at h

theorem perm_insert_erase [TransOrd κ] (m : SortedMap κ ν) (k : κ) (v : ν) :
    (m.insert k v).entries.Perm ((k, v) :: (m.erase k).entries) := by
  have herased : (m.erase k).contains k = false := by
    have hself : compare k k = .eq := ReflCmp.compare_self
    rw [contains_erase, hself]
    rfl
  have hsame : (m.erase k).insert k v = m.insert k v := by
    refine eq_of_mem_iff fun e => ?_
    rw [mem_insert_iff, mem_insert_iff, mem_erase_iff]
    refine or_congr_right ⟨fun he => ⟨he.1.1, he.2⟩, fun he => ⟨⟨he.1, ?_⟩, he.2⟩⟩
    exact fun hc => he.2 (OrientedCmp.eq_symm hc)
  rw [← hsame]
  exact perm_insert herased v

theorem size_erase_le (m : SortedMap κ ν) (k : κ) : (m.erase k).size ≤ m.size :=
  (List.filter_sublist (l := m.entries)).length_le

theorem size_erase_of_contains [TransOrd κ] {m : SortedMap κ ν} {k : κ} (h : m.contains k = true) :
    (m.erase k).size + 1 = m.size := by
  obtain ⟨e, he⟩ := Option.isSome_iff_exists.mp h
  exact (perm_erase he).length_eq.symm

end SortedMap

end JavaAtlas
