import JavaAtlas.Path
import JavaAtlas.Proofs.Text.Split

/-!
# Paths in normal spelling

Normalizing a path twice does no more than normalizing it once, and of the spellings of a path only
one is normal. So paths in normal spelling that are taken for equal are the same.
-/

namespace JavaAtlas

set_option autoImplicit false

open Std (LawfulEqCmp LawfulEqOrd)

instance : LawfulEqOrd Component where
  eq_of_compare {a b} h := by
    obtain ⟨hrank, htext⟩ := compareLex_eq_eq.mp h
    have hrank : a.rank = b.rank := LawfulEqCmp.eq_of_compare hrank
    have htext : a.text = b.text := LawfulEqCmp.eq_of_compare htext
    cases a <;> cases b <;> simp_all [Component.rank, Component.text]

namespace Path

theorem components_eq_of_compare {a b : Path} (h : compare a b = .eq) :
    a.components = b.components := by
  have hlists : compare a.components b.components = .eq := h
  exact LawfulEqCmp.eq_of_compare hlists

structure IsName (s : String) : Prop where
  ne_empty : s ≠ ""
  ne_here : s ≠ "."
  ne_parent : s ≠ ".."
  no_slash : ∀ c ∈ s.toList, (c == '/') = false

theorem isName_of_mem_components {p : Path} {s : String} (h : Component.name s ∈ p.components) :
    IsName s := by
  have hinner : Component.name s ∈ ((Text.split '/' p.spelling).filter
      fun s => s ≠ "" && s ≠ ".").map componentOf := by
    rw [components] at h
    split at h
    · simpa using h
    · split at h
      · simpa using h
      · exact h
  obtain ⟨piece, hpiece, hname⟩ := List.mem_map.mp hinner
  obtain ⟨hsplit, hkept⟩ := List.mem_filter.mp hpiece
  rw [componentOf] at hname
  split at hname
  · simp at hname
  · rename_i hparent
    obtain rfl := Component.name.inj hname
    obtain ⟨cs, hcs, rfl⟩ := List.mem_map.mp hsplit
    simp only [ne_eq, decide_not, Bool.and_eq_true, Bool.not_eq_true', decide_eq_false_iff_not]
      at hkept
    refine ⟨hkept.1, hkept.2, hparent, ?_⟩
    rw [String.toList_ofList]
    exact Text.not_sep_of_mem_splitWhere hcs

theorem mem_of_mem_cancel {components : List Component} {names : List String} {s : String}
    (h : s ∈ components.foldl cancel names) : s ∈ names ∨ .name s ∈ components := by
  induction components generalizing names with
  | nil => exact Or.inl h
  | cons c components ih =>
    rcases ih h with hs | hs
    · cases c with
      | root => simp [cancel] at hs
      | here => exact Or.inl hs
      | parent => exact Or.inl (List.dropLast_subset _ hs)
      | name t =>
        rcases List.mem_append.mp hs with hs | hs
        · exact Or.inl hs
        · rw [List.mem_singleton.mp hs]
          exact Or.inr List.mem_cons_self
    · exact Or.inr (List.mem_cons_of_mem _ hs)

theorem foldl_cancel_names (names before : List String) :
    (names.map Component.name).foldl cancel before = before ++ names := by
  induction names generalizing before with
  | nil => simp
  | cons s names ih =>
    rw [List.map_cons, List.foldl_cons, ih, cancel, List.append_assoc, List.singleton_append]

def ofNames (names : List String) : Path := ofComponents (.root :: names.map .name)

theorem spelling_ofNames (names : List String) :
    (ofNames names).spelling.toList = '/' :: ['/'].intercalate (names.map String.toList) := by
  have htexts : (names.map Component.name).map Component.text = names := by
    rw [List.map_map]
    exact List.map_id names
  rw [ofNames, ofComponents, htexts, String.toList_append, String.toList_intercalate]
  rfl

theorem components_ofNames {names : List String} (h : ∀ s ∈ names, IsName s) :
    (ofNames names).components = .root :: names.map .name := by
  have habsolute : (ofNames names).isAbsolute = true := by
    rw [isAbsolute, spelling_ofNames]
    rfl
  have hsplit : Text.split '/' (ofNames names).spelling =
      "" :: (if names = [] then [""] else names) := by
    rw [Text.split, spelling_ofNames, Text.splitWhere, if_pos (by decide)]
    cases names with
    | nil => rfl
    | cons s names =>
      rw [Text.splitWhere_intercalate (by decide) (by simp) ?_]
      · simp [List.map_map, Function.comp_def]
      · intro piece hpiece
        obtain ⟨t, ht, rfl⟩ := List.mem_map.mp hpiece
        exact (h t ht).no_slash
  have hkept : (("" :: (if names = [] then [""] else names)).filter
      fun s => s ≠ "" && s ≠ ".") = names := by
    rw [List.filter_cons_of_neg (by simp)]
    split
    next hnil =>
      rw [hnil]
      rfl
    next =>
      rw [List.filter_eq_self]
      intro s hs
      simp [(h s hs).ne_empty, (h s hs).ne_here]
  have hnamed : names.map componentOf = names.map .name :=
    List.map_congr_left fun s hs => if_neg (h s hs).ne_parent
  rw [components, habsolute, if_pos rfl, hsplit, hkept, hnamed]

theorem normalize_of_ne_empty {p : Path} (h : p.spelling ≠ "") :
    p.normalize = ofNames (p.components.foldl cancel []) := if_neg h

theorem isName_of_mem_cancel {p : Path} : ∀ s ∈ p.components.foldl cancel [], IsName s :=
  fun _ hs => isName_of_mem_components ((mem_of_mem_cancel hs).resolve_left (by simp))

theorem components_normalize {p : Path} (h : p.spelling ≠ "") :
    p.normalize.components = .root :: (p.components.foldl cancel []).map .name := by
  rw [normalize_of_ne_empty h, components_ofNames isName_of_mem_cancel]

theorem normalize_normalize (p : Path) : p.normalize.normalize = p.normalize := by
  by_cases h : p.spelling = ""
  · have hself : p.normalize = p := if_pos h
    rw [hself, hself]
  · have hne : p.normalize.spelling ≠ "" := by
      intro hempty
      have hlist := spelling_ofNames (p.components.foldl cancel [])
      rw [← normalize_of_ne_empty h, hempty] at hlist
      simp at hlist
    rw [normalize_of_ne_empty hne, components_normalize h, List.foldl_cons, foldl_cancel_names,
      normalize_of_ne_empty h]
    rfl

/-- Of the spellings of a path only one is normal. -/
theorem eq_of_normal {a b : Path} (ha : a.normalize = a) (hb : b.normalize = b)
    (h : compare a b = .eq) : a = b := by
  have hcomponents := components_eq_of_compare h
  have hempty {p : Path} (hp : p.normalize = p) : p.spelling = "" ↔ p.components = [] := by
    constructor
    · intro hnil
      rw [components, isAbsolute, hnil]
      rfl
    · intro hnil
      by_cases hne : p.spelling = ""
      · exact hne
      · have hroot := components_normalize hne
        rw [hp, hnil] at hroot
        simp at hroot
  by_cases hnil : a.spelling = ""
  · have hnil' : b.spelling = "" := (hempty hb).mpr (hcomponents ▸ (hempty ha).mp hnil)
    exact congrArg Path.mk (hnil.trans hnil'.symm)
  · have hnil' : b.spelling ≠ "" := fun hb' =>
      hnil ((hempty ha).mpr (hcomponents ▸ (hempty hb).mp hb'))
    rw [← ha, ← hb, normalize_of_ne_empty hnil, normalize_of_ne_empty hnil', hcomponents]

end Path

end JavaAtlas
