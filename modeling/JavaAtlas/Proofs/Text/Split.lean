import JavaAtlas.Text.Split
import JavaAtlas.Proofs.Text.ByteOrder
import Mathlib.Data.List.TakeWhile

/-!
# Texts in pieces

Splitting a text and joining the pieces are inverse to each other where no piece has a separator in
it. So a dotted name is the list of its segments: what precedes its last dot is the list without its
last entry, and the names on the way to it are the prefixes of the list.
-/

namespace JavaAtlas.Text

set_option autoImplicit false

variable {sep : Char → Bool}

theorem splitWhere_of_not_mem {cs : List Char} (h : ∀ c ∈ cs, sep c = false) :
    splitWhere sep cs = [cs] := by
  induction cs with
  | nil => rfl
  | cons c cs ih =>
    rw [List.forall_mem_cons] at h
    rw [splitWhere, h.1, ih h.2]
    rfl

theorem splitWhere_append {c : Char} (hc : sep c = true) (front rest : List Char) :
    splitWhere sep (front ++ c :: rest) = splitWhere sep front ++ splitWhere sep rest := by
  induction front with
  | nil =>
    rw [List.nil_append, splitWhere.eq_2, if_pos hc]
    rfl
  | cons x front ih =>
    rw [List.cons_append, splitWhere, splitWhere, ih]
    split
    · rfl
    · cases hpieces : splitWhere sep front with
      | nil => exact absurd hpieces (splitWhere_ne_nil sep front)
      | cons piece pieces => rfl

theorem splitWhere_intercalate {c : Char} (hc : sep c = true) {pieces : List (List Char)}
    (hne : pieces ≠ []) (h : ∀ piece ∈ pieces, ∀ x ∈ piece, sep x = false) :
    splitWhere sep ([c].intercalate pieces) = pieces := by
  induction pieces with
  | nil => exact absurd rfl hne
  | cons piece pieces ih =>
    rw [List.forall_mem_cons] at h
    cases pieces with
    | nil =>
      rw [List.intercalate_singleton]
      exact splitWhere_of_not_mem h.1
    | cons next pieces =>
      rw [List.intercalate_cons_cons, List.append_assoc, List.singleton_append,
        splitWhere_append hc, splitWhere_of_not_mem h.1, ih (by simp) h.2, List.singleton_append]

theorem intercalate_splitWhere (c : Char) (cs : List Char) :
    [c].intercalate (splitWhere (· == c) cs) = cs := by
  induction cs with
  | nil => rfl
  | cons x cs ih =>
    rw [splitWhere]
    split
    next hx =>
      rw [List.intercalate_cons_of_ne_nil (splitWhere_ne_nil _ cs), ih, beq_iff_eq.mp hx]
      rfl
    next =>
      cases hpieces : splitWhere (· == c) cs with
      | nil => exact absurd hpieces (splitWhere_ne_nil _ cs)
      | cons piece pieces =>
        rw [hpieces] at ih
        rw [← ih]
        cases pieces with
        | nil => rfl
        | cons next pieces => simp

theorem not_sep_of_mem_splitWhere {cs piece : List Char} (h : piece ∈ splitWhere sep cs) :
    ∀ c ∈ piece, sep c = false := by
  induction cs generalizing piece with
  | nil =>
    rw [List.mem_singleton.mp h]
    simp
  | cons c cs ih =>
    rw [splitWhere] at h
    split at h
    · rcases List.mem_cons.mp h with rfl | h
      · simp
      · exact ih h
    · rename_i hc
      have hc : sep c = false := Bool.eq_false_iff.mpr hc
      split at h
      · rw [List.mem_singleton.mp h, List.forall_mem_singleton]
        exact hc
      · rename_i first rest hsplit
        rcases List.mem_cons.mp h with rfl | h
        · rw [List.forall_mem_cons]
          exact ⟨hc, ih (by rw [hsplit]; exact List.mem_cons_self)⟩
        · exact ih (by rw [hsplit]; exact List.mem_cons_of_mem _ h)

/-! ## The last dot -/

theorem ne_dot_of_mem_reverse {name : String} (h : '.' ∉ name.toList) :
    ∀ c ∈ name.toList.reverse, (c != '.') = true := by
  intro c hc
  rw [bne_iff_ne]
  rintro rfl
  exact h (List.mem_reverse.mp hc)

theorem splitLast?_append_dot (front : String) {name : String} (h : '.' ∉ name.toList) :
    splitLast? '.' (front ++ "." ++ name) = some (front, name) := by
  have hrev : (front ++ "." ++ name).toList.reverse =
      name.toList.reverse ++ '.' :: front.toList.reverse := by
    simp
  have hclean := ne_dot_of_mem_reverse h
  rw [splitLast?, hrev, List.dropWhile_append_of_pos hclean, List.takeWhile_append_of_pos hclean]
  simp

theorem splitLast?_of_no_dot {name : String} (h : '.' ∉ name.toList) : splitLast? '.' name = none := by
  rw [splitLast?, List.dropWhile_eq_nil_iff.mpr (ne_dot_of_mem_reverse h)]

theorem lastSegment_append_dot (front : String) {name : String} (h : '.' ∉ name.toList) :
    lastSegment (front ++ "." ++ name) = name := by
  rw [lastSegment, splitLast?_append_dot front h]

theorem lastSegment_of_no_dot {name : String} (h : '.' ∉ name.toList) : lastSegment name = name := by
  rw [lastSegment, splitLast?_of_no_dot h]

/-! ## Segments -/

theorem segments_ne_nil (name : String) : segments name ≠ [] := by
  rw [segments, split, ne_eq, List.map_eq_nil_iff]
  exact splitWhere_ne_nil _ _

theorem no_dot_of_mem_segments {name segment : String} (h : segment ∈ segments name) :
    '.' ∉ segment.toList := by
  obtain ⟨piece, hpiece, rfl⟩ := List.mem_map.mp h
  rw [String.toList_ofList]
  intro hdot
  simpa using not_sep_of_mem_splitWhere hpiece '.' hdot

theorem segments_append_dot (front rest : String) :
    segments (front ++ "." ++ rest) = segments front ++ segments rest := by
  have hlist : (front ++ "." ++ rest).toList = front.toList ++ '.' :: rest.toList := by simp
  rw [segments, split, hlist, splitWhere_append (by rfl), List.map_append]
  rfl

theorem intercalate_segments (name : String) : ".".intercalate (segments name) = name := by
  rw [← String.toList_inj, String.toList_intercalate, segments, split, List.map_map]
  have hpieces : (splitWhere (· == '.') name.toList).map (String.toList ∘ String.ofList) =
      splitWhere (· == '.') name.toList := by
    simp [Function.comp_def]
  rw [hpieces]
  exact intercalate_splitWhere '.' name.toList

theorem segments_intercalate {pieces : List String} (hne : pieces ≠ [])
    (h : ∀ piece ∈ pieces, '.' ∉ piece.toList) : segments (".".intercalate pieces) = pieces := by
  have hsplit : splitWhere (· == '.') (".".intercalate pieces).toList = pieces.map String.toList := by
    rw [String.toList_intercalate]
    refine splitWhere_intercalate (by rfl) (by simpa using hne) ?_
    intro piece hpiece c hc
    obtain ⟨s, hs, rfl⟩ := List.mem_map.mp hpiece
    rw [beq_eq_false_iff_ne]
    rintro rfl
    exact h s hs hc
  rw [segments, split, hsplit, List.map_map]
  simp [Function.comp_def]

theorem segments_of_no_dot {name : String} (h : '.' ∉ name.toList) : segments name = [name] := by
  have hone := segments_intercalate (List.cons_ne_nil name []) (List.forall_mem_singleton.mpr h)
  rwa [String.intercalate_singleton] at hone

theorem segments_injective {a b : String} (h : segments a = segments b) : a = b := by
  rw [← intercalate_segments a, h, intercalate_segments]

theorem stripPrefix?_eq_some_iff {head cs rest : List Char} :
    stripPrefix? head cs = some rest ↔ cs = head ++ rest := by
  induction head generalizing cs with
  | nil => simp [stripPrefix?]
  | cons h head ih =>
    cases cs with
    | nil => simp [stripPrefix?]
    | cons c cs =>
      rw [stripPrefix?, List.cons_append, List.cons.injEq]
      split
      next heq => rw [ih, and_iff_right heq.symm]
      next hne => exact iff_of_false (by simp) fun h => hne h.1.symm

theorem stripSuffix?_eq_some_iff {tail cs rest : List Char} :
    stripSuffix? tail cs = some rest ↔ cs = rest ++ tail := by
  simp only [stripSuffix?, Option.map_eq_some_iff, stripPrefix?_eq_some_iff]
  constructor
  · rintro ⟨front, hfront, rfl⟩
    rw [← List.reverse_reverse cs, hfront, List.reverse_append, List.reverse_reverse]
  · rintro rfl
    exact ⟨rest.reverse, List.reverse_append, List.reverse_reverse rest⟩

/-- The dotted name is `lead`, or goes on after it with a dot. -/
def Leads (lead name : String) : Prop := name = lead ∨ startsWith (lead ++ ".") name = true

theorem leads_iff {lead name : String} : Leads lead name ↔ segments lead <+: segments name := by
  constructor
  · rintro (rfl | hstart)
    · exact List.prefix_rfl
    · obtain ⟨rest, hrest⟩ := startsWith_iff.mp hstart
      have hname : name = lead ++ "." ++ String.ofList rest := by
        rw [← String.toList_inj, ← hrest]
        simp
      rw [hname, segments_append_dot]
      exact List.prefix_append _ _
  · rintro ⟨more, hmore⟩
    by_cases hnil : more = []
    · rw [hnil, List.append_nil] at hmore
      exact Or.inl (segments_injective hmore.symm)
    · have hname : name = lead ++ "." ++ ".".intercalate more := by
        rw [← intercalate_segments name, ← hmore,
          String.intercalate_append_of_ne_nil (segments_ne_nil lead) hnil, intercalate_segments]
      refine Or.inr (startsWith_iff.mpr ⟨(".".intercalate more).toList, ?_⟩)
      rw [hname, ← String.toList_append]

theorem ownerOf?_eq_some_iff {name owner : String} :
    ownerOf? name = some owner ↔ (segments name).dropLast = segments owner := by
  obtain ⟨init, last, hsegments⟩ := (List.eq_nil_or_concat' (segments name)).resolve_left
    (segments_ne_nil name)
  have hdots : ∀ segment ∈ init ++ [last], '.' ∉ segment.toList := by
    rw [← hsegments]
    exact fun _ => no_dot_of_mem_segments
  rw [List.forall_mem_append, List.forall_mem_singleton] at hdots
  rw [hsegments, List.dropLast_concat]
  by_cases hnil : init = []
  · have hname : name = last := by
      rw [← intercalate_segments name, hsegments, hnil, List.nil_append, String.intercalate_singleton]
    rw [ownerOf?, hname, splitLast?_of_no_dot hdots.2, hnil]
    exact iff_of_false (by simp) (segments_ne_nil owner).symm
  · have hname : name = ".".intercalate init ++ "." ++ last := by
      rw [← intercalate_segments name, hsegments,
        String.intercalate_append_of_ne_nil hnil (List.cons_ne_nil last []),
        String.intercalate_singleton]
    rw [ownerOf?, hname, splitLast?_append_dot _ hdots.2, Option.map_some, Option.some.injEq]
    constructor
    · rintro rfl
      exact (segments_intercalate hnil hdots.1).symm
    · intro howner
      rw [howner, intercalate_segments]

end JavaAtlas.Text
