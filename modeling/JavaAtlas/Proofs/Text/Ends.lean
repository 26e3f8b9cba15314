import JavaAtlas.Text.Blank
import JavaAtlas.Text.Identifier
import Mathlib.Data.List.DropRight
import Mathlib.Data.String.Basic
import Mathlib.Order.Bounds.Basic

/-!
# The ends of a text

A text is cut where a kind of character stops: at its end, or at both ends for blanks. Each cut is
determined by what is cut off and by the character before it. An offset cuts it at the last character
boundary that is not behind it.
-/

namespace JavaAtlas.Text

set_option autoImplicit false

variable {p : Char → Bool} {cs front tail : List Char}

theorem of_mem_suffixWhile {c : Char} (h : c ∈ suffixWhile p cs) : p c = true :=
  List.mem_rtakeWhile_imp h

theorem suffix_suffixWhile_iff :
    tail <:+ suffixWhile p cs ↔ tail <:+ cs ∧ ∀ c ∈ tail, p c = true := by
  constructor
  · intro h
    refine ⟨h.trans (List.rtakeWhile_suffix p cs), ?_⟩
    intro c hc
    exact of_mem_suffixWhile (h.subset hc)
  · rintro ⟨⟨front, rfl⟩, hall⟩
    rw [suffixWhile, List.reverse_append, List.takeWhile_append_of_pos, List.reverse_append,
      List.reverse_reverse]
    · exact List.suffix_append _ tail
    · intro c hc
      exact hall c (List.mem_reverse.mp hc)

/-- The text does not end with a character of the kind. -/
def EndsOutside (p : Char → Bool) (cs : List Char) : Prop := ∀ h : cs ≠ [], p (cs.getLast h) = false

theorem endsOutside_dropSuffixWhile (p : Char → Bool) (cs : List Char) :
    EndsOutside p (dropSuffixWhile p cs) := by
  intro h
  exact Bool.eq_false_iff.mpr (List.rdropWhile_last_not p cs h)

theorem dropSuffixWhile_append (hfront : EndsOutside p front) (htail : ∀ c ∈ tail, p c = true) :
    dropSuffixWhile p (front ++ tail) = front := by
  have hkeep : dropSuffixWhile p front = front := by
    apply List.rdropWhile_eq_self_iff.mpr
    intro h
    exact Bool.eq_false_iff.mp (hfront h)
  rw [dropSuffixWhile, List.reverse_append, List.dropWhile_append_of_pos]
  · exact hkeep
  · intro c hc
    exact htail c (List.mem_reverse.mp hc)

/-! ## Blanks -/

def Blank (cs : List Char) : Prop := ∀ c ∈ cs, isBlank c = true

theorem exists_trimEnd (cs : List Char) :
    ∃ gap, Blank gap ∧ cs = trimEnd cs ++ gap ∧ EndsOutside isBlank (trimEnd cs) :=
  ⟨suffixWhile isBlank cs, fun _ => of_mem_suffixWhile,
    (dropSuffixWhile_append_suffixWhile isBlank cs).symm, endsOutside_dropSuffixWhile isBlank cs⟩

theorem trimEnd_append {gap : List Char} (hfront : EndsOutside isBlank front) (hgap : Blank gap) :
    trimEnd (front ++ gap) = front :=
  dropSuffixWhile_append hfront hgap

theorem exists_trim (cs : List Char) :
    ∃ before after, Blank before ∧ Blank after ∧ cs = before ++ trim cs ++ after := by
  obtain ⟨after, hafter, hend, -⟩ := exists_trimEnd (trimStart cs)
  refine ⟨cs.takeWhile isBlank, after, fun c hc => List.mem_takeWhile_imp hc, hafter, ?_⟩
  rw [trim, List.append_assoc, ← hend, trimStart, List.takeWhile_append_dropWhile]

/-- What stands between blanks and holds none is all that is left. -/
theorem trim_append {before word after : List Char} (hbefore : Blank before)
    (hword : ∀ c ∈ word, isBlank c = false) (hafter : Blank after) :
    trim (before ++ word ++ after) = word := by
  have hend : EndsOutside isBlank word := fun h => hword _ (List.getLast_mem h)
  rw [trim, trimStart, List.append_assoc, List.dropWhile_append_of_pos hbefore]
  cases word with
  | nil =>
    rw [List.nil_append, List.dropWhile_eq_nil_iff.mpr hafter]
    rfl
  | cons c word =>
    rw [List.cons_append, List.dropWhile_cons_of_neg (by simp [hword]), ← List.cons_append]
    exact trimEnd_append hend hafter

/-! ## Offsets -/

theorem byteLength_eq_utf8Len (cs : List Char) : byteLength cs = String.utf8Len cs := by
  induction cs with
  | nil => rfl
  | cons c cs ih => rw [byteLength, ih, String.utf8Len_cons, Nat.add_comm]

theorem byteLength_toList (s : String) : byteLength s.toList = s.utf8ByteSize := by
  rw [byteLength_eq_utf8Len, String.utf8Len_toList]

theorem byteLength_le_of_prefix (h : front <+: cs) : byteLength front ≤ byteLength cs := by
  rw [byteLength_eq_utf8Len, byteLength_eq_utf8Len]
  exact String.utf8Len_le_of_prefix h

/-- The prefixes of at most so many bytes are those of the longest one. -/
theorem prefix_takeBytes_iff {n : Nat} :
    front <+: takeBytes n cs ↔ front <+: cs ∧ byteLength front ≤ n := by
  induction cs generalizing n front with
  | nil =>
    rw [takeBytes, List.prefix_nil]
    constructor
    · rintro rfl
      exact ⟨rfl, Nat.zero_le n⟩
    · exact fun h => h.1
  | cons c cs ih =>
    cases front with
    | nil => simp [byteLength]
    | cons d front =>
      rw [takeBytes, byteLength, List.cons_prefix_cons]
      split
      next hfits =>
        rw [List.cons_prefix_cons, ih, and_assoc]
        apply and_congr_right
        rintro rfl
        apply and_congr_right
        intro _
        omega
      next hlong =>
        simp only [List.prefix_nil, reduceCtorEq, false_iff]
        rintro ⟨⟨rfl, -⟩, hle⟩
        omega

/-- The text up to an offset ends at the greatest character boundary that is neither behind the
offset nor behind the end. -/
theorem exists_takeBytes (text : String) (offset : Nat) :
    ∃ before after : String, before.toList = takeBytes offset text.toList ∧ text = before ++ after ∧
      IsGreatest {n | n ≤ min offset text.utf8ByteSize ∧ String.Pos.Raw.IsValid text ⟨n⟩}
        before.utf8ByteSize := by
  obtain ⟨hlongest, hle⟩ :=
    prefix_takeBytes_iff.mp (List.prefix_refl (takeBytes offset text.toList))
  obtain ⟨before, hbefore⟩ : ∃ before : String, before.toList = takeBytes offset text.toList :=
    ⟨_, String.toList_ofList⟩
  rw [← hbefore] at hlongest hle
  have hlength := byteLength_le_of_prefix hlongest
  rw [byteLength_toList] at hle hlength
  rw [byteLength_toList] at hlength
  obtain ⟨after, hafter⟩ := hlongest
  have htext : text = before ++ String.ofList after := by
    rw [← String.toList_inj, String.toList_append, String.toList_ofList, hafter]
  refine ⟨before, _, hbefore, htext, ⟨Nat.le_min.mpr ⟨hle, hlength⟩, ?_⟩, ?_⟩
  · exact String.Pos.Raw.isValid_iff_exists_append.mpr ⟨_, _, htext, rfl⟩
  · rintro n ⟨hn, hvalid⟩
    obtain ⟨front, back, hsplit, hpos⟩ := String.Pos.Raw.isValid_iff_exists_append.mp hvalid
    have hsize : n = byteLength front.toList := by
      rw [byteLength_toList]
      exact congrArg String.Pos.Raw.byteIdx hpos
    have hfront : front.toList <+: before.toList := by
      rw [hbefore]
      apply prefix_takeBytes_iff.mpr
      refine ⟨⟨back.toList, ?_⟩, ?_⟩
      · rw [← String.toList_append, ← hsplit]
      · omega
    rw [hsize, ← byteLength_toList before]
    exact byteLength_le_of_prefix hfront

end JavaAtlas.Text
