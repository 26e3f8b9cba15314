import JavaAtlas.Completion.Site
import JavaAtlas.Proofs.Text.Ends
import JavaAtlas.Proofs.Text.Split

/-!
# Where the typed identifier and the site part

The identifier fragment and the site are both found by going backwards from an offset. Main
statement: for every text and every offset they go back from the same character boundary, and the
site's pieces, the white space and the dot between them and the fragment are the text before it.
-/

namespace JavaAtlas

set_option autoImplicit false

open Text (Blank EndsOutside isBlank isIdentifierPart)

namespace Site

/-- What a site says of the text `before` the cursor, which ends with the characters `typed`. -/
inductive Reads (before typed : List Char) : Site → Prop
  | free : (∀ rest gap, before = rest ++ gap ++ typed → Blank gap → ¬ ['.'] <:+ rest) →
      Reads before typed .free
  | select {head chain : String} {gap space : List Char} :
      before = head.toList ++ chain.toList ++ gap ++ ['.'] ++ space ++ typed →
      (∀ c ∈ chain.toList, isIdentifierPart c = true ∨ c = '.') →
      EndsOutside isChainPart head.toList → Blank gap → Blank space →
      Reads before typed (.select head chain)
  | statement (parent : String) (types : Bool) : Reads before typed (.statement parent types)

theorem statementOf?_eq_some {head : List Char} {site : Site} (h : statementOf? head = some site) :
    ∃ parent types, site = .statement parent types := by
  simp only [statementOf?] at h
  split at h
  · exact ⟨_, _, (Option.some.inj h).symm⟩
  · obtain ⟨rest, -, rfl⟩ := Option.map_eq_some_iff.mp h
    exact ⟨_, _, rfl⟩

theorem reads_of_select {head : List Char} {site : Site} (h : selectOf? head = some site)
    (typed : List Char) : Reads (head ++ typed) typed site := by
  obtain ⟨beforeDot, hdot, hsite⟩ := Option.bind_eq_some_iff.mp h
  cases hsite
  obtain ⟨space, hspace, hhead, -⟩ := Text.exists_trimEnd head
  obtain ⟨gap, hgap, hreceiver, -⟩ := Text.exists_trimEnd beforeDot
  refine .select ?_ ?_ ?_ hgap hspace
  · rw [String.toList_ofList, String.toList_ofList, Text.dropSuffixWhile_append_suffixWhile,
      ← hreceiver, ← Text.stripSuffix?_eq_some_iff.mp hdot, ← hhead]
  · intro c hc
    rw [String.toList_ofList] at hc
    have hpart := Text.of_mem_suffixWhile hc
    simpa [isChainPart] using hpart
  · rw [String.toList_ofList]
    exact Text.endsOutside_dropSuffixWhile isChainPart _

theorem reads_free {head : List Char} (h : selectOf? head = none) (typed : List Char) :
    Reads (head ++ typed) typed .free := by
  apply Reads.free
  rintro rest gap hsplit hgap ⟨front, rfl⟩
  have hhead : head = front ++ ['.'] ++ gap := List.append_cancel_right hsplit
  have hend : EndsOutside isBlank (front ++ ['.']) := by
    intro hne
    rw [List.getLast_append_singleton]
    rfl
  have hdot : Text.stripSuffix? ['.'] (Text.trimEnd head) = some front := by
    rw [hhead, Text.trimEnd_append hend hgap]
    exact Text.stripSuffix?_eq_some_iff.mpr rfl
  simp [selectOf?, hdot] at h

/-- Cut off what was typed, and the site is read off the rest. -/
theorem reads_classify {text typed : String} {offset : Nat} {before : List Char}
    (hbefore : Text.takeBytes offset text.toList = before) (htyped : typed.toList <:+ before) :
    Reads before typed.toList (classify text offset typed) := by
  obtain ⟨head, rfl⟩ := htyped
  have hhead : headOf text offset typed = head := by
    rw [headOf, Text.stripSuffix?_eq_some_iff.mpr hbefore]
    rfl
  rw [classify, hhead]
  cases hstatement : statementOf? head with
  | some site =>
    obtain ⟨parent, types, rfl⟩ := statementOf?_eq_some hstatement
    exact .statement parent types
  | none =>
    cases hselect : selectOf? head with
    | some site => exact reads_of_select hselect typed.toList
    | none => exact reads_free hselect typed.toList

/-- The typed fragment is the longest suffix of identifier characters of the text before the cursor,
and the site reads the text before the fragment. -/
theorem classify_partialIdentifier (text : String) (offset : Nat) :
    ∃ before after : String, text = before ++ after ∧
      IsGreatest {n | n ≤ min offset text.utf8ByteSize ∧ String.Pos.Raw.IsValid text ⟨n⟩}
        before.utf8ByteSize ∧
      (∀ tail, tail <:+ (Text.partialIdentifier text offset).toList ↔
        tail <:+ before.toList ∧ ∀ c ∈ tail, isIdentifierPart c = true) ∧
      Reads before.toList (Text.partialIdentifier text offset).toList
        (classify text offset (Text.partialIdentifier text offset)) := by
  obtain ⟨before, after, hbefore, htext, hgreatest⟩ := Text.exists_takeBytes text offset
  have hlongest : ∀ tail, tail <:+ (Text.partialIdentifier text offset).toList ↔
      tail <:+ before.toList ∧ ∀ c ∈ tail, isIdentifierPart c = true := by
    intro tail
    rw [Text.partialIdentifier, String.toList_ofList, hbefore]
    exact Text.suffix_suffixWhile_iff
  obtain ⟨hsuffix, -⟩ := (hlongest _).mp (List.suffix_refl _)
  exact ⟨before, after, htext, hgreatest, hlongest, reads_classify hbefore.symm hsuffix⟩

/-- The offset is inside the last character. -/
example : classify "x = a.b . cé" 12 (Text.partialIdentifier "x = a.b . cé" 12) =
    .select "x = " "a.b" := by
  decide +kernel

end Site

end JavaAtlas
