import JavaAtlas.Completion.Rank
import JavaAtlas.Proofs.Fuzzy.Matcher
import JavaAtlas.Proofs.Text.ByteOrder

/-!
# Levels and kinds of matches

The level of a candidate comes from comparing its first bytes with what was typed, and the kind of
its match from looking for what was typed anywhere in it. Both tell whole names, beginnings and other
matches apart in the same way.
-/

namespace JavaAtlas.Fuzzy

set_option autoImplicit false

section Bytes

variable {typed candidate : List UInt8}

/-- Cutting off as many bytes as were typed and comparing them is looking at the beginning. -/
theorem sameFolded_take_eq (typed candidate : List UInt8) :
    (typed.length ≤ candidate.length && sameFolded (candidate.take typed.length) typed) =
      foldedPrefix typed candidate := by
  unfold sameFolded
  rw [Bool.eq_iff_iff, foldedPrefix_iff, Bool.and_eq_true, decide_eq_true_iff, beq_iff_eq,
    List.prefix_iff_eq_take, List.length_map, ← List.map_take, @eq_comm _ (typed.map fold)]
  constructor
  · intro h
    exact h.2
  · intro h
    refine ⟨?_, h⟩
    have hlength := congrArg List.length h
    rw [List.length_map, List.length_map, List.length_take] at hlength
    omega

theorem foldedPrefix_of_isPrefixOf (h : typed.isPrefixOf candidate = true) :
    foldedPrefix typed candidate = true := by
  rw [foldedPrefix_iff]
  exact (List.isPrefixOf_iff_prefix.mp h).map fold

end Bytes

/-- A level and the kind of a match, if there is one, say the same. -/
structure MatchLevel.Agrees (level : MatchLevel) (kind : Option MatchKind) : Prop where
  none_iff : level = .noMatch ↔ kind = none
  exact_iff : level = .casedEqual ∨ level = .foldedEqual ↔ kind = some .exact
  leading_iff : level = .casedPrefix ∨ level = .foldedPrefix ↔ kind = some .leading
  weak_iff : level = .partly ↔ kind = some .substring ∨ kind = some .scattered

section Texts

variable {typed candidate : String}

theorem agrees_matchLevel (htyped : typed ≠ "") :
    (matchLevel typed candidate).Agrees ((score typed candidate).map (·.kind)) := by
  unfold matchLevel
  simp only [sameFolded_take_eq]
  by_cases hstarts : foldedPrefix (Text.encode typed) (Text.encode candidate) = true
  · rw [score, scoreBytes_of_foldedPrefix (Text.encode_ne_nil htyped) hstarts, Option.map_some,
      if_pos hstarts]
    split <;> split <;> constructor <;> simp
  · rw [if_neg fun h => hstarts (foldedPrefix_of_isPrefixOf h), if_neg hstarts]
    cases hscore : score typed candidate with
    | none => constructor <;> simp
    | some m =>
      rcases weak_of_not_foldedPrefix hscore hstarts with hkind | hkind <;>
        constructor <;> simp [hkind]

theorem prefixWeight_pos_iff_level (htyped : typed ≠ "") :
    0 < prefixWeight typed candidate ↔
      (matchLevel typed candidate = .casedEqual ∨ matchLevel typed candidate = .foldedEqual) ∨
        matchLevel typed candidate = .casedPrefix ∨ matchLevel typed candidate = .foldedPrefix := by
  unfold prefixWeight
  rw [if_neg htyped]
  cases matchLevel typed candidate <;> decide

theorem prefixWeight_pos_iff (htyped : typed ≠ "") :
    0 < prefixWeight typed candidate ↔
      (score typed candidate).map (·.kind) = some .exact ∨
        (score typed candidate).map (·.kind) = some .leading := by
  have hagrees := @agrees_matchLevel typed candidate htyped
  rw [prefixWeight_pos_iff_level htyped, hagrees.exact_iff, hagrees.leading_iff]

/-- What is close to the typed prefix is among what the filter keeps. -/
theorem isSome_of?_of_prefixWeight_pos (htyped : typed ≠ "") (c : Candidate)
    (h : 0 < prefixWeight typed c.label) : (CompletionItem.of? typed c).isSome = true := by
  rw [CompletionItem.of?, Option.isSome_map]
  cases hscore : score typed c.label with
  | some m => rfl
  | none =>
    rw [prefixWeight_pos_iff htyped, hscore] at h
    simp at h

/-- Level and kind agree on every candidate, also where a matcher in 32 bits finds the kind. A weight
goes to whole names and beginnings only, and no completion that has one is left out. -/
theorem level_agrees_with_kind (htyped : typed ≠ "") (hshort : candidate.utf8ByteSize ≤ 16777216) :
    let kind := (score typed candidate).map (·.kind)
    (∀ m : Matcher, m.query = Text.encode typed →
        ∃ m', m.score? (Text.encode candidate) = some (m', score typed candidate)) ∧
      (matchLevel typed candidate).Agrees kind ∧
      (0 < prefixWeight typed candidate ↔ kind = some .exact ∨ kind = some .leading) ∧
      ∀ c : Candidate, c.label = candidate → 0 < prefixWeight typed c.label →
        (CompletionItem.of? typed c).isSome = true := by
  intro kind
  refine ⟨fun m hm => ?_, agrees_matchLevel htyped, prefixWeight_pos_iff htyped,
    fun c _ => isSome_of?_of_prefixWeight_pos htyped c⟩
  have hlength : (Text.encode candidate).length ≤ 16777216 := by rwa [Text.length_encode]
  obtain ⟨m', hm', -⟩ := score?_eq hlength m
  rw [hm] at hm'
  exact ⟨m', hm'⟩

/-- The typed bytes end inside the second character of the candidate. -/
theorem level_agrees_with_kind_cut :
    "ab" ≠ "" ∧ "aéb".utf8ByteSize ≤ 16777216 ∧ matchLevel "ab" "aéb" = .partly ∧
      (matchLevel "ab" "aéb").Agrees ((score "ab" "aéb").map (·.kind)) ∧
      ¬ 0 < prefixWeight "ab" "aéb" := by
  have hshort : "aéb".utf8ByteSize ≤ 16777216 := by decide
  have h := @level_agrees_with_kind "ab" "aéb" (by decide) hshort
  refine ⟨by decide, hshort, by decide +kernel, h.2.1, fun hpos => ?_⟩
  exact absurd (h.2.2.1.mp hpos) (by decide +kernel)

end Texts

end JavaAtlas.Fuzzy
