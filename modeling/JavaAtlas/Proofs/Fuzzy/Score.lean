import JavaAtlas.Fuzzy.Score

/-!
# What the kind of a match says

The score of a name depends on the name alone, and its kind says where the query occurs in it: a
prefix match begins with the query, and every match that is not scattered contains it.
-/

namespace JavaAtlas.Fuzzy

set_option autoImplicit false

theorem foldedPrefix_nil (candidate : List UInt8) : foldedPrefix [] candidate = true := rfl

theorem foldedInfix_of_foldedPrefix {query candidate : List UInt8}
    (h : foldedPrefix query candidate = true) : foldedInfix query candidate = true := by
  cases candidate with
  | nil =>
    cases query with
    | nil => rfl
    | cons q query => simp [foldedPrefix] at h
  | cons c cs => rw [foldedInfix, h, Bool.true_or]

theorem head?_map_fold_of_foldedPrefix {query candidate : List UInt8}
    (h : foldedPrefix query candidate = true) (hquery : query ≠ []) :
    candidate.head?.map fold = query.head?.map fold := by
  match query, candidate with
  | [], _ => exact absurd rfl hquery
  | _ :: _, [] => simp [foldedPrefix] at h
  | q :: _, c :: _ =>
    simp only [foldedPrefix, List.map_cons, List.isPrefixOf_cons_cons, Bool.and_eq_true,
      beq_iff_eq] at h
    rw [List.head?_cons, List.head?_cons, Option.map_some, Option.map_some, h.1]

section Kind

variable {query candidate : List UInt8} {m : MatchScore}

theorem scoreBytes_of_foldedPrefix (hquery : query ≠ [])
    (hstarts : foldedPrefix query candidate = true) :
    scoreBytes query candidate =
      some ⟨if candidate.length == query.length then .exact else .leading,
        prefixScore query candidate⟩ := by
  unfold scoreBytes
  rw [if_neg (by rwa [List.isEmpty_iff]), if_pos hstarts]

theorem foldedPrefix_of_leading (h : scoreBytes query candidate = some m)
    (hkind : MatchKind.leading.rank ≤ m.kind.rank) : foldedPrefix query candidate = true := by
  rw [scoreBytes] at h
  split at h
  next hnil =>
    rw [List.isEmpty_iff.mp hnil]
    exact foldedPrefix_nil candidate
  next =>
    split at h
    next hstarts => exact hstarts
    next =>
      -- the score of a placement comes with one of the two weaker kinds
      split at h <;>
      · obtain ⟨score, -, rfl⟩ := Option.map_eq_some_iff.mp h
        simp [MatchKind.rank] at hkind

theorem weak_of_not_foldedPrefix (h : scoreBytes query candidate = some m)
    (hstarts : ¬ foldedPrefix query candidate = true) : m.kind = .substring ∨ m.kind = .scattered := by
  have hweak : ¬ MatchKind.leading.rank ≤ m.kind.rank := fun hstrong =>
    hstarts (foldedPrefix_of_leading h hstrong)
  cases hkind : m.kind with
  | substring => exact Or.inl rfl
  | scattered => exact Or.inr rfl
  | leading => exact absurd (Nat.le_refl _) (hkind ▸ hweak)
  | exact => exact absurd (by decide) (hkind ▸ hweak)

theorem foldedInfix_of_substring (h : scoreBytes query candidate = some m)
    (hkind : MatchKind.substring.rank ≤ m.kind.rank) : foldedInfix query candidate = true := by
  by_cases hstarts : MatchKind.leading.rank ≤ m.kind.rank
  · exact foldedInfix_of_foldedPrefix (foldedPrefix_of_leading h hstarts)
  · rw [scoreBytes] at h
    split at h
    · rw [← Option.some.inj h] at hstarts
      exact absurd (Nat.le_refl _) hstarts
    · split at h
      next hp => exact foldedInfix_of_foldedPrefix hp
      next =>
        split at h
        next hinside => exact hinside
        next =>
          obtain ⟨score, -, rfl⟩ := Option.map_eq_some_iff.mp h
          simp [MatchKind.rank] at hkind

end Kind

/-! ## The order of scores -/

theorem MatchKind.eq_of_rank_eq {a b : MatchKind} (h : a.rank = b.rank) : a = b := by
  cases a <;> cases b <;> simp_all [MatchKind.rank]

theorem MatchScore.eq_of_compare {a b : MatchScore} (h : a.compare b = .eq) : a = b := by
  rw [MatchScore.compare, Ordering.then_eq_eq] at h
  obtain ⟨hkind, hscore⟩ := h
  cases a
  cases b
  rw [MatchScore.mk.injEq]
  exact ⟨MatchKind.eq_of_rank_eq (Std.LawfulEqOrd.eq_of_compare hkind),
    Std.LawfulEqOrd.eq_of_compare hscore⟩

instance : Std.TransCmp MatchScore.compare :=
  inferInstanceAs (Std.TransCmp
    (compareLex (compareOn fun m : MatchScore => m.kind.rank) (compareOn MatchScore.score)))

end JavaAtlas.Fuzzy
