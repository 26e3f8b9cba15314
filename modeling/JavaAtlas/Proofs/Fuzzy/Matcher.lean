import JavaAtlas.Fuzzy.Matcher
import JavaAtlas.Proofs.Fuzzy.Placement

/-!
# A matcher in 32 bits

Whatever the rows of a matcher hold, it gives a candidate of at most 2^24 bytes the score that the
candidate has by itself, and no step leaves the range of 32 bits. Main statement: that score is the
greatest of all placements, and its kind says where the query stands.
-/

namespace JavaAtlas.Fuzzy

set_option autoImplicit false

theorem word_eq {x : Int} (h : -2147483648 ≤ x ∧ x ≤ 2147483647) : word x = some x := if_pos h

theorem word_nat {n : Nat} (h : n ≤ 16777216) : word n = some (n : Int) := word_eq (by omega)

theorem earn_eq {score : Int} (h : -1073741824 ≤ score ∧ score ≤ 1073741824) (q : UInt8) (cell : Cell) :
    earn score q cell.byte cell.wordStart = some (score + gain q cell) := by
  have hcase : (if q == cell.byte then (2 : Int) else 0) ≤ 2 ∧
      0 ≤ (if q == cell.byte then (2 : Int) else 0) := by
    split <;> decide
  unfold earn gain
  generalize (if q == cell.byte then (2 : Int) else 0) = case at hcase
  rw [word_eq (by omega), Option.bind_eq_bind, Option.bind_some]
  cases cell.wordStart with
  | true =>
    simp only [if_true]
    rw [word_eq (by omega), Option.bind_some, word_eq (by omega)]
    congr 1
    omega
  | false =>
    simp only [Bool.false_eq_true, if_false]
    rw [Option.bind_some, word_eq (by omega)]
    congr 1
    omega

theorem put_append (left : List Int) (rest : Nat) (v : Int) :
    put (left ++ List.replicate (rest + 1) unreachable) left.length v =
      some (left ++ [v] ++ List.replicate rest unreachable) := by
  rw [put, if_pos (by simp), List.replicate_succ, List.set_append_right _ _ (Nat.le_refl _),
    Nat.sub_self, List.set_cons_zero, List.append_assoc, List.singleton_append]

theorem append_unwritten (left : List Int) (rest : Nat) :
    left ++ List.replicate (rest + 1) unreachable =
      left ++ [unreachable] ++ List.replicate rest unreachable := by
  rw [List.replicate_succ, List.append_assoc, List.singleton_append]

theorem fillFirst_eq (q : UInt8) (front suffix : List Cell) {left : List Int}
    (hleft : left.length = front.length) (hlength : (front ++ suffix).length ≤ 16777216) :
    fillFirst ((front ++ suffix).map (·.wordStart)) q left.length (suffix.map (·.byte))
        (left ++ List.replicate suffix.length unreachable) =
      some (left ++ firstRow q left.length suffix) := by
  induction suffix generalizing front left with
  | nil => simp [fillFirst, firstRow]
  | cons cell suffix ih =>
    have hassoc : front ++ cell :: suffix = front ++ [cell] ++ suffix := by simp
    have hnext (v : Int) := @ih (front ++ [cell]) (left ++ [v]) (by simp [hleft]) (hassoc ▸ hlength)
    simp only [← hassoc, List.length_append, List.length_singleton] at hnext
    rw [List.length_append, List.length_cons] at hlength
    rw [List.map_cons, fillFirst, firstRow, List.length_cons]
    by_cases hfits : (fold cell.byte == fold q) = true
    · have hstart : ((front ++ cell :: suffix).map (·.wordStart))[left.length]? =
          some cell.wordStart := by
        rw [hleft]
        simp
      have hgain : gain q cell ≤ 27 ∧ 10 ≤ gain q cell := by
        unfold gain
        split <;> split <;> decide
      simp only [hfits, if_true, hstart, Option.bind_eq_bind, Option.bind_some]
      rw [earn_eq (by decide), Option.bind_some, word_nat (by omega), Option.bind_some,
        word_eq (by omega), Option.bind_some, put_append, Option.bind_some, hnext, Int.zero_add]
      simp
    · simp only [hfits, Bool.false_eq_true, if_false]
      rw [append_unwritten, hnext]
      simp

theorem mapM_eq_some {α β : Type} {f : α → Option β} {g : α → β} {l : List α}
    (h : ∀ a ∈ l, f a = some (g a)) : l.mapM f = some (l.map g) := by
  induction l with
  | nil => rfl
  | cons a l ih =>
    rw [List.mapM_cons, h a List.mem_cons_self, ih fun b hb => h b (List.mem_cons_of_mem a hb)]
    rfl

/-! ## Rows in range -/

/-- A row whose entries leave room for what is added to them. -/
structure InRange (row : List Int) : Prop where
  length_le : row.length ≤ 16777216
  bounds : ∀ v ∈ row, unreachable ≤ v ∧ v ≤ 536870912

section InRange

variable {row : List Int}

theorem InRange.bounds_get (h : InRange row) {j : Nat} {p : Int} (hget : row[j]? = some p) :
    unreachable ≤ p ∧ p ≤ 536870912 :=
  h.bounds p (List.mem_of_getElem? hget)

theorem InRange.bounds_runningAt (h : InRange row) {j : Nat} (hj : j ≤ row.length) :
    unreachable ≤ runningAt row j ∧ runningAt row j ≤ 553648128 := by
  have hlength := h.length_le
  rcases runningAt_cases row j with hnone | ⟨k, hk, p, hget, hp, hrunning⟩
  · rw [hnone]
    exact ⟨Int.le_refl _, by decide⟩
  · have hbounds := h.bounds_get hget
    unfold unreachable at *
    omega

theorem InRange.exists_left (h : InRange row) {j : Nat} (hj : j + 1 ≤ row.length) :
    ∃ p, row[j]? = some p ∧ -536870912 ≤ p ∧ p ≤ 536870912 :=
  have hget := List.getElem?_eq_getElem hj
  ⟨_, hget, h.bounds_get hget⟩

theorem InRange.advance?_eq (h : InRange row) {j : Nat} (hj : j ≤ row.length) :
    advance? row j (runningAt row (j - 1)) = some (runningAt row j) := by
  have hlength := h.length_le
  cases j with
  | zero => rfl
  | succ j =>
    obtain ⟨p, hget, hp⟩ := h.exists_left hj
    rw [advance?, if_neg (Nat.succ_ne_zero j), Nat.add_sub_cancel, hget, Option.bind_eq_bind,
      Option.bind_some, runningAt, hget]
    unfold advance
    by_cases hreal : p > floor
    · simp only [hreal, if_true]
      rw [word_nat (by omega), Option.bind_some, word_eq (by omega)]
      rfl
    · simp only [hreal, if_false]
      rfl

theorem InRange.before?_eq (h : InRange row) {j : Nat} (hj : j ≤ row.length) :
    before? row j (runningAt row j) = some (before j (runningAt row j) (leftOf row j)) := by
  have hlength := h.length_le
  have hrunning := h.bounds_runningAt hj
  have hapart : apart? j (runningAt row j) = some (apart j (runningAt row j)) := by
    unfold apart? apart
    split
    · rw [word_nat (by omega), Option.bind_eq_bind, Option.bind_some, word_eq]
      unfold unreachable at hrunning
      omega
    · rfl
  have hadjacent : adjacent? row j = some (adjacent (leftOf row j)) := by
    cases j with
    | zero => rfl
    | succ j =>
      obtain ⟨p, hget, hp⟩ := h.exists_left hj
      have hleft : leftOf row (j + 1) = some p := hget
      rw [hleft, adjacent?, if_neg (Nat.succ_ne_zero j), Nat.add_sub_cancel, hget, Option.bind_eq_bind,
        Option.bind_some, word_eq (by omega)]
      rfl
  rw [before?, hapart, hadjacent]
  rfl

theorem InRange.before_le (h : InRange row) {j : Nat} (hj : j ≤ row.length) :
    before j (runningAt row j) (leftOf row j) ≤ 553648128 := by
  have hrunning := h.bounds_runningAt hj
  apply max_le
  · unfold apart unreachable
    split <;> omega
  · rcases adjacent_cases row j with hnone | ⟨k, p, -, hget, hadjacent⟩
    · rw [hnone]
      decide
    · have hp := h.bounds_get hget
      omega

theorem fillNext_eq (q : UInt8) (hrow : InRange row) (front suffix : List Cell) {left : List Int}
    (hleft : left.length = front.length) (hlength : row.length = (front ++ suffix).length) :
    fillNext ((front ++ suffix).map (·.wordStart)) row q left.length (runningAt row (left.length - 1))
        (suffix.map (·.byte)) (left ++ List.replicate suffix.length unreachable) =
      some (left ++ nextRow q left.length (runningAt row (left.length - 1)) (leftOf row left.length)
        (suffix.zip (row.drop left.length))) := by
  induction suffix generalizing front left with
  | nil => simp [fillNext, nextRow]
  | cons cell suffix ih =>
    have hassoc : front ++ cell :: suffix = front ++ [cell] ++ suffix := by simp
    have hnext (v : Int) := @ih (front ++ [cell]) (left ++ [v]) (by simp [hleft]) (hassoc ▸ hlength)
    simp only [← hassoc, List.length_append, List.length_singleton, Nat.add_sub_cancel] at hnext
    rw [List.length_append, List.length_cons] at hlength
    have hj : left.length < row.length := by omega
    have habove : leftOf row (left.length + 1) = some row[left.length] := List.getElem?_eq_getElem hj
    rw [List.map_cons, fillNext, hrow.advance?_eq hj.le, Option.bind_eq_bind, Option.bind_some,
      List.drop_eq_getElem_cons hj, List.zip_cons_cons, nextRow_cons, advance_leftOf, ← habove,
      List.length_cons]
    unfold landing
    by_cases hfits : (fold cell.byte == fold q) = true
    · simp only [hfits, if_true]
      rw [hrow.before?_eq hj.le, Option.bind_eq_bind, Option.bind_some]
      split
      next hnone =>
        rw [append_unwritten, hnext, List.append_assoc, List.singleton_append]
      next hreal =>
        have hstart : ((front ++ cell :: suffix).map (·.wordStart))[left.length]? =
            some cell.wordStart := by
          rw [hleft]
          simp
        have hle := hrow.before_le hj.le
        rw [hstart, Option.bind_some, earn_eq (by unfold floor at hreal; omega), Option.bind_some,
          put_append, Option.bind_eq_bind, Option.bind_some, hnext, List.append_assoc,
          List.singleton_append]
    · simp only [hfits, Bool.false_eq_true, if_false]
      rw [append_unwritten, hnext, List.append_assoc, List.singleton_append]

theorem InRange.bestOfRow?_eq (h : InRange row) : bestOfRow? row = some (bestOfRow row) := by
  have hlength := h.length_le
  have hcharge : ∀ e ∈ row.zipIdx.filter fun e => e.1 > floor,
      (do word (e.1 - (← word (row.length - 1 - e.2 : Nat)))) =
        some (e.1 - Int.ofNat (row.length - 1 - e.2)) := by
    rintro ⟨v, j⟩ he
    obtain ⟨he, hv⟩ := List.mem_filter.mp he
    have hbounds := h.bounds_get (List.mem_zipIdx_iff_getElem?.mp he)
    unfold unreachable at hbounds
    simp only [Int.ofNat_eq_natCast]
    rw [word_nat (by omega), Option.bind_eq_bind, Option.bind_some, word_eq (by omega)]
  rw [bestOfRow?, mapM_eq_some hcharge]
  rfl

end InRange

/-! ## All rows -/

theorem map_byte_cells (candidate : List UInt8) : (cells candidate).map (·.byte) = candidate := by
  unfold cells
  generalize none = prior
  induction candidate generalizing prior with
  | nil => rfl
  | cons b rest ih => rw [cellsAfter, List.map_cons, ih]

section Rows

variable {candidate : List UInt8}

/-- The rows of a query that is no longer than the candidate stay in range. -/
theorem inRange_lastRow (hlength : candidate.length ≤ 16777216) {q : UInt8} {done : List UInt8}
    (hfits : (q :: done).length ≤ candidate.length) : InRange (lastRow (cells candidate) q done) := by
  have hrow := isRow_lastRow hlength q done
  refine ⟨hrow.length_eq ▸ hlength, fun v hv => ?_⟩
  obtain ⟨j, hj, rfl⟩ := List.getElem_of_mem hv
  rcases hrow.entry j _ (List.getElem?_eq_getElem hj) with ⟨hnone, -⟩ | hbest
  · rw [hnone]
    decide
  · have hbounds := Ends.bounds hbest.1
    have hplace := Ends.lt_length hbest.1 (List.cons_ne_nil q done)
    unfold unreachable
    omega

theorem fillFirst_row (hlength : candidate.length ≤ 16777216) (q : UInt8) :
    fillFirst ((cells candidate).map (·.wordStart)) q 0 candidate
        (List.replicate candidate.length unreachable) =
      some (lastRow (cells candidate) q []) := by
  have hfill := @fillFirst_eq q [] (cells candidate) [] rfl
    (by rwa [List.nil_append, length_cells])
  simp only [List.nil_append, List.length_nil, map_byte_cells, length_cells] at hfill
  exact hfill

theorem fillNext_row (hlength : candidate.length ≤ 16777216) {q : UInt8} {done : List UInt8}
    (hfits : (q :: done).length ≤ candidate.length) (b : UInt8) :
    fillNext ((cells candidate).map (·.wordStart)) (lastRow (cells candidate) q done) b 0 unreachable
        candidate (List.replicate candidate.length unreachable) =
      some (lastRow (cells candidate) q (done ++ [b])) := by
  have hrowLength := (isRow_lastRow hlength q done).length_eq
  have hfill := @fillNext_eq _ b (inRange_lastRow hlength hfits) [] (cells candidate) [] rfl
    (hrowLength.trans (length_cells candidate).symm)
  simp only [List.nil_append, List.length_nil, map_byte_cells, length_cells, List.drop_zero] at hfill
  rw [lastRow_append]
  exact hfill

theorem fillRows_eq (hlength : candidate.length ≤ 16777216) {q : UInt8} {done : List UInt8}
    (rest : List UInt8) (hfits : (q :: (done ++ rest)).length ≤ candidate.length) {m : Matcher}
    (habove : m.above = lastRow (cells candidate) q done)
    (hhere : m.here.length = candidate.length)
    (hstarts : m.starts = (cells candidate).map (·.wordStart)) :
    ∃ m', Matcher.fillRows candidate rest m = some m' ∧ m'.query = m.query ∧
      m'.above = lastRow (cells candidate) q (done ++ rest) := by
  induction rest generalizing done m with
  | nil => exact ⟨m, rfl, rfl, by rw [habove, List.append_nil]⟩
  | cons b rest ih =>
    have hassoc : done ++ b :: rest = done ++ [b] ++ rest := by simp
    have hdone : (q :: done).length ≤ candidate.length := by
      rw [List.length_cons, List.length_append] at hfits
      rw [List.length_cons]
      omega
    have hfill := fillNext_row hlength hdone b
    rw [← hstarts, ← habove] at hfill
    have hcleared : m.here.map (fun _ => unreachable) = List.replicate candidate.length unreachable := by
      rw [List.map_const', hhere]
    -- the row just filled becomes the row above, and the row above is written over next
    obtain ⟨m', hm', hquery, hlast⟩ := @ih (done ++ [b]) (hassoc ▸ hfits)
      { m with above := lastRow (cells candidate) q (done ++ [b]), here := m.above } rfl
      (habove ▸ (isRow_lastRow hlength q done).length_eq) hstarts
    refine ⟨m', ?_, hquery, hassoc ▸ hlast⟩
    rw [Matcher.fillRows, hcleared, hfill, Option.bind_eq_bind, Option.bind_some, hm']

theorem rows?_eq (hlength : candidate.length ≤ 16777216) (m : Matcher) {q : UInt8} {done : List UInt8}
    (hfits : (q :: done).length ≤ candidate.length) :
    ∃ m', m.rows? candidate q done = some m' ∧ m'.query = m.query ∧
      m'.above = lastRow (cells candidate) q done := by
  have hfirst : fillFirst (m.reset candidate).starts q 0 candidate (m.reset candidate).above =
      some (lastRow (cells candidate) q []) := fillFirst_row hlength q
  obtain ⟨m', hm', hsame, hlast⟩ := fillRows_eq hlength done hfits
    (m := { m.reset candidate with above := lastRow (cells candidate) q [] }) rfl
    (List.length_replicate ..) rfl
  refine ⟨m', ?_, hsame, hlast⟩
  unfold Matcher.rows?
  simp only [hfirst, Option.bind_eq_bind, Option.bind_some]
  exact hm'

theorem placementScore?_eq (hlength : candidate.length ≤ 16777216) (m : Matcher) :
    ∃ m', m.placementScore? candidate = some (m', placementScore m.query candidate) ∧
      m'.query = m.query := by
  unfold Matcher.placementScore? placementScore
  cases hquery : m.query with
  | nil => exact ⟨m, rfl, hquery⟩
  | cons q rest =>
    by_cases hlong : (q :: rest).length > candidate.length
    · exact ⟨m, by simp only [hlong, if_true], hquery⟩
    · have hfits : (q :: rest).length ≤ candidate.length := Nat.not_lt.mp hlong
      obtain ⟨m', hm', hsame, hlast⟩ := rows?_eq hlength m hfits
      have hbest := (inRange_lastRow hlength hfits).bestOfRow?_eq
      refine ⟨m', ?_, hsame.trans hquery⟩
      simp only [hlong, if_false]
      rw [hm', Option.bind_eq_bind, Option.bind_some, hlast, hbest]
      rfl

theorem same_le_length (query candidate : List UInt8) :
    (candidate.zip query).countP (fun e => e.1 == e.2) ≤ candidate.length := by
  apply Nat.le_trans List.countP_le_length
  rw [List.length_zip]
  exact Nat.min_le_left _ _

theorem prefixScore?_eq (hlength : candidate.length ≤ 16777216) (query : List UInt8) :
    prefixScore? query candidate = some (prefixScore query candidate) := by
  have hsame := same_le_length query candidate
  unfold prefixScore? prefixScore
  simp only [Int.ofNat_eq_natCast]
  rw [word_nat (by omega), Option.bind_eq_bind, Option.bind_some, word_nat (by omega),
    Option.bind_some, word_eq (by omega), Option.bind_some, word_eq (by omega)]

theorem score?_eq (hlength : candidate.length ≤ 16777216) (m : Matcher) :
    ∃ m', m.score? candidate = some (m', scoreBytes m.query candidate) ∧ m'.query = m.query := by
  unfold Matcher.score? scoreBytes
  by_cases hquery : m.query.isEmpty
  · exact ⟨m, by simp only [hquery, if_true], rfl⟩
  · by_cases hstarts : foldedPrefix m.query candidate
    · refine ⟨m, ?_, rfl⟩
      simp only [hquery, hstarts, if_true]
      rw [prefixScore?_eq hlength]
      rfl
    · obtain ⟨m', hm', hsame⟩ := placementScore?_eq hlength m
      refine ⟨m', ?_, hsame⟩
      simp only [hquery, hstarts]
      rw [hm']
      by_cases hinside : foldedInfix m.query candidate <;> simp [hinside]

theorem score?_ofQuery (query candidate : String) (hlength : (Text.encode candidate).length ≤ 16777216) :
    ∃ m, (Matcher.ofQuery query).score? (Text.encode candidate) = some (m, score query candidate) := by
  obtain ⟨m, hm, -⟩ := score?_eq hlength (Matcher.ofQuery query)
  exact ⟨m, hm⟩

/-! ## The sentinel -/

/-- In a row of the scores of `query`, what stands for "none" is told from every score. -/
structure Separated (query candidate : List UInt8) (row : List Int) : Prop where
  entry : ∀ j v, row[j]? = some v → (v = unreachable ∨ floor < v) ∧
    (floor < v ↔ ∃ w, Ends query candidate j w)
  running : ∀ j ≤ candidate.length,
    floor < runningAt row j ↔ ∃ k < j, ∃ w, Ends query candidate k w
  before : ∀ j ≤ candidate.length,
    floor < before j (runningAt row j) (leftOf row j) ↔ ∃ k < j, ∃ w, Ends query candidate k w

theorem IsRow.separated {query : List UInt8} {row : List Int} (hrow : IsRow query candidate row)
    (hlength : candidate.length ≤ 16777216) : Separated query candidate row := by
  -- a score to the left of a place shows in the row, where it is no lower than its place allows
  have hleft {j k : Nat} (hj : j ≤ candidate.length) (hk : k < j) (hw : ∃ w, Ends query candidate k w) :
      ∃ p, row[k]? = some p ∧ floor < p ∧ 10 - (k : Int) ≤ p := by
    obtain ⟨p, hget⟩ := hrow.exists_get (Nat.lt_of_lt_of_le hk hj)
    have hp := (hrow.floor_lt_iff hlength hget).mpr hw
    exact ⟨p, hget, hp, (Ends.bounds ((hrow.entry k p hget).of_floor_lt hp).1).1⟩
  constructor
  case entry =>
    intro j v hget
    refine ⟨?_, hrow.floor_lt_iff hlength hget⟩
    rcases hrow.entry j v hget with ⟨hnone, -⟩ | hbest
    · exact Or.inl hnone
    · exact Or.inr ((hrow.floor_lt_iff hlength hget).mpr ⟨v, hbest.1⟩)
  case running =>
    intro j hj
    constructor
    · intro hrunning
      rcases runningAt_cases row j with hnone | ⟨k, hk, p, hget, hp, -⟩
      · rw [hnone] at hrunning
        exact absurd hrunning (by decide)
      · exact ⟨k, hk, (hrow.floor_lt_iff hlength hget).mp hp⟩
    · rintro ⟨k, hk, hw⟩
      obtain ⟨p, hget, hp, hbound⟩ := hleft hj hk hw
      have hle := le_runningAt hk hget hp
      unfold floor
      omega
  case before =>
    intro j hj
    constructor
    · intro hbefore
      obtain ⟨k, hk, p, hget, hp, -⟩ := before_cases (Nat.le_trans hj hlength) hrow.low hbefore
      exact ⟨k, hk, (hrow.floor_lt_iff hlength hget).mp hp⟩
    · rintro ⟨k, hk, hw⟩
      obtain ⟨p, hget, hp, hbound⟩ := hleft hj hk hw
      have hle := le_before hk hget hp
      have hlink := link_bounds hk
      unfold floor
      omega

/-- A matcher for a query that is not empty, whatever its rows hold, gives a candidate the greatest
score of its placements. All steps stay within 32 bits, and in none of the rows it works through does
a score pass for "none". -/
theorem score?_greatest (m : Matcher) (candidate : List UInt8) (hquery : m.query ≠ [])
    (hlength : candidate.length ≤ 16777216) :
    (∃ m', m.score? candidate = some (m', scoreBytes m.query candidate) ∧ m'.query = m.query) ∧
    Tells m.query candidate (scoreBytes m.query candidate) ∧
    ∀ q done, q :: done <+: m.query → (q :: done).length ≤ candidate.length →
      ∃ m', m.rows? candidate q done = some m' ∧ Separated (q :: done) candidate m'.above := by
  refine ⟨score?_eq hlength m, tells_scoreBytes hquery hlength, ?_⟩
  intro q done _ hfits
  obtain ⟨m', hm', -, habove⟩ := rows?_eq hlength m hfits
  exact ⟨m', hm', habove ▸ (isRow_lastRow hlength q done).separated hlength⟩

/-- A matcher for `fb` that has scored another name before. -/
theorem score?_greatest_used :
    let used : Matcher :=
      { query := [102, 98], above := [3, 1, 4], here := [1, 5, 9], starts := [true, false] }
    let candidate : List UInt8 := [102, 111, 111, 66]
    (used.query ≠ [] ∧ candidate.length ≤ 16777216) ∧
      (∃ m', used.score? candidate = some (m', scoreBytes used.query candidate) ∧
        m'.query = used.query) ∧
      Tells used.query candidate (scoreBytes used.query candidate) ∧
      ∀ q done, q :: done <+: used.query → (q :: done).length ≤ candidate.length →
        ∃ m', used.rows? candidate q done = some m' ∧ Separated (q :: done) candidate m'.above :=
  ⟨⟨by decide, by decide⟩, score?_greatest _ _ (by decide) (by decide)⟩

end Rows

end JavaAtlas.Fuzzy
