import JavaAtlas.Proofs.Fuzzy.Score
import Mathlib.Data.List.Induction
import Mathlib.Algebra.Order.Ring.Int
import Mathlib.Data.List.Basic
import Mathlib.Order.Bounds.Defs

/-!
# The best placement of a query

A placement gives every byte of the query a place in the candidate, the places going up. Main
statement: a row of scores holds at every place the greatest reward of the placements that end there,
and what stands for "none" at the others.
-/

namespace JavaAtlas.Fuzzy

set_option autoImplicit false

/-- The places of the bytes of a query in a candidate, ASCII case aside. -/
structure Placed (query candidate : List UInt8) (places : List Nat) : Prop where
  increasing : places.Pairwise (· < ·)
  agrees : places.map (fun i => candidate[i]?.map fold) = query.map fun b => some (fold b)

def wordStartsAt (candidate : List UInt8) (i : Nat) : Bool :=
  candidate[i]?.any (startsWord (if i = 0 then none else candidate[i - 1]?))

/-- What query byte `q` earns at place `i`. -/
def gainAt (candidate : List UInt8) (q : UInt8) (i : Nat) : Int :=
  10 + (if wordStartsAt candidate i then 15 else 0) + (if candidate[i]? = some q then 2 else 0)

/-- Neighbours earn something, and a gap costs its length. -/
def link (i j : Nat) : Int := if j = i + 1 then 5 else -((j : Int) - i - 1)

def links : List Nat → Int
  | i :: j :: rest => link i j + links (j :: rest)
  | _ => 0

def reward (query candidate : List UInt8) (places : List Nat) : Int :=
  (query.zipWith (gainAt candidate) places).sum - places.head?.getD 0 + links places

def placedScore (query candidate : List UInt8) (places : List Nat) : Int :=
  reward query candidate places - ((candidate.length : Int) - 1 - places.getLast?.getD 0)

/-! ## Placements that end at a place -/

def Fits (candidate : List UInt8) (q : UInt8) (j : Nat) : Prop :=
  candidate[j]?.map fold = some (fold q)

theorem Fits.lt_length {candidate : List UInt8} {q : UInt8} {j : Nat} (h : Fits candidate q j) :
    j < candidate.length := by
  obtain ⟨b, hb, -⟩ := Option.map_eq_some_iff.mp h
  exact (List.getElem?_eq_some_iff.mp hb).1

/-- A placement that ends at `j` has the reward `v`. -/
def Ends (query candidate : List UInt8) (j : Nat) (v : Int) : Prop :=
  ∃ places, Placed query candidate (places ++ [j]) ∧ reward query candidate (places ++ [j]) = v

theorem links_append (places : List Nat) (k j : Nat) :
    links (places ++ [k] ++ [j]) = links (places ++ [k]) + link k j := by
  induction places with
  | nil => simp [links]
  | cons i places ih =>
    cases places with
    | nil => simp [links]
    | cons i' places =>
      simp only [List.cons_append] at ih
      simp only [List.cons_append, links, ih, Int.add_assoc]

theorem Placed.length_eq {query candidate : List UInt8} {places : List Nat}
    (h : Placed query candidate places) : query.length = places.length := by
  simpa using (congrArg List.length h.agrees).symm

theorem placed_append_iff (query candidate : List UInt8) (q : UInt8) (places : List Nat) (j : Nat) :
    Placed (query ++ [q]) candidate (places ++ [j]) ↔
      Placed query candidate places ∧ (∀ i ∈ places, i < j) ∧ Fits candidate q j := by
  constructor
  · rintro ⟨hincreasing, hagrees⟩
    rw [List.pairwise_append] at hincreasing
    rw [List.map_append, List.map_append] at hagrees
    obtain ⟨hrest, hlast⟩ := List.append_inj' hagrees rfl
    exact ⟨⟨hincreasing.1, hrest⟩, fun i hi => hincreasing.2.2 i hi j (List.mem_singleton_self j),
      List.singleton_inj.mp hlast⟩
  · rintro ⟨⟨hincreasing, hagrees⟩, hbelow, hfits⟩
    refine ⟨List.pairwise_append.mpr ⟨hincreasing, List.pairwise_singleton _ _, fun i hi x hx => ?_⟩, ?_⟩
    · rw [List.mem_singleton.mp hx]
      exact hbelow i hi
    · rw [List.map_append, List.map_append, hagrees]
      exact congrArg _ (List.singleton_inj.mpr hfits)

theorem reward_append {query candidate : List UInt8} {places : List Nat} {k : Nat}
    (h : query.length = (places ++ [k]).length) (q : UInt8) (j : Nat) :
    reward (query ++ [q]) candidate (places ++ [k] ++ [j]) =
      reward query candidate (places ++ [k]) + link k j + gainAt candidate q j := by
  have hhead : (places ++ [k] ++ [j]).head? = (places ++ [k]).head? := by
    cases places <;> rfl
  simp only [reward, List.zipWith_append h, List.sum_append, hhead, links_append, List.zipWith_cons_cons,
    List.zipWith_nil_left, List.sum_singleton]
  omega

theorem ends_singleton_iff (candidate : List UInt8) (q : UInt8) (j : Nat) (v : Int) :
    Ends [q] candidate j v ↔ Fits candidate q j ∧ v = gainAt candidate q j - j := by
  constructor
  · rintro ⟨places, hplaced, rfl⟩
    have hlength := hplaced.length_eq
    obtain rfl : places = [] := List.eq_nil_of_length_eq_zero (by simpa using hlength.symm)
    exact ⟨((placed_append_iff [] candidate q [] j).mp hplaced).2.2, by simp [reward, links]⟩
  · rintro ⟨hfits, rfl⟩
    refine ⟨[], (placed_append_iff [] candidate q [] j).mpr ⟨?_, by simp, hfits⟩, by simp [reward, links]⟩
    exact ⟨List.Pairwise.nil, rfl⟩

/-- The last byte of a longer query comes after a placement of the others. -/
theorem ends_append_iff {query : List UInt8} (hquery : query ≠ []) (candidate : List UInt8) (q : UInt8)
    (j : Nat) (v : Int) :
    Ends (query ++ [q]) candidate j v ↔ Fits candidate q j ∧
      ∃ k u, k < j ∧ Ends query candidate k u ∧ v = u + link k j + gainAt candidate q j := by
  constructor
  · rintro ⟨places, hplaced, rfl⟩
    obtain ⟨hrest, hbelow, hfits⟩ := (placed_append_iff query candidate q places j).mp hplaced
    have hlength := hrest.length_eq
    cases places using List.reverseRecOn with
    | nil => exact absurd (List.eq_nil_of_length_eq_zero hlength) hquery
    | append_singleton places k =>
      exact ⟨hfits, k, _, hbelow k (by simp), ⟨places, hrest, rfl⟩, reward_append hlength q j⟩
  · rintro ⟨hfits, k, u, hkj, ⟨places, hplaced, rfl⟩, rfl⟩
    have hbelow : ∀ i ∈ places ++ [k], i < j := by
      intro i hi
      rcases List.mem_append.mp hi with hi | hi
      · exact Nat.lt_trans ((List.pairwise_append.mp hplaced.increasing).2.2 i hi k (by simp)) hkj
      · rw [List.mem_singleton.mp hi]
        exact hkj
    exact ⟨places ++ [k], (placed_append_iff query candidate q _ j).mpr ⟨hplaced, hbelow, hfits⟩,
      reward_append hplaced.length_eq q j⟩

/-! ## How great a reward can be -/

theorem link_bounds {i j : Nat} (h : i < j) : -((j : Int) - i - 1) ≤ link i j ∧ link i j ≤ 5 := by
  rw [link]
  split <;> omega

theorem gainAt_bounds (candidate : List UInt8) (q : UInt8) (i : Nat) :
    10 ≤ gainAt candidate q i ∧ gainAt candidate q i ≤ 27 := by
  rw [gainAt]
  split <;> split <;> decide

theorem Ends.bounds {query candidate : List UInt8} {j : Nat} {v : Int} (h : Ends query candidate j v) :
    10 - (j : Int) ≤ v ∧ v ≤ 32 * query.length := by
  induction query using List.reverseRecOn generalizing j v with
  | nil =>
    obtain ⟨places, hplaced, -⟩ := h
    simpa using hplaced.length_eq
  | append_singleton query q ih =>
    have hgain := gainAt_bounds candidate q j
    by_cases hquery : query = []
    · subst hquery
      obtain ⟨-, rfl⟩ := (ends_singleton_iff candidate q j v).mp h
      simp only [List.nil_append, List.length_singleton]
      omega
    · obtain ⟨-, k, u, hkj, hends, rfl⟩ := (ends_append_iff hquery candidate q j v).mp h
      have hrest := ih hends
      have hlink := link_bounds hkj
      rw [List.length_append, List.length_singleton]
      omega

/-! ## The cells of a candidate -/

theorem getElem?_cellsAfter (prior : Option UInt8) (candidate : List UInt8) (i : Nat) :
    (cellsAfter prior candidate)[i]? = candidate[i]?.map fun b =>
      ⟨b, startsWord (if i = 0 then prior else candidate[i - 1]?) b⟩ := by
  induction candidate generalizing prior i with
  | nil => simp [cellsAfter]
  | cons b rest ih =>
    cases i with
    | zero => simp [cellsAfter]
    | succ i =>
      rw [cellsAfter, List.getElem?_cons_succ, ih, List.getElem?_cons_succ]
      cases i <;> simp

theorem length_cellsAfter (prior : Option UInt8) (candidate : List UInt8) :
    (cellsAfter prior candidate).length = candidate.length := by
  induction candidate generalizing prior with
  | nil => rfl
  | cons b rest ih => simp [cellsAfter, ih]

theorem length_cells (candidate : List UInt8) : (cells candidate).length = candidate.length :=
  length_cellsAfter none candidate

theorem gain_eq_gainAt {candidate : List UInt8} {j : Nat} {cell : Cell}
    (h : (cells candidate)[j]? = some cell) (q : UInt8) : gain q cell = gainAt candidate q j := by
  rw [cells, getElem?_cellsAfter] at h
  obtain ⟨b, hb, rfl⟩ := Option.map_eq_some_iff.mp h
  simp only [gain, gainAt, wordStartsAt, hb, Option.any_some, Option.some.injEq, beq_iff_eq,
    @eq_comm _ b q]

theorem fits_iff {candidate : List UInt8} {j : Nat} {cell : Cell}
    (h : (cells candidate)[j]? = some cell) (q : UInt8) :
    Fits candidate q j ↔ (fold cell.byte == fold q) = true := by
  rw [cells, getElem?_cellsAfter] at h
  obtain ⟨b, hb, rfl⟩ := Option.map_eq_some_iff.mp h
  simp [Fits, hb]

/-! ## Rows -/

def Entry (query candidate : List UInt8) (j : Nat) (v : Int) : Prop :=
  (v = unreachable ∧ ∀ w, ¬ Ends query candidate j w) ∨ IsGreatest {w | Ends query candidate j w} v

structure IsRow (query candidate : List UInt8) (row : List Int) : Prop where
  length_eq : row.length = candidate.length
  entry : ∀ j v, row[j]? = some v → Entry query candidate j v

theorem IsRow.exists_get {query candidate : List UInt8} {row : List Int}
    (h : IsRow query candidate row) {j : Nat} (hj : j < candidate.length) : ∃ v, row[j]? = some v :=
  ⟨_, List.getElem?_eq_getElem (h.length_eq ▸ hj)⟩

theorem Entry.of_floor_lt {query candidate : List UInt8} {j : Nat} {v : Int}
    (h : Entry query candidate j v) (hv : floor < v) : IsGreatest {w | Ends query candidate j w} v := by
  rcases h with ⟨rfl, -⟩ | h
  · exact absurd hv (by decide)
  · exact h

/-- In a candidate of moderate length no reward is as low as the floor. -/
theorem Ends.floor_lt {query candidate : List UInt8} {j : Nat} {v : Int} (h : Ends query candidate j v)
    (hj : j < 16777216) : floor < v := by
  have hbounds := h.bounds
  rw [floor]
  omega

theorem Entry.floor_lt_iff {query candidate : List UInt8} {j : Nat} {v : Int}
    (h : Entry query candidate j v) (hj : j < 16777216) :
    floor < v ↔ ∃ w, Ends query candidate j w := by
  refine ⟨fun hv => ⟨v, (h.of_floor_lt hv).1⟩, fun ⟨w, hw⟩ => ?_⟩
  rcases h with ⟨-, hnone⟩ | h
  · exact absurd hw (hnone w)
  · exact Ends.floor_lt h.1 hj

theorem IsRow.floor_lt_iff {query candidate : List UInt8} {row : List Int}
    (h : IsRow query candidate row) (hlength : candidate.length ≤ 16777216) {j : Nat} {v : Int}
    (hget : row[j]? = some v) : floor < v ↔ ∃ w, Ends query candidate j w := by
  have hj : j < candidate.length := h.length_eq ▸ (List.getElem?_eq_some_iff.mp hget).1
  exact (h.entry j v hget).floor_lt_iff (by omega)

/-- An entry that is a score is no lower than its place allows. -/
theorem IsRow.low {query candidate : List UInt8} {row : List Int} (h : IsRow query candidate row)
    (j : Nat) (v : Int) (hget : row[j]? = some v) : v = unreachable ∨ 10 - (j : Int) ≤ v :=
  (h.entry j v hget).imp And.left fun hbest => (Ends.bounds hbest.1).1

section Rows

variable {candidate : List UInt8}

theorem getElem?_firstRow (q : UInt8) (j : Nat) (suffix : List Cell) (i : Nat) :
    (firstRow q j suffix)[i]? = suffix[i]?.map fun cell =>
      if fold cell.byte == fold q then gain q cell - (j + i : Nat) else unreachable := by
  induction suffix generalizing j i with
  | nil => simp [firstRow]
  | cons cell suffix ih =>
    cases i with
    | zero => simp [firstRow]
    | succ i =>
      rw [firstRow, List.getElem?_cons_succ, ih, List.getElem?_cons_succ, Nat.add_right_comm,
        Nat.add_assoc]

theorem length_firstRow (q : UInt8) (j : Nat) (suffix : List Cell) :
    (firstRow q j suffix).length = suffix.length := by
  induction suffix generalizing j with
  | nil => rfl
  | cons cell suffix ih => simp [firstRow, ih]

theorem isRow_firstRow (q : UInt8) (candidate : List UInt8) :
    IsRow [q] candidate (firstRow q 0 (cells candidate)) where
  length_eq := (length_firstRow q 0 _).trans (length_cells candidate)
  entry j v hv := by
    rw [getElem?_firstRow, Nat.zero_add] at hv
    obtain ⟨cell, hcell, rfl⟩ := Option.map_eq_some_iff.mp hv
    have hends (w : Int) := ends_singleton_iff candidate q j w
    rw [fits_iff hcell] at hends
    split
    next hfits =>
      refine Or.inr ⟨(hends _).mpr ⟨hfits, by rw [gain_eq_gainAt hcell]⟩, fun w hw => ?_⟩
      exact Int.le_of_eq (((hends w).mp hw).2.trans (by rw [gain_eq_gainAt hcell]))
    next hfits => exact Or.inl ⟨rfl, fun w hw => hfits ((hends w).mp hw).1⟩

/-- The running score once the score to the left of `j` is seen. -/
def advance (running : Int) (left : Option Int) (j : Nat) : Int :=
  match left with
  | some p => if p > floor then max running (p + j) else running
  | none => running

/-- The greatest of the scores to the left of `j`, each raised by its distance from the start. -/
def runningAt (row : List Int) : Nat → Int
  | 0 => unreachable
  | j + 1 => advance (runningAt row j) row[j]? (j + 1)

def leftOf (row : List Int) (j : Nat) : Option Int := if j = 0 then none else row[j - 1]?

theorem advance_leftOf (row : List Int) (j : Nat) :
    advance (runningAt row (j - 1)) (leftOf row j) j = runningAt row j := by
  cases j <;> rfl

def apart (j : Nat) (running : Int) : Int := if running > floor then running - j else unreachable

def adjacent (left : Option Int) : Int := match left with | some p => p + 5 | none => unreachable

def before (j : Nat) (running : Int) (left : Option Int) : Int := max (apart j running) (adjacent left)

def landing (q : UInt8) (cell : Cell) (j : Nat) (running : Int) (left : Option Int) : Int :=
  if fold cell.byte == fold q then
    if before j running left ≤ floor then unreachable else before j running left + gain q cell
  else unreachable

theorem nextRow_cons (q : UInt8) (j : Nat) (running : Int) (left : Option Int) (cell : Cell)
    (above : Int) (rest : List (Cell × Int)) :
    nextRow q j running left ((cell, above) :: rest) =
      landing q cell j (advance running left j) left ::
        nextRow q (j + 1) (advance running left j) (some above) rest := rfl

theorem getElem?_nextRow (q : UInt8) {cells : List Cell} {row : List Int}
    (hlength : row.length = cells.length) (j i : Nat) :
    (nextRow q j (runningAt row (j - 1)) (leftOf row j) ((cells.zip row).drop j))[i]? =
      cells[j + i]?.map fun cell =>
        landing q cell (j + i) (runningAt row (j + i)) (leftOf row (j + i)) := by
  generalize hsuffix : (cells.zip row).drop j = suffix
  induction suffix generalizing j i with
  | nil =>
    have hnone : cells[j + i]? = none := by
      rw [List.drop_eq_nil_iff, List.length_zip] at hsuffix
      rw [List.getElem?_eq_none_iff]
      omega
    rw [hnone]
    rfl
  | cons e suffix ih =>
    obtain ⟨cell, above⟩ := e
    have hhead : (cells.zip row)[j]? = some (cell, above) := by
      rw [← List.head?_drop, hsuffix, List.head?_cons]
    obtain ⟨hcell, habove⟩ := List.getElem?_zip_eq_some.mp hhead
    have htail : (cells.zip row).drop (j + 1) = suffix := by
      rw [← List.tail_drop, hsuffix, List.tail_cons]
    rw [nextRow_cons, advance_leftOf]
    cases i with
    | zero => simp [hcell]
    | succ i =>
      have hrest := ih (j + 1) i htail
      rw [Nat.add_sub_cancel, leftOf, if_neg (Nat.succ_ne_zero j), Nat.add_sub_cancel, habove] at hrest
      rw [List.getElem?_cons_succ, hrest, Nat.add_right_comm, Nat.add_assoc]

theorem length_nextRow (q : UInt8) (j : Nat) (running : Int) (left : Option Int)
    (suffix : List (Cell × Int)) : (nextRow q j running left suffix).length = suffix.length := by
  induction suffix generalizing j running left with
  | nil => rfl
  | cons e suffix ih =>
    obtain ⟨cell, above⟩ := e
    rw [nextRow_cons, List.length_cons, ih, List.length_cons]

theorem le_advance (running : Int) (left : Option Int) (j : Nat) : running ≤ advance running left j := by
  unfold advance
  split
  · split
    · exact Int.le_max_left _ _
    · exact Int.le_refl _
  · exact Int.le_refl _

theorem advance_of_floor_lt {p : Int} (hp : floor < p) (running : Int) (j : Nat) :
    advance running (some p) j = max running (p + j) := if_pos hp

theorem advance_cases (running : Int) (left : Option Int) (j : Nat) :
    advance running left j = running ∨
      ∃ p, left = some p ∧ floor < p ∧ advance running left j = p + j := by
  cases left with
  | none => exact Or.inl rfl
  | some p =>
    by_cases hp : floor < p
    · rw [advance_of_floor_lt hp]
      exact (max_choice running (p + j)).imp_right fun h => ⟨p, rfl, hp, h⟩
    · exact Or.inl (if_neg hp)

theorem le_runningAt {row : List Int} {j k : Nat} (hk : k < j) {p : Int} (hget : row[k]? = some p)
    (hp : floor < p) : p + (k + 1 : Nat) ≤ runningAt row j := by
  induction j with
  | zero => exact absurd hk (Nat.not_lt_zero k)
  | succ j ih =>
    rcases Nat.lt_succ_iff_lt_or_eq.mp hk with hk | rfl
    · exact Int.le_trans (ih hk) (le_advance _ _ _)
    · rw [runningAt, hget, advance_of_floor_lt hp]
      exact Int.le_max_right _ _

theorem runningAt_cases (row : List Int) (j : Nat) :
    runningAt row j = unreachable ∨
      ∃ k < j, ∃ p, row[k]? = some p ∧ floor < p ∧ runningAt row j = p + (k + 1 : Nat) := by
  induction j with
  | zero => exact Or.inl rfl
  | succ j ih =>
    rw [runningAt]
    rcases advance_cases (runningAt row j) row[j]? (j + 1) with hsame | ⟨p, hget, hp, hhere⟩
    · rw [hsame]
      exact ih.imp_right fun ⟨k, hk, hp⟩ => ⟨k, Nat.lt_succ_of_lt hk, hp⟩
    · exact Or.inr ⟨j, Nat.lt_succ_self j, p, hget, hp, hhere⟩

/-- The best score before a place is at least that over any single step. -/
theorem le_before {row : List Int} {j k : Nat} (hk : k < j) {p : Int}
    (hget : row[k]? = some p) (hp : floor < p) :
    p + link k j ≤ before j (runningAt row j) (leftOf row j) := by
  unfold before link
  split
  next hnext =>
    subst hnext
    have hleft : leftOf row (k + 1) = some p := hget
    rw [hleft]
    exact Int.le_max_right _ _
  next hgap =>
    have hrunning := le_runningAt hk hget hp
    refine Int.le_trans ?_ (Int.le_max_left _ _)
    rw [apart, if_pos (by omega)]
    omega

theorem apart_cases (row : List Int) (j : Nat) :
    apart j (runningAt row j) = unreachable ∨
      ∃ k < j, ∃ p, row[k]? = some p ∧ floor < p ∧ apart j (runningAt row j) = p + (k + 1 : Nat) - j := by
  rcases runningAt_cases row j with hnone | ⟨k, hk, p, hget, hp, hrunning⟩
  · left
    rw [hnone]
    exact if_neg (by decide)
  · right
    refine ⟨k, hk, p, hget, hp, ?_⟩
    rw [apart, if_pos (by omega), hrunning]

theorem adjacent_cases (row : List Int) (j : Nat) :
    adjacent (leftOf row j) = unreachable ∨
      ∃ k p, j = k + 1 ∧ row[k]? = some p ∧ adjacent (leftOf row j) = p + 5 := by
  cases j with
  | zero => exact Or.inl rfl
  | succ k =>
    have hleft : leftOf row (k + 1) = row[k]? := rfl
    rw [hleft]
    cases hget : row[k]? with
    | none => exact Or.inl rfl
    | some p => exact Or.inr ⟨k, p, rfl, hget, rfl⟩

/-- The best score before a place is that over some step, if it is a score at all. -/
theorem before_cases {row : List Int} {j : Nat} (hj : j ≤ 16777216)
    (hrow : ∀ (k : Nat) p, row[k]? = some p → p = unreachable ∨ 10 - (k : Int) ≤ p)
    (hreal : floor < before j (runningAt row j) (leftOf row j)) :
    ∃ k < j, ∃ p, row[k]? = some p ∧ floor < p ∧
      before j (runningAt row j) (leftOf row j) = p + link k j := by
  have hbelow : unreachable + 5 ≤ floor := by decide
  rcases max_choice (apart j (runningAt row j)) (adjacent (leftOf row j)) with hmax | hmax
  · have hbefore : before j (runningAt row j) (leftOf row j) = apart j (runningAt row j) := hmax
    rcases apart_cases row j with hnone | ⟨k, hk, p, hget, hp, hapart⟩
    · omega
    · refine ⟨k, hk, p, hget, hp, ?_⟩
      -- over no gap the byte would earn more as a neighbour
      have hstep := le_before hk hget hp
      rw [link] at hstep ⊢
      split at hstep <;> omega
  · have hbefore : before j (runningAt row j) (leftOf row j) = adjacent (leftOf row j) := hmax
    rcases adjacent_cases row j with hnone | ⟨k, p, hnext, hget, hadjacent⟩
    · omega
    · have hp : floor < p := by
        rcases hrow k p hget with hnone | hlow
        · omega
        · unfold floor
          omega
      refine ⟨k, by omega, p, hget, hp, ?_⟩
      rw [hbefore, hadjacent, link, if_pos hnext]

/-- A step of the last byte to place `j` from the best of the places before it. -/
theorem entry_landing {query : List UInt8} (hquery : query ≠ []) {row : List Int}
    (hrow : IsRow query candidate row) (hlength : candidate.length ≤ 16777216) {q : UInt8} {j : Nat}
    {cell : Cell} (hcell : (cells candidate)[j]? = some cell) :
    Entry (query ++ [q]) candidate j (landing q cell j (runningAt row j) (leftOf row j)) := by
  have hj : j < candidate.length := by
    rw [← length_cells]
    exact (List.getElem?_eq_some_iff.mp hcell).1
  have hends (w : Int) := ends_append_iff hquery candidate q j w
  rw [fits_iff hcell] at hends
  unfold landing
  split
  next hfits =>
    rw [gain_eq_gainAt hcell]
    -- a step from a placement of the others is a step from the entry where it ends, or worse
    have hbest (k : Nat) (u : Int) (hk : k < j) (hu : Ends query candidate k u) :
        ∃ p, row[k]? = some p ∧ floor < p ∧ u ≤ p := by
      obtain ⟨p, hget⟩ := hrow.exists_get (Nat.lt_trans hk hj)
      have hp := (hrow.floor_lt_iff hlength hget).mpr ⟨u, hu⟩
      exact ⟨p, hget, hp, ((hrow.entry k p hget).of_floor_lt hp).2 hu⟩
    have hupper (w : Int) (hw : Ends (query ++ [q]) candidate j w) :
        floor < before j (runningAt row j) (leftOf row j) ∧
          w ≤ before j (runningAt row j) (leftOf row j) + gainAt candidate q j := by
      obtain ⟨-, k, u, hk, hu, rfl⟩ := (hends w).mp hw
      obtain ⟨p, hget, hp, hle⟩ := hbest k u hk hu
      have hstep := le_before hk hget hp
      have hlink := link_bounds hk
      have hpos := (Ends.bounds ((hrow.entry k p hget).of_floor_lt hp).1).1
      refine ⟨?_, by omega⟩
      unfold floor
      omega
    split
    next hnone => exact Or.inl ⟨rfl, fun w hw => absurd (hupper w hw).1 (Int.not_lt.mpr hnone)⟩
    next hsome =>
      obtain ⟨k, hk, p, hget, hp, hstep⟩ := before_cases (by omega) hrow.low (Int.not_le.mp hsome)
      have hu := ((hrow.entry k p hget).of_floor_lt hp).1
      exact Or.inr ⟨(hends _).mpr ⟨hfits, k, p, hk, hu, by rw [hstep]⟩, fun w hw => (hupper w hw).2⟩
  next hfits => exact Or.inl ⟨rfl, fun w hw => hfits ((hends w).mp hw).1⟩

theorem lastRow_append (cells : List Cell) (q b : UInt8) (rest : List UInt8) :
    lastRow cells q (rest ++ [b]) =
      nextRow b 0 unreachable none (cells.zip (lastRow cells q rest)) := by
  simp only [lastRow, List.foldl_append, List.foldl_cons, List.foldl_nil]

theorem IsRow.next {query : List UInt8} (hquery : query ≠ []) {row : List Int}
    (hrow : IsRow query candidate row) (hlength : candidate.length ≤ 16777216) (q : UInt8) :
    IsRow (query ++ [q]) candidate (nextRow q 0 unreachable none ((cells candidate).zip row)) where
  length_eq := by
    rw [length_nextRow, List.length_zip, length_cells, hrow.length_eq, Nat.min_self]
  entry j v hv := by
    have hget := getElem?_nextRow q (hrow.length_eq.trans (length_cells candidate).symm) 0 j
    rw [Nat.zero_add] at hget
    obtain ⟨cell, hcell, rfl⟩ := Option.map_eq_some_iff.mp (hget.symm.trans hv)
    exact entry_landing hquery hrow hlength hcell

theorem isRow_lastRow (hlength : candidate.length ≤ 16777216) (q : UInt8) (rest : List UInt8) :
    IsRow (q :: rest) candidate (lastRow (cells candidate) q rest) := by
  induction rest using List.reverseRecOn with
  | nil => exact isRow_firstRow q candidate
  | append_singleton rest b ih =>
    rw [lastRow_append, ← List.cons_append]
    exact ih.next (List.cons_ne_nil q rest) hlength b

end Rows

/-! ## The best score -/

def Scores (query candidate : List UInt8) : Set Int :=
  {s | ∃ places, Placed query candidate places ∧ placedScore query candidate places = s}

section Best

variable {query candidate : List UInt8}

theorem mem_scores_iff (hquery : query ≠ []) (s : Int) :
    s ∈ Scores query candidate ↔
      ∃ j v, Ends query candidate j v ∧ s = v - ((candidate.length : Int) - 1 - j) := by
  constructor
  · rintro ⟨places, hplaced, rfl⟩
    cases places using List.reverseRecOn with
    | nil => exact absurd (List.eq_nil_of_length_eq_zero hplaced.length_eq) hquery
    | append_singleton places j =>
      exact ⟨j, _, ⟨places, hplaced, rfl⟩, by simp [placedScore]⟩
  · rintro ⟨j, v, ⟨places, hplaced, rfl⟩, rfl⟩
    exact ⟨_, hplaced, by simp [placedScore]⟩

theorem Ends.lt_length {j : Nat} {v : Int} (h : Ends query candidate j v) (hquery : query ≠ []) :
    j < candidate.length := by
  obtain ⟨places, hplaced, -⟩ := h
  cases query using List.reverseRecOn with
  | nil => exact absurd rfl hquery
  | append_singleton query q =>
    exact ((placed_append_iff query candidate q places j).mp hplaced).2.2.lt_length

theorem mem_ends_iff (row : List Int) (s : Int) :
    s ∈ (row.zipIdx.filter fun e => e.1 > floor).map
        (fun e => e.1 - Int.ofNat (row.length - 1 - e.2)) ↔
      ∃ (j : Nat) (v : Int), row[j]? = some v ∧ floor < v ∧ s = v - ((row.length : Int) - 1 - j) := by
  have hcharge {j : Nat} {v : Int} (hget : row[j]? = some v) :
      Int.ofNat (row.length - 1 - j) = (row.length : Int) - 1 - j := by
    have hj := (List.getElem?_eq_some_iff.mp hget).1
    simp only [Int.ofNat_eq_natCast]
    omega
  constructor
  · intro hs
    obtain ⟨⟨v, j⟩, he, rfl⟩ := List.mem_map.mp hs
    obtain ⟨he, hv⟩ := List.mem_filter.mp he
    have hget : row[j]? = some v := List.mem_zipIdx_iff_getElem?.mp he
    exact ⟨j, v, hget, of_decide_eq_true hv, by rw [hcharge hget]⟩
  · rintro ⟨j, v, hget, hv, rfl⟩
    refine List.mem_map.mpr ⟨(v, j), List.mem_filter.mpr ⟨?_, decide_eq_true hv⟩, by rw [hcharge hget]⟩
    exact List.mem_zipIdx_iff_getElem?.mpr hget

theorem bestOfRow_spec (hquery : query ≠ []) {row : List Int} (hrow : IsRow query candidate row)
    (hlength : candidate.length ≤ 16777216) :
    (bestOfRow row = none ↔ Scores query candidate = ∅) ∧
      ∀ s, bestOfRow row = some s → IsGreatest (Scores query candidate) s := by
  rw [bestOfRow]
  generalize hends : (row.zipIdx.filter fun e => e.1 > floor).map
    (fun e => e.1 - Int.ofNat (row.length - 1 - e.2)) = ends
  have hmem (s : Int) := hends ▸ mem_ends_iff row s
  have hscore (s : Int) (hs : s ∈ ends) : s ∈ Scores query candidate := by
    obtain ⟨j, v, hget, hv, rfl⟩ := (hmem s).mp hs
    rw [hrow.length_eq]
    exact (mem_scores_iff hquery _).mpr ⟨j, v, ((hrow.entry j v hget).of_floor_lt hv).1, rfl⟩
  have habove (s : Int) (hs : s ∈ Scores query candidate) : ∃ t ∈ ends, s ≤ t := by
    obtain ⟨j, v, hv, rfl⟩ := (mem_scores_iff hquery s).mp hs
    obtain ⟨p, hget⟩ := hrow.exists_get (hv.lt_length hquery)
    have hp := (hrow.floor_lt_iff hlength hget).mpr ⟨v, hv⟩
    refine ⟨_, (hmem _).mpr ⟨j, p, hget, hp, rfl⟩, ?_⟩
    have hle : v ≤ p := ((hrow.entry j p hget).of_floor_lt hp).2 hv
    rw [hrow.length_eq]
    omega
  constructor
  · rw [List.max?_eq_none_iff, Set.eq_empty_iff_forall_notMem]
    constructor
    · intro hnil s hs
      obtain ⟨t, ht, -⟩ := habove s hs
      simp [hnil] at ht
    · intro hnone
      exact List.eq_nil_iff_forall_not_mem.mpr fun s hs => hnone s (hscore s hs)
  · intro s hs
    obtain ⟨hin, hmax⟩ := List.max?_eq_some_iff.mp hs
    refine ⟨hscore s hin, fun t ht => ?_⟩
    obtain ⟨t', ht', hle⟩ := habove t ht
    exact Int.le_trans hle (hmax t' ht')

theorem exists_placed_iff :
    (∃ places, Placed query candidate places) ↔
      (query.map fold).Sublist (candidate.map fold) := by
  constructor
  · rintro ⟨places, hincreasing, hagrees⟩
    have hlt : ∀ i ∈ places, i < (candidate.map fold).length := by
      intro i hi
      have hsome : candidate[i]?.map fold ∈ query.map fun b => some (fold b) :=
        hagrees ▸ List.mem_map_of_mem hi
      obtain ⟨b, -, hb⟩ := List.mem_map.mp hsome
      rw [List.length_map]
      exact Fits.lt_length hb.symm
    have hpair : (places.pmap Fin.mk hlt).Pairwise (· < ·) := by
      rw [List.pairwise_pmap]
      exact hincreasing.imp fun h _ _ => h
    have heq : (places.pmap Fin.mk hlt).map (fun i => (candidate.map fold)[i]) = query.map fold := by
      apply List.map_injective_iff.mpr (Option.some_injective UInt8)
      rw [List.map_pmap, List.map_pmap, List.map_map]
      refine Eq.trans ?_ hagrees
      refine Eq.trans (List.pmap_congr_left places fun i _ hi _ => ?_) (List.pmap_eq_map hlt)
      rw [← List.getElem?_map]
      exact (List.getElem?_eq_getElem hi).symm
    exact heq ▸ List.map_getElem_sublist hpair
  · intro hsub
    obtain ⟨places, heq, hincreasing⟩ := List.sublist_eq_map_getElem hsub
    refine ⟨places.map (·.val), List.pairwise_map.mpr hincreasing, ?_⟩
    have hsome : query.map (fun b => some (fold b)) = (query.map fold).map some := by
      rw [List.map_map]
      rfl
    rw [hsome, heq, List.map_map, List.map_map]
    refine List.map_congr_left fun i _ => ?_
    simp only [Function.comp_apply]
    rw [← List.getElem?_map]
    exact List.getElem?_eq_getElem i.isLt

end Best

/-! ## What a match says -/

theorem foldedPrefix_iff (query candidate : List UInt8) :
    foldedPrefix query candidate = true ↔ query.map fold <+: candidate.map fold :=
  List.isPrefixOf_iff_prefix

theorem foldedInfix_iff (query candidate : List UInt8) :
    foldedInfix query candidate = true ↔ query.map fold <:+: candidate.map fold := by
  induction candidate with
  | nil => simp [foldedInfix]
  | cons c candidate ih =>
    rw [foldedInfix, Bool.or_eq_true, foldedPrefix_iff, ih, List.map_cons, List.infix_cons_iff]

/-- What the match of a query that is not empty has to say. -/
structure Tells (query candidate : List UInt8) (result : Option MatchScore) : Prop where
  none_iff : result = none ↔ ¬ (query.map fold).Sublist (candidate.map fold)
  exact_iff : ∀ m ∈ result, m.kind = .exact ↔ query.map fold = candidate.map fold
  leading_iff : ∀ m ∈ result, m.kind = .leading ↔
    query.map fold <+: candidate.map fold ∧ query.map fold ≠ candidate.map fold
  substring_iff : ∀ m ∈ result, m.kind = .substring ↔
    query.map fold <:+: candidate.map fold ∧ ¬ query.map fold <+: candidate.map fold
  scattered_iff : ∀ m ∈ result, m.kind = .scattered ↔ ¬ query.map fold <:+: candidate.map fold
  greatest : ∀ m ∈ result, m.kind = .substring ∨ m.kind = .scattered →
    IsGreatest (Scores query candidate) m.score

theorem placementScore_spec {query candidate : List UInt8} (hquery : query ≠ [])
    (hlength : candidate.length ≤ 16777216) :
    (placementScore query candidate = none ↔ ¬ (query.map fold).Sublist (candidate.map fold)) ∧
      ∀ s, placementScore query candidate = some s → IsGreatest (Scores query candidate) s := by
  obtain ⟨q, rest, rfl⟩ := List.exists_cons_of_ne_nil hquery
  rw [placementScore]
  split
  next hlong =>
    refine ⟨iff_of_true rfl fun hsub => ?_, fun s hs => by simp at hs⟩
    have hle := hsub.length_le
    rw [List.length_map, List.length_map] at hle
    omega
  next =>
    obtain ⟨hnone, hsome⟩ := bestOfRow_spec hquery (isRow_lastRow hlength q rest) hlength
    refine ⟨hnone.trans ?_, hsome⟩
    rw [← exists_placed_iff, Set.eq_empty_iff_forall_notMem]
    constructor
    · rintro hempty ⟨places, hplaced⟩
      exact hempty _ ⟨places, hplaced, rfl⟩
    · rintro hfree s ⟨places, hplaced, -⟩
      exact hfree ⟨places, hplaced⟩

theorem tells_scoreBytes {query candidate : List UInt8} (hquery : query ≠ [])
    (hlength : candidate.length ≤ 16777216) : Tells query candidate (scoreBytes query candidate) := by
  obtain ⟨hnone, hsome⟩ := placementScore_spec hquery hlength
  rw [scoreBytes, if_neg (by rwa [List.isEmpty_iff])]
  split
  next hstarts =>
    rw [foldedPrefix_iff] at hstarts
    have hexact : query.map fold = candidate.map fold ↔ candidate.length = query.length := by
      refine ⟨fun heq => by simpa using (congrArg List.length heq).symm, fun heq => ?_⟩
      exact hstarts.eq_of_length (by simp [heq])
    constructor
    · exact iff_of_false (by simp) fun h => h hstarts.sublist
    all_goals
      rintro m ⟨⟩
      by_cases heq : candidate.length = query.length <;>
        simp [heq, hexact, hstarts, hstarts.isInfix]
  next hstarts =>
    rw [foldedPrefix_iff] at hstarts
    have hne : query.map fold ≠ candidate.map fold := fun heq => hstarts (heq ▸ List.prefix_refl _)
    have hkind : (if foldedInfix query candidate then
          (placementScore query candidate).map (MatchScore.mk .substring)
        else (placementScore query candidate).map (MatchScore.mk .scattered)) =
        (placementScore query candidate).map
          (MatchScore.mk (if foldedInfix query candidate then .substring else .scattered)) := by
      split <;> rfl
    rw [hkind]
    constructor
    case none_iff =>
      rw [Option.map_eq_none_iff]
      exact hnone
    case greatest =>
      intro m hm _
      obtain ⟨s, hs, rfl⟩ := Option.map_eq_some_iff.mp hm
      exact hsome s hs
    all_goals
      intro m hm
      obtain ⟨s, -, rfl⟩ := Option.map_eq_some_iff.mp hm
      by_cases hinside : query.map fold <:+: candidate.map fold <;>
        simp [foldedInfix_iff, hne, hstarts, hinside]

end JavaAtlas.Fuzzy
