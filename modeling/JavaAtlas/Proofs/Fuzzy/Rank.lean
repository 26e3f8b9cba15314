import JavaAtlas.Fuzzy.Rank
import JavaAtlas.Proofs.Fuzzy.Matcher
import JavaAtlas.Proofs.Text.ByteOrder
import JavaAtlas.Proofs.Data.SortedMap
import Mathlib

/-!
# The ranking of names

The score of a name depends on the query and the name alone, although one matcher scores them all.
Names that tie in value, length and bytes are therefore the same entry, so the sorted list leaves no
choice: it depends on the candidates as a multiset. In names of moderate length no score fills the
room that a kind has, so a stronger kind always comes first.
-/

namespace JavaAtlas.Fuzzy

set_option autoImplicit false

open Std (TransCmp OrientedCmp)

/-! ## The range of scores -/

def MatchScore.InWord (m : MatchScore) : Prop := -2147483648 ≤ m.score ∧ m.score ≤ 2147483647

instance (m : MatchScore) : Decidable m.InWord :=
  inferInstanceAs (Decidable (-2147483648 ≤ m.score ∧ m.score ≤ 2147483647))

section Bounds

variable {query candidate : List UInt8}

theorem bounds_of_mem_scores (hquery : query ≠ []) {s : Int} (hs : s ∈ Scores query candidate) :
    -(candidate.length : Int) ≤ s ∧ s ≤ 32 * query.length := by
  obtain ⟨j, v, hends, rfl⟩ := (mem_scores_iff hquery s).mp hs
  have hbounds := hends.bounds
  have hplace := hends.lt_length hquery
  omega

theorem prefixScore_bounds (query candidate : List UInt8) :
    -(candidate.length : Int) ≤ prefixScore query candidate ∧
      prefixScore query candidate ≤ 2 * candidate.length := by
  have hsame := same_le_length query candidate
  unfold prefixScore
  simp only [Int.ofNat_eq_natCast]
  omega

theorem inWord_of_scoreBytes (hlength : candidate.length ≤ 16777216) {m : MatchScore}
    (h : scoreBytes query candidate = some m) : m.InWord := by
  unfold MatchScore.InWord
  cases query with
  | nil =>
    obtain rfl : (⟨.leading, 0⟩ : MatchScore) = m := Option.some.inj h
    decide
  | cons q rest =>
    have htells := tells_scoreBytes (List.cons_ne_nil q rest) hlength
    by_cases hstarts : foldedPrefix (q :: rest) candidate = true
    · rw [scoreBytes_of_foldedPrefix (List.cons_ne_nil q rest) hstarts] at h
      have hscore : prefixScore (q :: rest) candidate = m.score :=
        congrArg MatchScore.score (Option.some.inj h)
      have hbounds := prefixScore_bounds (q :: rest) candidate
      omega
    · have hweak := weak_of_not_foldedPrefix h hstarts
      have hbounds := bounds_of_mem_scores (List.cons_ne_nil q rest) (htells.greatest m h hweak).1
      -- a query that can be placed is no longer than the candidate
      have hfits : (q :: rest).length ≤ candidate.length := by
        by_contra hlong
        have hnone := htells.none_iff.mpr fun hsub => hlong (by simpa using hsub.length_le)
        rw [hnone] at h
        cases h
      omega

end Bounds

/-- One number orders matches as kind and score do. -/
theorem MatchScore.value_lt_iff {m n : MatchScore} (hm : m.InWord) (hn : n.InWord) :
    m.value < n.value ↔ m.compare n = .lt := by
  unfold InWord at hm hn
  rw [MatchScore.compare, Ordering.then_eq_lt, Std.compare_eq_lt, Std.compare_eq_lt,
    Nat.compare_eq_eq]
  unfold value
  omega

theorem MatchScore.rank_le_of_value_le {m n : MatchScore} (hm : m.InWord) (hn : n.InWord)
    (h : m.value ≤ n.value) : m.kind.rank ≤ n.kind.rank := by
  unfold InWord at hm hn
  unfold value at h
  omega

/-! ## One matcher for all candidates -/

namespace Matcher

/-- The score that a matcher gives if it scored nothing before. -/
def freshScore? (query candidate : List UInt8) : Option (Option MatchScore) :=
  (score? { query } candidate).map Prod.snd

theorem query_of_fillRows {candidate done : List UInt8} {m m' : Matcher}
    (h : fillRows candidate done m = some m') : m'.query = m.query := by
  induction done generalizing m with
  | nil =>
    cases h
    rfl
  | cons q rest ih =>
    obtain ⟨row, -, hrest⟩ := Option.bind_eq_some_iff.mp h
    have hsame := ih hrest
    exact hsame

theorem query_of_rows? {candidate done : List UInt8} {q : UInt8} {m m' : Matcher}
    (h : m.rows? candidate q done = some m') : m'.query = m.query := by
  obtain ⟨row, -, hrest⟩ := Option.bind_eq_some_iff.mp h
  have hsame := query_of_fillRows hrest
  exact hsame

theorem query_of_placementScore? {candidate : List UInt8} {m m' : Matcher} {score : Option Int}
    (h : m.placementScore? candidate = some (m', score)) : m'.query = m.query := by
  unfold placementScore? at h
  split at h
  · cases h
    rfl
  · split at h
    · cases h
      rfl
    · obtain ⟨last, hlast, hrest⟩ := Option.bind_eq_some_iff.mp h
      obtain ⟨best, -, hbest⟩ := Option.bind_eq_some_iff.mp hrest
      cases hbest
      exact query_of_rows? hlast

theorem query_of_score? {candidate : List UInt8} {m m' : Matcher} {score : Option MatchScore}
    (h : m.score? candidate = some (m', score)) : m'.query = m.query := by
  unfold score? at h
  split at h
  · cases h
    rfl
  · split at h
    · obtain ⟨best, -, hbest⟩ := Option.bind_eq_some_iff.mp h
      cases hbest
      rfl
    · obtain ⟨⟨last, best⟩, hlast, hrest⟩ := Option.bind_eq_some_iff.mp h
      cases hrest
      exact query_of_placementScore? hlast

theorem placementScore?_snd (m : Matcher) (candidate : List UInt8) :
    (m.placementScore? candidate).map Prod.snd =
      (placementScore? { query := m.query } candidate).map Prod.snd := by
  unfold placementScore?
  cases hquery : m.query with
  | nil => rfl
  | cons q rest =>
    have hrows : m.rows? candidate q rest = rows? { query := q :: rest } candidate q rest := by
      unfold rows? reset
      rw [hquery]
    dsimp only
    rw [hrows]
    split <;> rfl

/-- What a matcher scored before is of no account. -/
theorem score?_snd (m : Matcher) (candidate : List UInt8) :
    (m.score? candidate).map Prod.snd = freshScore? m.query candidate := by
  have hplaced := placementScore?_snd m candidate
  unfold freshScore? score?
  dsimp only
  split
  · rfl
  · split
    · cases prefixScore? m.query candidate <;> rfl
    · revert hplaced
      cases m.placementScore? candidate <;>
        cases placementScore? { query := m.query } candidate <;> simp +contextual

/-- Either every text has a score, or there is no list. -/
theorem collect?_snd {α β : Type} (text : α → String) (f : α → MatchScore → β) (as : List α)
    (m : Matcher) :
    (m.collect? text f as).map Prod.snd =
      if ∀ a ∈ as, (freshScore? m.query (Text.encode (text a))).isSome = true then
        some (as.filterMap fun a => (freshScore? m.query (Text.encode (text a))).join.map (f a))
      else none := by
  induction as generalizing m with
  | nil => rfl
  | cons a rest ih =>
    have hfresh := score?_snd m (Text.encode (text a))
    rw [collect?]
    cases hscore : m.score? (Text.encode (text a)) with
    | none =>
      rw [hscore, Option.map_none] at hfresh
      rw [if_neg]
      · rfl
      · intro hall
        have hsome := hall a List.mem_cons_self
        rw [← hfresh] at hsome
        cases hsome
    | some next =>
      obtain ⟨next, score⟩ := next
      rw [hscore, Option.map_some] at hfresh
      have hrest := ih next
      rw [query_of_score? hscore] at hrest
      simp only [List.forall_mem_cons, ← hfresh, Option.isSome_some, true_and,
        List.filterMap_cons, Option.join_some]
      rw [Option.bind_eq_bind, Option.bind_some]
      by_cases hall : ∀ b ∈ rest, (freshScore? m.query (Text.encode (text b))).isSome = true
      · rw [if_pos hall] at hrest ⊢
        obtain ⟨⟨last, found⟩, hfound, rfl⟩ := Option.map_eq_some_iff.mp hrest
        rw [hfound]
        cases score <;> rfl
      · rw [if_neg hall] at hrest ⊢
        rw [Option.map_eq_none_iff.mp hrest]
        rfl

theorem freshScore?_eq {query name : String} (hshort : name.utf8ByteSize ≤ 16777216) :
    freshScore? (Text.encode query) (Text.encode name) = some (score query name) := by
  rw [← Text.length_encode] at hshort
  obtain ⟨m', hm', -⟩ := score?_eq hshort { query := Text.encode query }
  rw [freshScore?, hm']
  rfl

theorem collect?_eq {α β : Type} {text : α → String} (f : α → MatchScore → β) {as : List α}
    (hshort : ∀ a ∈ as, (text a).utf8ByteSize ≤ 16777216) {query : String} {m : Matcher}
    (hm : m.query = Text.encode query) :
    (m.collect? text f as).map Prod.snd =
      some (as.filterMap fun a => (score query (text a)).map (f a)) := by
  have hfresh : ∀ a ∈ as, freshScore? m.query (Text.encode (text a)) = some (score query (text a)) := by
    intro a ha
    rw [hm]
    exact freshScore?_eq (hshort a ha)
  rw [collect?_snd, if_pos fun a ha => by rw [hfresh a ha]; rfl]
  apply congrArg some
  apply List.filterMap_congr
  intro a ha
  rw [hfresh a ha, Option.join_some]

end Matcher

/-! ## The order of a ranking -/

instance : TransCmp Ranked.compare :=
  have : TransCmp fun a b : Ranked => compareOn Ranked.value b a := TransCmp.opposite
  inferInstanceAs (TransCmp (compareLex (fun a b => compareOn Ranked.value b a)
    (compareLex (compareOn fun r => r.name.utf8ByteSize) (compareOn Ranked.name))))

/-- The higher value comes first, then fewer bytes, then smaller bytes. -/
def Ranked.Precedes (a b : Ranked) : Prop :=
  b.value < a.value ∨ b.value = a.value ∧
    (a.name.utf8ByteSize < b.name.utf8ByteSize ∨ a.name.utf8ByteSize = b.name.utf8ByteSize ∧
      Text.encode a.name ≤ Text.encode b.name)

theorem Ranked.precedes_iff {a b : Ranked} : a.Precedes b ↔ (a.compare b).isLE = true := by
  unfold Precedes compare
  rw [Text.encode_le_iff, Ordering.isLE_then_iff_or, Ordering.isLE_then_iff_or, Std.compare_eq_lt,
    Nat.compare_eq_lt, Nat.compare_eq_eq, Std.compare_eq_iff_eq]

/-- The query can be read off the name in order, ASCII case aside. -/
def ScatteredOver (query name : String) : Prop :=
  ((Text.encode query).map fold).Sublist ((Text.encode name).map fold)

instance (query name : String) : Decidable (ScatteredOver query name) :=
  inferInstanceAs (Decidable (List.Sublist _ _))

theorem isSome_score_iff {query name : String} (hshort : name.utf8ByteSize ≤ 16777216) :
    (score query name).isSome = true ↔ ScatteredOver query name := by
  rw [← Text.length_encode] at hshort
  unfold score ScatteredOver
  by_cases hquery : Text.encode query = []
  · rw [hquery]
    exact iff_of_true rfl (List.nil_sublist _)
  · rw [Option.isSome_iff_ne_none, Ne, (tells_scoreBytes hquery hshort).none_iff, not_not]

def rankedOf? (query name : String) : Option Ranked :=
  (score query name).map fun m => ⟨name, m.kind, m.value⟩

theorem rankedOf?_eq_some_iff {query name : String} {r : Ranked} :
    rankedOf? query name = some r ↔
      r.name = name ∧ ∃ m, score query name = some m ∧ r.kind = m.kind ∧ r.value = m.value := by
  rw [rankedOf?, Option.map_eq_some_iff]
  constructor
  · rintro ⟨m, hm, rfl⟩
    exact ⟨rfl, m, hm, rfl, rfl⟩
  · rintro ⟨rfl, m, hm, hkind, hvalue⟩
    exact ⟨m, hm, by rw [← hkind, ← hvalue]⟩

theorem rank_eq (query : String) (candidates : List String) :
    rank query candidates =
      (candidates.filterMap (rankedOf? query)).mergeSort fun a b => (a.compare b).isLE := rfl

theorem map_name_filterMap_rankedOf? (query : String) (candidates : List String) :
    (candidates.filterMap (rankedOf? query)).map Ranked.name =
      candidates.filter fun name => (score query name).isSome := by
  induction candidates with
  | nil => rfl
  | cons name rest ih =>
    rw [List.filterMap_cons, List.filter_cons, rankedOf?]
    cases score query name with
    | none => exact ih
    | some m => exact congrArg (name :: ·) ih

/-- Each candidate that matches is listed as often as it is given, with its own score, in order. -/
structure IsRanking (query : String) (candidates : List String) (ranked : List Ranked) : Prop where
  names : (ranked.map Ranked.name).Perm
    (candidates.filter fun name => decide (ScatteredOver query name))
  scored : ∀ r ∈ ranked, ∃ m, score query r.name = some m ∧ r.kind = m.kind ∧ r.value = m.value
  sorted : ranked.Pairwise Ranked.Precedes

section Ranking

variable {query : String} {candidates : List String}

theorem isRanking_rank (hshort : ∀ name ∈ candidates, name.utf8ByteSize ≤ 16777216) :
    IsRanking query candidates (rank query candidates) where
  names := by
    have hkeep : (candidates.filter fun name => decide (ScatteredOver query name)) =
        candidates.filter fun name => (score query name).isSome := by
      apply List.filter_congr
      intro name hname
      rw [Bool.eq_iff_iff, decide_eq_true_iff, isSome_score_iff (hshort name hname)]
    rw [hkeep, ← map_name_filterMap_rankedOf?]
    exact (List.mergeSort_perm _ _).map Ranked.name
  scored r hr := by
    rw [rank_eq, List.mem_mergeSort, List.mem_filterMap] at hr
    obtain ⟨name, -, hentry⟩ := hr
    obtain ⟨rfl, hscore⟩ := rankedOf?_eq_some_iff.mp hentry
    exact hscore
  sorted := (pairwise_mergeSort_isLE Ranked.compare _).imp Ranked.precedes_iff.mpr

namespace IsRanking

variable {ranked : List Ranked}

theorem rankedOf?_eq (h : IsRanking query candidates ranked) {r : Ranked} (hr : r ∈ ranked) :
    rankedOf? query r.name = some r := rankedOf?_eq_some_iff.mpr ⟨rfl, h.scored r hr⟩

theorem filterMap_names (h : IsRanking query candidates ranked) :
    (ranked.map Ranked.name).filterMap (rankedOf? query) = ranked := by
  rw [List.filterMap_map]
  exact (List.filterMap_congr fun r hr => h.rankedOf?_eq hr).trans List.filterMap_some

theorem eq_of_compare (h : IsRanking query candidates ranked) {a b : Ranked} (ha : a ∈ ranked)
    (hb : b ∈ ranked) (heq : a.compare b = .eq) : a = b := by
  rw [Ranked.compare, Ordering.then_eq_eq, Ordering.then_eq_eq] at heq
  have hname : a.name = b.name := Std.LawfulEqOrd.eq_of_compare heq.2.2
  have hentry := h.rankedOf?_eq ha
  rw [hname, h.rankedOf?_eq hb] at hentry
  exact (Option.some.inj hentry).symm

/-- The candidates leave no choice, in whatever order they are given. -/
theorem eq_of_perm (h : IsRanking query candidates ranked) {names : List String}
    {other : List Ranked} (h' : IsRanking query names other) (hperm : names.Perm candidates) :
    ranked = other := by
  have hnames : (ranked.map Ranked.name).Perm (other.map Ranked.name) :=
    h.names.trans ((hperm.symm.filter _).trans h'.names.symm)
  have hentries : ranked.Perm other := by
    rw [← h.filterMap_names, ← h'.filterMap_names]
    exact hnames.filterMap _
  refine hentries.eq_of_pairwise (fun a b ha hb hab hba => ?_) h.sorted h'.sorted
  rw [Ranked.precedes_iff] at hab hba
  exact h.eq_of_compare ha (hentries.mem_iff.mpr hb) (OrientedCmp.isLE_antisymm hab hba)

/-- Stronger kinds come first, whatever the scores within them. -/
theorem kinds (h : IsRanking query candidates ranked)
    (hshort : ∀ name ∈ candidates, name.utf8ByteSize ≤ 16777216) :
    ranked.Pairwise fun a b => b.kind.rank ≤ a.kind.rank := by
  have hinWord : ∀ r ∈ ranked, ∃ m : MatchScore, m.InWord ∧ r.kind = m.kind ∧ r.value = m.value := by
    intro r hr
    obtain ⟨m, hm, hkind, hvalue⟩ := h.scored r hr
    have hname : r.name ∈ candidates :=
      List.mem_of_mem_filter (h.names.mem_iff.mp (List.mem_map_of_mem hr))
    have hlength := hshort r.name hname
    rw [← Text.length_encode] at hlength
    exact ⟨m, inWord_of_scoreBytes hlength hm, hkind, hvalue⟩
  refine h.sorted.imp_of_mem fun {a b} ha hb hab => ?_
  obtain ⟨m, hm, hkind, hvalue⟩ := hinWord a ha
  obtain ⟨n, hn, hkind', hvalue'⟩ := hinWord b hb
  have hle : b.value ≤ a.value := by
    cases hab with
    | inl hlt => exact Int.le_of_lt hlt
    | inr heq => exact Int.le_of_eq heq.1
  rw [hvalue, hvalue'] at hle
  rw [hkind, hkind']
  exact MatchScore.rank_le_of_value_le hn hm hle

end IsRanking

/-- A matcher for the query, whatever it scored before, ranks as fresh ones do. -/
theorem Matcher.rank?_eq (hshort : ∀ name ∈ candidates, name.utf8ByteSize ≤ 16777216) {m : Matcher}
    (hm : m.query = Text.encode query) : m.rank? candidates = some (rank query candidates) := by
  let item (name : String) (score : MatchScore) : Ranked := ⟨name, score.kind, score.value⟩
  have hcollect : (m.collect? id item candidates).map Prod.snd =
      some (candidates.filterMap (rankedOf? query)) := collect?_eq item hshort hm
  obtain ⟨⟨last, found⟩, hfound, rfl⟩ := Option.map_eq_some_iff.mp hcollect
  rw [rank?, hfound]
  rfl

/-- The ranking lists the candidates that match, each as often as it is given, by value, length and
bytes, with the stronger kinds in front. Neither the order of the candidates nor what the matcher has
scored before is of any account. Every score is a word, and of such scores one number tells the order
by kind and score. -/
theorem rank_of_multiset (hshort : ∀ name ∈ candidates, name.utf8ByteSize ≤ 16777216) :
    let ranked := rank query candidates
    IsRanking query candidates ranked ∧
      ranked.Pairwise (fun a b => b.kind.rank ≤ a.kind.rank) ∧
      (∀ names : List String, names.Perm candidates →
        rank query names = ranked ∧ ∀ other, IsRanking query names other → other = ranked) ∧
      (∀ m : Matcher, m.query = Text.encode query → m.rank? candidates = some ranked) ∧
      (∀ name ∈ candidates, ∀ m ∈ score query name, m.InWord) ∧
      ∀ m n : MatchScore, m.InWord → n.InWord → (m.value < n.value ↔ m.compare n = .lt) := by
  intro ranked
  have hranking : IsRanking query candidates ranked := isRanking_rank hshort
  refine ⟨hranking, hranking.kinds hshort, ?_, fun m hm => m.rank?_eq hshort hm, ?_,
    fun m n hm hn => MatchScore.value_lt_iff hm hn⟩
  · intro names hperm
    have hrank : IsRanking query names (rank query names) :=
      isRanking_rank fun name hname => hshort name (hperm.mem_iff.mp hname)
    exact ⟨(hranking.eq_of_perm hrank hperm).symm,
      fun other hother => (hranking.eq_of_perm hother hperm).symm⟩
  · intro name hname m hm
    refine inWord_of_scoreBytes ?_ hm
    rw [Text.length_encode]
    exact hshort name hname

/-- One name is given twice, and three kinds of match are among the others. -/
theorem rank_of_multiset_lists :
    let candidates := ["LinkedList", "List", "LinkedIntSet", "ArrayList", "List", "Map"]
    (∀ name ∈ candidates, name.utf8ByteSize ≤ 16777216) ∧
      IsRanking "list" candidates (rank "list" candidates) ∧
      (rank "list" candidates).map Ranked.name =
        ["List", "List", "ArrayList", "LinkedList", "LinkedIntSet"] ∧
      rank "list" candidates.reverse = rank "list" candidates := by
  intro candidates
  have hshort : ∀ name ∈ candidates, name.utf8ByteSize ≤ 16777216 := by decide
  have h := @rank_of_multiset "list" candidates hshort
  exact ⟨hshort, h.1, by cbv, (h.2.2.1 _ candidates.reverse_perm).1⟩

end Ranking

end JavaAtlas.Fuzzy
