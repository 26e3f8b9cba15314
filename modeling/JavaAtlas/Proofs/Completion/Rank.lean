import JavaAtlas.Completion.Rank
import JavaAtlas.Proofs.Fuzzy.Rank
import Mathlib

/-!
# The ranking of completions

Weight and score belong to the label, so the order tells any two items apart: items that tie are the
same. Distinct candidates therefore stand in strict order, and such a list is determined by its
members. How the candidates were gathered, and how often each was found, is lost.
-/

namespace JavaAtlas

set_option autoImplicit false

open Std (TransCmp OrientedCmp)
open Fuzzy (Matcher prefixWeight)

/-! ## The order of items -/

theorem CompletionKind.rank_inj {a b : CompletionKind} : a.rank = b.rank ↔ a = b := by
  constructor
  · intro h
    cases a <;> cases b <;> first | rfl | cases h
  · rintro rfl
    rfl

/-- The shorter label comes first, then labels, kinds and details in order. A candidate without a
detail comes before those that have one. -/
def Candidate.Precedes (a b : Candidate) : Prop :=
  a.label.utf8ByteSize < b.label.utf8ByteSize ∨ a.label.utf8ByteSize = b.label.utf8ByteSize ∧
    (Text.encode a.label < Text.encode b.label ∨ a.label = b.label ∧
      (a.kind.rank < b.kind.rank ∨ a.kind = b.kind ∧
        a.detail.map Text.encode < b.detail.map Text.encode))

namespace CompletionItem

/-- The greater weight comes first, then the higher score. -/
def Precedes (a b : CompletionItem) : Prop :=
  b.weight < a.weight ∨ b.weight = a.weight ∧
    (b.score < a.score ∨ b.score = a.score ∧ a.candidate.Precedes b.candidate)

def order : CompletionItem → CompletionItem → Ordering :=
  compareLex (fun a b => compareOn weight b a) <|
    compareLex (fun a b => compareOn CompletionItem.score b a) <|
      compareLex (compareOn fun i => i.candidate.label.utf8ByteSize) <|
        compareLex (compareOn fun i => i.candidate.label) <|
          compareLex (compareOn fun i => i.candidate.kind.rank) <|
            compareOn fun i => i.candidate.detail

instance : TransCmp order :=
  have : TransCmp fun a b : CompletionItem => compareOn weight b a := TransCmp.opposite
  have : TransCmp fun a b : CompletionItem => compareOn CompletionItem.score b a :=
    TransCmp.opposite
  inferInstanceAs (TransCmp (compareLex _ _))

theorem compareDetail_eq (a b : Option String) : compareDetail a b = compare a b := by
  cases a <;> cases b <;> rfl

theorem before_eq (a b : CompletionItem) : a.before b = (a.order b).isLE := by
  rw [before, compareDetail_eq]
  rfl

theorem compareDetail_eq_lt_iff {a b : Option String} :
    compareDetail a b = .lt ↔ a.map Text.encode < b.map Text.encode := by
  cases a with
  | none => cases b <;> simp [compareDetail]
  | some a =>
    cases b with
    | none => simp [compareDetail]
    | some b => exact Text.encode_lt_iff.symm

theorem order_eq_lt_iff {a b : CompletionItem} : a.order b = .lt ↔ a.Precedes b := by
  unfold order Precedes Candidate.Precedes
  simp only [compareLex, compareOn, Ordering.then_eq_lt, Std.compare_eq_lt,
    Std.compare_eq_iff_eq, ← compareDetail_eq, compareDetail_eq_lt_iff, Text.encode_lt_iff,
    CompletionKind.rank_inj]

theorem eq_of_order {a b : CompletionItem} (h : a.order b = .eq) : a = b := by
  obtain ⟨⟨label, kind, detail⟩, score, weight⟩ := a
  obtain ⟨⟨label', kind', detail'⟩, score', weight'⟩ := b
  simp only [order, compareLex, compareOn, Ordering.then_eq_eq, Std.compare_eq_iff_eq,
    CompletionKind.rank_inj] at h
  obtain ⟨rfl, rfl, -, rfl, rfl, rfl⟩ := h
  rfl

theorem increasing_mergeSort {items : List CompletionItem} (h : items.Nodup) :
    (items.mergeSort before).Pairwise fun a b => a.order b = .lt := by
  have hbefore : before = fun a b => (order a b).isLE := funext fun a => funext fun b => before_eq a b
  have hsorted := pairwise_mergeSort_isLE order items
  have hapart : (items.mergeSort before).Nodup := (List.mergeSort_perm items before).nodup_iff.mpr h
  rw [← hbefore] at hsorted
  apply (hsorted.and hapart).imp
  intro a b hab
  cases horder : a.order b with
  | lt => rfl
  | eq => exact absurd (eq_of_order horder) hab.2
  | gt =>
    rw [horder] at hab
    cases hab.1

end CompletionItem

/-! ## Distinct candidates -/

theorem nodup_eraseDups {α : Type} [BEq α] [LawfulBEq α] (as : List α) : as.eraseDups.Nodup := by
  match as with
  | [] => exact List.nodup_nil
  | a :: rest =>
    rw [List.eraseDups_cons, List.nodup_cons, List.mem_eraseDups]
    exact ⟨by simp, nodup_eraseDups _⟩
termination_by as.length
decreasing_by exact Nat.lt_succ_of_le (List.length_filter_le _ _)

section Rated

variable {rate : Candidate → Option CompletionItem}

/-- The items that `rate` makes of distinct candidates, in order. -/
def ratedInOrder (rate : Candidate → Option CompletionItem) (candidates : List Candidate) :
    List CompletionItem :=
  (candidates.eraseDups.filterMap rate).mergeSort CompletionItem.before

theorem mem_ratedInOrder {candidates : List Candidate} {i : CompletionItem} :
    i ∈ ratedInOrder rate candidates ↔ ∃ c ∈ candidates, rate c = some i := by
  simp only [ratedInOrder, List.mem_mergeSort, List.mem_filterMap, List.mem_eraseDups]

theorem increasing_ratedInOrder (hrate : ∀ c i, rate c = some i → i.candidate = c)
    (candidates : List Candidate) :
    (ratedInOrder rate candidates).Pairwise fun a b => a.order b = .lt := by
  apply CompletionItem.increasing_mergeSort
  refine List.Nodup.filterMap ?_ (nodup_eraseDups candidates)
  intro c c' i hc hc'
  exact (hrate c i hc).symm.trans (hrate c' i hc')

/-- Which candidates there are decides on the items and on their order. -/
theorem ratedInOrder_congr (hrate : ∀ c i, rate c = some i → i.candidate = c)
    {raw other : List Candidate} (hsame : ∀ c, c ∈ raw ↔ c ∈ other) :
    ratedInOrder rate raw = ratedInOrder rate other := by
  apply eq_of_increasing CompletionItem.order (increasing_ratedInOrder hrate raw)
    (increasing_ratedInOrder hrate other)
  intro i
  simp only [mem_ratedInOrder, hsame]

end Rated

/-! ## Completions -/

/-- Each candidate whose label matches is listed once, rated by its label, in strict order. -/
structure RatesAll (typed : String) (candidates : List Candidate) (all : List CompletionItem) :
    Prop where
  mem_iff : ∀ c, (∃ i ∈ all, i.candidate = c) ↔
    c ∈ candidates ∧ (Fuzzy.score typed c.label).isSome = true
  rated : ∀ i ∈ all, ∃ m, Fuzzy.score typed i.candidate.label = some m ∧ i.score = m.value ∧
    i.weight = prefixWeight typed i.candidate.label
  sorted : all.Pairwise CompletionItem.Precedes

section Completions

variable {typed : String}

theorem CompletionItem.of?_eq_some_iff {c : Candidate} {i : CompletionItem} :
    CompletionItem.of? typed c = some i ↔ i.candidate = c ∧
      ∃ m, Fuzzy.score typed c.label = some m ∧ i.score = m.value ∧
        i.weight = prefixWeight typed c.label := by
  rw [CompletionItem.of?, Option.map_eq_some_iff]
  constructor
  · rintro ⟨m, hm, rfl⟩
    exact ⟨rfl, m, hm, rfl, rfl⟩
  · rintro ⟨rfl, m, hm, hscore, hweight⟩
    exact ⟨m, hm, by rw [← hscore, ← hweight]⟩

theorem ratesAll_ratedInOrder (candidates : List Candidate) :
    RatesAll typed candidates (ratedInOrder (CompletionItem.of? typed) candidates) where
  mem_iff c := by
    constructor
    · rintro ⟨i, hi, rfl⟩
      obtain ⟨c, hc, hrate⟩ := mem_ratedInOrder.mp hi
      obtain ⟨rfl, m, hm, -⟩ := CompletionItem.of?_eq_some_iff.mp hrate
      exact ⟨hc, by rw [hm]; rfl⟩
    · rintro ⟨hc, hmatches⟩
      obtain ⟨m, hm⟩ := Option.isSome_iff_exists.mp hmatches
      refine ⟨⟨c, m.value, prefixWeight typed c.label⟩, mem_ratedInOrder.mpr ⟨c, hc, ?_⟩, rfl⟩
      exact CompletionItem.of?_eq_some_iff.mpr ⟨rfl, m, hm, rfl, rfl⟩
  rated i hi := by
    obtain ⟨c, -, hrate⟩ := mem_ratedInOrder.mp hi
    obtain ⟨rfl, hrated⟩ := CompletionItem.of?_eq_some_iff.mp hrate
    exact hrated
  sorted := by
    apply (increasing_ratedInOrder ?_ candidates).imp
    · intro a b hab
      exact CompletionItem.order_eq_lt_iff.mp hab
    · intro c i hrate
      exact (CompletionItem.of?_eq_some_iff.mp hrate).1

theorem RatesAll.nodup_candidates {candidates : List Candidate} {all : List CompletionItem}
    (h : RatesAll typed candidates all) : (all.map CompletionItem.candidate).Nodup := by
  refine List.pairwise_map.mpr (h.sorted.imp_of_mem ?_)
  intro a b ha hb hab hsame
  obtain ⟨m, hm, hscore, hweight⟩ := h.rated a ha
  obtain ⟨n, hn, hscore', hweight'⟩ := h.rated b hb
  rw [hsame, hn] at hm
  obtain rfl := Option.some.inj hm
  rw [hsame] at hweight
  have heq : a = b := by
    cases a
    cases b
    simp_all
  subst heq
  have hlt := CompletionItem.order_eq_lt_iff.mpr hab
  have hself : a.order a = .eq := Std.ReflCmp.compare_self
  rw [hself] at hlt
  cases hlt

/-- The item of a candidate by the score that a matcher in 32 bits gives. -/
def CompletionItem.ratedBy? (query : List UInt8) (typed : String) (c : Candidate) :
    Option CompletionItem :=
  (Matcher.freshScore? query (Text.encode c.label)).join.map fun score =>
    ⟨c, score.value, prefixWeight typed c.label⟩

theorem CompletionItem.candidate_of_ratedBy? {query : List UInt8} {c : Candidate} {i : CompletionItem}
    (h : CompletionItem.ratedBy? query typed c = some i) : i.candidate = c := by
  obtain ⟨score, -, rfl⟩ := Option.map_eq_some_iff.mp h
  rfl

theorem rankCandidates?_eq_map (m : Matcher) (candidates : List Candidate) (typed : String) :
    rankCandidates? m candidates typed =
      ((m.collect? Candidate.label
        (fun c score => ⟨c, score.value, prefixWeight typed c.label⟩) candidates.eraseDups).map
          Prod.snd).map fun items => (items.mergeSort CompletionItem.before).take maxCompletions := by
  unfold rankCandidates?
  dsimp only
  cases m.collect? Candidate.label _ candidates.eraseDups <;> rfl

theorem rankCandidates?_eq (m : Matcher) (candidates : List Candidate) :
    rankCandidates? m candidates typed =
      if ∀ c ∈ candidates, (Matcher.freshScore? m.query (Text.encode c.label)).isSome = true then
        some ((ratedInOrder (CompletionItem.ratedBy? m.query typed) candidates).take maxCompletions)
      else none := by
  rw [rankCandidates?_eq_map, Matcher.collect?_snd]
  simp only [List.mem_eraseDups]
  split <;> rfl

theorem rankCandidates?_of_short {candidates : List Candidate}
    (hshort : ∀ c ∈ candidates, c.label.utf8ByteSize ≤ 16777216) {m : Matcher}
    (hm : m.query = Text.encode typed) :
    rankCandidates? m candidates typed = some (rankCandidates candidates typed) := by
  rw [rankCandidates?_eq_map, Matcher.collect?_eq _ ?_ hm]
  · rfl
  · intro c hc
    exact hshort c (List.mem_eraseDups.mp hc)

/-- Which candidates there are decides on the completions: those that match, each once and rated by
its label, are put in order and cut. The order in which the candidates were found is of no account,
nor is how often each was, nor what the matcher has scored before; and 32 bits are enough for labels
of moderate length. -/
theorem completions_of_members {raw other : List Candidate} (hsame : ∀ c, c ∈ raw ↔ c ∈ other) :
    let items := rankCandidates raw typed
    rankCandidates other typed = items ∧
      (∃ all, RatesAll typed raw all ∧ items = all.take 200) ∧
      (items.map CompletionItem.candidate).Nodup ∧
      (∀ m n : Matcher, m.query = n.query →
        rankCandidates? m raw typed = rankCandidates? n other typed) ∧
      ((∀ c ∈ raw, c.label.utf8ByteSize ≤ 16777216) → ∀ m : Matcher, m.query = Text.encode typed →
        rankCandidates? m raw typed = some items) ∧
      ∀ r : CompletionRequest, r.typed = typed → (∀ c, c ∈ r.candidates ↔ c ∈ raw) →
        r.complete = items := by
  intro items
  have hcongr {raw other : List Candidate} (hsame : ∀ c, c ∈ raw ↔ c ∈ other) :
      rankCandidates raw typed = rankCandidates other typed :=
    congrArg (List.take maxCompletions) (ratedInOrder_congr
      (fun c i hrate => (CompletionItem.of?_eq_some_iff.mp hrate).1) hsame)
  have hall : RatesAll typed raw (ratedInOrder (CompletionItem.of? typed) raw) :=
    ratesAll_ratedInOrder raw
  refine ⟨(hcongr hsame).symm, ⟨_, hall, rfl⟩, ?_, ?_, ?_, ?_⟩
  · exact hall.nodup_candidates.sublist ((List.take_sublist _ _).map _)
  · intro m n hquery
    rw [rankCandidates?_eq, rankCandidates?_eq, hquery,
      ratedInOrder_congr (fun c i hrate => CompletionItem.candidate_of_ratedBy? hrate) hsame]
    simp only [hsame]
  · intro hshort m hm
    exact rankCandidates?_of_short hshort hm
  · rintro r rfl hmembers
    exact hcongr hmembers

/-- The same candidates in reverse and once more. Two of them differ in kind and detail only. -/
theorem completions_of_members_reversed :
    let raw : List Candidate := [⟨"toList", .method, some "toList() : List"⟩,
      ⟨"List", .type, some "java.util.List"⟩, ⟨"map", .method, some "map()"⟩,
      ⟨"List", .method, some "List()"⟩, ⟨"list", .field, none⟩]
    let other := raw.reverse ++ raw
    (∀ c, c ∈ raw ↔ c ∈ other) ∧ rankCandidates other "list" = rankCandidates raw "list" ∧
      (rankCandidates raw "list").map CompletionItem.candidate =
        [⟨"list", .field, none⟩, ⟨"List", .method, some "List()"⟩,
          ⟨"List", .type, some "java.util.List"⟩, ⟨"toList", .method, some "toList() : List"⟩] := by
  intro raw other
  have hsame : ∀ c, c ∈ raw ↔ c ∈ other := by
    intro c
    rw [List.mem_append, List.mem_reverse, or_self]
  have h := @completions_of_members "list" raw other hsame
  exact ⟨hsame, h.1, by cbv⟩

end Completions

end JavaAtlas
