import Mathlib.Data.List.Nodup
import Mathlib.Data.List.Pairwise
import JavaAtlas.Index.Search
import JavaAtlas.Proofs.Fuzzy.Score
import JavaAtlas.Proofs.Fuzzy.Trigram
import JavaAtlas.Proofs.Text.ByteOrder

/-!
# What a search finds

Candidates are chosen by the bytes of the query before anything is scored, so a weak match can be
passed over. A strong one cannot: its text contains the query or begins like it, and each way to
choose candidates keeps such texts. As strong matches rank first, the answer begins like the ranking
of all symbols.
-/

namespace JavaAtlas

set_option autoImplicit false

open Std (LawfulEqOrd OrientedCmp TransCmp)
open Fuzzy (MatchKind MatchScore TrigramIndex)

namespace ByteTable

theorem places_empty (byte : UInt8) : empty.places byte = [] := by
  simp [places, empty]

theorem places_push (table : ByteTable) (byte other : UInt8) (place : Nat) :
    (table.push byte place).places other =
      if byte = other then table.places other ++ [place] else table.places other := by
  have hslot : byte.toNat = other.toNat ↔ byte = other := UInt8.toNat_inj
  simp only [places, push, Array.getElem_modify, hslot]
  split
  · rw [Array.toList_push]
  · rfl

/-- A place entered under several bytes, each once, stands last under each of them. -/
theorem places_foldl_push {bytes : List UInt8} (hbytes : bytes.Nodup) (table : ByteTable) (place : Nat)
    (byte : UInt8) :
    (bytes.foldl (fun table b => table.push b place) table).places byte =
      table.places byte ++ if byte ∈ bytes then [place] else [] := by
  induction bytes generalizing table with
  | nil => simp
  | cons b bytes ih =>
    rw [List.nodup_cons] at hbytes
    rw [List.foldl_cons, ih hbytes.2, places_push]
    by_cases hb : b = byte
    · subst hb
      simp [hbytes.1]
    · simp [hb, Ne.symm hb]

end ByteTable

namespace SearchIndex

/-! ## The ranking of all symbols -/

structure IsBest (query : String) (s : Symbol) (m : MatchScore) : Prop where
  attained : ∃ t ∈ [s.name, s.fqn], Fuzzy.score query t = some m
  best : ∀ t ∈ [s.name, s.fqn], ∀ other, Fuzzy.score query t = some other →
    (other.compare m).isLE = true

theorem IsBest.unique {query : String} {s : Symbol} {m m' : MatchScore} (h : IsBest query s m)
    (h' : IsBest query s m') : m = m' := by
  obtain ⟨t, ht, hm⟩ := h.attained
  obtain ⟨t', ht', hm'⟩ := h'.attained
  exact MatchScore.eq_of_compare
    (OrientedCmp.isLE_antisymm (h'.best t ht m hm) (h.best t' ht' m' hm'))

theorem mem_textsOf_iff (s : Symbol) (t : String) : t ∈ textsOf s ↔ t ∈ [s.name, s.fqn] := by
  rw [textsOf]
  split
  · simp_all
  · rfl

/-- Keeping the better of two scores at each step ends at one that no score of the list beats. -/
theorem best_of_foldl (first : MatchScore) (rest : List MatchScore) :
    let m := rest.foldl (fun a b => if (b.compare a).isGT then b else a) first
    m ∈ first :: rest ∧ ∀ other ∈ first :: rest, (other.compare m).isLE = true := by
  induction rest generalizing first with
  | nil => simp [Std.ReflCmp.compare_self]
  | cons b rest ih =>
    obtain ⟨hmem, hbest⟩ := ih (if (b.compare first).isGT then b else first)
    rw [List.foldl_cons]
    have hkept := hbest _ List.mem_cons_self
    -- the loser of the first step is beaten by its winner, and that one by the result
    by_cases hgt : (b.compare first).isGT = true
    · rw [if_pos hgt] at hmem hbest hkept ⊢
      have hlost : (first.compare b).isLE = true :=
        OrientedCmp.isGE_iff_isLE.mp (by simp_all [Ordering.isGE])
      refine ⟨List.mem_cons_of_mem _ hmem, ?_⟩
      rw [List.forall_mem_cons]
      exact ⟨TransCmp.isLE_trans hlost hkept, hbest⟩
    · rw [if_neg hgt] at hmem hbest hkept ⊢
      have hlost : (b.compare first).isLE = true := by
        rwa [Bool.not_eq_true, ← Bool.not_eq_true', Ordering.not_isGT_eq_isLE] at hgt
      refine ⟨?_, ?_⟩
      · rw [List.mem_cons] at hmem ⊢
        exact hmem.imp_right (List.mem_cons_of_mem b)
      · rw [List.forall_mem_cons, List.forall_mem_cons]
        exact ⟨hkept, TransCmp.isLE_trans hlost hkept,
          fun other hother => hbest other (List.mem_cons_of_mem _ hother)⟩

/-- Either no text of the symbol matches, or its score is the best one. -/
theorem scoreOf_spec (query : String) (s : Symbol) :
    (scoreOf query s = none ∧ ∀ t ∈ [s.name, s.fqn], Fuzzy.score query t = none) ∨
      ∃ m, scoreOf query s = some m ∧ IsBest query s m := by
  cases hscores : (textsOf s).filterMap (Fuzzy.score query) with
  | nil =>
    refine .inl ⟨by rw [scoreOf, hscores], fun t ht => ?_⟩
    exact List.filterMap_eq_nil_iff.mp hscores t ((mem_textsOf_iff s t).mpr ht)
  | cons first rest =>
    obtain ⟨hmem, hbest⟩ := best_of_foldl first rest
    rw [← hscores, List.mem_filterMap] at hmem
    obtain ⟨t, ht, hm⟩ := hmem
    refine .inr ⟨_, by rw [scoreOf, hscores], ⟨t, (mem_textsOf_iff s t).mp ht, hm⟩, ?_⟩
    intro t ht other hother
    refine hbest other ?_
    rw [← hscores, List.mem_filterMap]
    exact ⟨t, (mem_textsOf_iff s t).mpr ht, hother⟩

theorem scoreOf_eq_some_iff (query : String) (s : Symbol) (m : MatchScore) :
    scoreOf query s = some m ↔ IsBest query s m := by
  constructor
  · intro h
    obtain ⟨hnone, -⟩ | ⟨m', hsome, hbest⟩ := scoreOf_spec query s
    · simp [hnone] at h
    · rwa [← Option.some.inj (hsome.symm.trans h)]
  · intro h
    obtain ⟨-, hnone⟩ | ⟨m', hsome, hbest⟩ := scoreOf_spec query s
    · obtain ⟨t, ht, hm⟩ := h.attained
      simp [hnone t ht] at hm
    · rw [hsome, hbest.unique h]

def scored (query : String) (symbols : List Symbol) : List SearchResult :=
  symbols.filterMap fun s => (scoreOf query s).map fun score => ⟨s, score⟩

theorem mem_scored_iff (query : String) (symbols : List Symbol) (r : SearchResult) :
    r ∈ scored query symbols ↔ r.symbol ∈ symbols ∧ IsBest query r.symbol r.score := by
  simp only [scored, List.mem_filterMap, Option.map_eq_some_iff, scoreOf_eq_some_iff]
  constructor
  · rintro ⟨s, hs, m, hm, rfl⟩
    exact ⟨hs, hm⟩
  · rintro ⟨hs, hm⟩
    exact ⟨r.symbol, hs, r.score, hm, rfl⟩

theorem nodup_scored {symbols : List Symbol} (h : symbols.Nodup) (query : String) :
    (scored query symbols).Nodup := by
  refine List.Nodup.filterMap (fun s s' r hs hs' => ?_) h
  rw [Option.mem_def, Option.map_eq_some_iff] at hs hs'
  obtain ⟨m, -, rfl⟩ := hs
  obtain ⟨m', -, heq⟩ := hs'
  exact (SearchResult.mk.inj heq).1.symm

def Distinct (symbols : List Symbol) : Prop :=
  symbols.Pairwise fun a b => ¬ (compare a.path b.path = .eq ∧ a.ordinal = b.ordinal)

theorem Distinct.nodup {symbols : List Symbol} (h : Distinct symbols) : symbols.Nodup := by
  refine List.Pairwise.imp (fun {a b} hne heq => hne ?_) h
  rw [heq]
  exact ⟨Std.ReflCmp.compare_self, rfl⟩

theorem Distinct.eq_of_place {symbols : List Symbol} (h : Distinct symbols) {a b : Symbol}
    (ha : a ∈ symbols) (hb : b ∈ symbols) (hpath : compare a.path b.path = .eq)
    (hordinal : a.ordinal = b.ordinal) : a = b := by
  by_contra hne
  have : Std.Symm fun a b : Symbol =>
      ¬ (compare a.path b.path = .eq ∧ a.ordinal = b.ordinal) :=
    ⟨fun a b hab ⟨hp, ho⟩ => hab ⟨OrientedCmp.eq_comm.mp hp, ho.symm⟩⟩
  exact List.Pairwise.forall h ha hb hne ⟨hpath, hordinal⟩

/-- All matches among the symbols, each once, best first. -/
structure Ranking (symbols : List Symbol) (query : String) (ranked : List SearchResult) : Prop where
  mem_iff : ∀ r, r ∈ ranked ↔ r.symbol ∈ symbols ∧ IsBest query r.symbol r.score
  nodup : ranked.Nodup
  sorted : ranked.Pairwise fun a b => rankedBefore a b = true

/-! ## The order of results -/

def scoreOrder : SearchResult → SearchResult → Ordering :=
  compareLex (compareOn fun r => r.score.kind.rank) (compareOn fun r => r.score.score)

def resultOrder : SearchResult → SearchResult → Ordering :=
  compareLex (fun a b => scoreOrder b a)
    (compareLex (compareOn fun r => r.symbol.name.utf8ByteSize)
      (compareLex (compareOn fun r => r.symbol.name)
        (compareLex (compareOn fun r => r.symbol.fqn)
          (compareLex (compareOn fun r => r.symbol.path) (compareOn fun r => r.symbol.ordinal)))))

instance : TransCmp scoreOrder := inferInstanceAs (TransCmp (compareLex _ _))

instance : TransCmp resultOrder :=
  have : TransCmp fun a b => scoreOrder b a := TransCmp.opposite
  inferInstanceAs (TransCmp (compareLex _ _))

theorem rankedBefore_eq (a b : SearchResult) : rankedBefore a b = (resultOrder a b).isLE := rfl

theorem rankedBefore_trans (a b c : SearchResult) (hab : rankedBefore a b = true)
    (hbc : rankedBefore b c = true) : rankedBefore a c = true := by
  rw [rankedBefore_eq] at hab hbc ⊢
  exact TransCmp.isLE_trans hab hbc

theorem rankedBefore_total (a b : SearchResult) :
    (rankedBefore a b || rankedBefore b a) = true := by
  have hswap : resultOrder a b = (resultOrder b a).swap := OrientedCmp.eq_swap
  rw [rankedBefore_eq, rankedBefore_eq, hswap]
  cases resultOrder b a <;> rfl

theorem rank_le_of_rankedBefore {a b : SearchResult} (h : rankedBefore a b = true) :
    b.score.kind.rank ≤ a.score.kind.rank := by
  have hscore : (scoreOrder b a).isLE = true := Ordering.isLE_left_of_isLE_then h
  exact Nat.isLE_compare.mp (Ordering.isLE_left_of_isLE_then hscore)

variable {symbols : List Symbol} {query : String}

theorem rankedBefore_antisymm (h : Distinct symbols) {a b : SearchResult}
    (ha : a ∈ scored query symbols) (hb : b ∈ scored query symbols)
    (hab : rankedBefore a b = true) (hba : rankedBefore b a = true) : a = b := by
  rw [mem_scored_iff] at ha hb
  have heq : resultOrder a b = .eq := OrientedCmp.isLE_antisymm hab hba
  simp only [resultOrder, compareLex, compareOn, Ordering.then_eq_eq] at heq
  obtain ⟨-, -, -, -, hpath, hordinal⟩ := heq
  have hsymbol := h.eq_of_place ha.1 hb.1 hpath (LawfulEqOrd.eq_of_compare hordinal)
  have hscore := ha.2.unique (hsymbol ▸ hb.2)
  cases a
  cases b
  rw [SearchResult.mk.injEq]
  exact ⟨hsymbol, hscore⟩

theorem ranking_mergeSort (h : Distinct symbols) (query : String) :
    Ranking symbols query ((scored query symbols).mergeSort rankedBefore) where
  mem_iff r := by rw [List.mem_mergeSort, mem_scored_iff]
  nodup := (List.mergeSort_perm _ _).nodup_iff.mpr (nodup_scored h.nodup query)
  sorted := List.pairwise_mergeSort rankedBefore_trans rankedBefore_total _

theorem eq_of_sorted (h : Distinct symbols) {as bs : List SearchResult}
    (hmatch : as ⊆ scored query symbols) (hperm : as.Perm bs)
    (has : as.Pairwise fun a b => rankedBefore a b = true)
    (hbs : bs.Pairwise fun a b => rankedBefore a b = true) : as = bs :=
  hperm.eq_of_pairwise
    (fun _ _ ha hb => rankedBefore_antisymm h (hmatch ha) (hmatch (hperm.mem_iff.mpr hb)))
    has hbs

/-! ## The table of first bytes -/

theorem mem_initialsOf_iff (s : Symbol) (byte : UInt8) :
    byte ∈ initialsOf s ↔ ∃ t ∈ textsOf s, firstByte? t = some byte := by
  simp only [mem_textsOf_iff, initialsOf, List.mem_append, Option.mem_toList, Option.filter_eq_some_iff]
  constructor
  · rintro (hname | ⟨hfqn, -⟩)
    · exact ⟨s.name, by simp, hname⟩
    · exact ⟨s.fqn, by simp, hfqn⟩
  · rintro ⟨t, ht, hbyte⟩
    by_cases hname : firstByte? s.name = some byte
    · exact Or.inl hname
    · rcases List.mem_pair.mp ht with rfl | rfl
      · exact Or.inl hbyte
      · exact Or.inr ⟨hbyte, by simpa using Ne.symm hname⟩

theorem nodup_initialsOf (s : Symbol) : (initialsOf s).Nodup := by
  have hnodup (byte? : Option UInt8) : byte?.toList.Nodup := by cases byte? <;> simp
  refine List.nodup_append.mpr ⟨hnodup _, hnodup _, ?_⟩
  rintro byte hname other hfqn rfl
  rw [Option.mem_toList] at hname hfqn
  simp [hname] at hfqn

/-- Under each byte stand the places of the symbols one of whose texts begins with it, in order. -/
theorem places_foldl_enter (entries : List (Symbol × Nat)) (table : ByteTable) (byte : UInt8) :
    (entries.foldl enter table).places byte =
      table.places byte ++ (entries.filter fun e => byte ∈ initialsOf e.1).map (·.2) := by
  induction entries generalizing table with
  | nil => simp
  | cons e entries ih =>
    rw [List.foldl_cons, ih, enter, ByteTable.places_foldl_push (nodup_initialsOf e.1),
      List.append_assoc, List.filter_cons]
    by_cases hbyte : byte ∈ initialsOf e.1 <;> simp [hbyte]

/-- A slot of the table lists the symbols that a scan of all of them would choose. -/
theorem bucket_ofSymbols (generation : Nat) (symbols : List Symbol) (hquery : query ≠ "") :
    (ofSymbols generation symbols).bucket query =
      symbols.filter fun s => (textsOf s).any fun t => firstByte? t == firstByte? query := by
  obtain ⟨byte, hbyte⟩ : ∃ byte, firstByte? query = some byte := by
    cases hbytes : Text.encode query with
    | nil => exact absurd hbytes (Text.encode_ne_nil hquery)
    | cons first rest => exact ⟨Fuzzy.fold first, by rw [firstByte?, hbytes]; rfl⟩
  have hscan (s : Symbol) :
      ((textsOf s).any fun t => firstByte? t == some byte) = decide (byte ∈ initialsOf s) := by
    rw [Bool.eq_iff_iff, List.any_eq_true, decide_eq_true_iff, mem_initialsOf_iff]
    simp only [beq_iff_eq]
  have hplaced (e : Symbol × Nat) (he : e ∈ symbols.zipIdx) : symbols[e.2]? = some e.1 :=
    List.mk_mem_zipIdx_iff_getElem?.mp he
  calc (ofSymbols generation symbols).bucket query
    _ = (symbols.zipIdx.filter fun e => byte ∈ initialsOf e.1).filterMap fun e => symbols[e.2]? := by
      simp only [bucket, hbyte, ofSymbols, places_foldl_enter, ByteTable.places_empty,
        List.nil_append, List.filterMap_map, Function.comp_def]
    _ = (symbols.zipIdx.filter fun e => byte ∈ initialsOf e.1).map (·.1) := by
      rw [← List.filterMap_eq_map]
      exact List.filterMap_congr fun e he => hplaced e (List.mem_of_mem_filter he)
    _ = symbols.filter fun s => byte ∈ initialsOf s := by
      rw [← Function.comp_def (fun s => decide (byte ∈ initialsOf s)) Prod.fst, ← List.filter_map,
        List.zipIdx_map_fst]
    _ = symbols.filter fun s => (textsOf s).any fun t => firstByte? t == firstByte? query := by
      simp only [hbyte, hscan]

theorem bucket_sublist (generation : Nat) (symbols : List Symbol) (query : String) :
    ((ofSymbols generation symbols).bucket query).Sublist symbols := by
  by_cases hquery : query = ""
  · rw [hquery]
    exact List.nil_sublist symbols
  · rw [bucket_ofSymbols generation symbols hquery]
    exact List.filter_sublist

/-! ## Strong matches -/

/-- The kinds of match that no choice of candidates loses. -/
def reliable (query : String) : MatchKind → Bool
  | .exact | .leading => true
  | .substring => 3 ≤ query.utf8ByteSize
  | .scattered => false

theorem reliable_of_rank_le {k k' : MatchKind} (h : k.rank ≤ k'.rank)
    (hk : reliable query k = true) : reliable query k' = true := by
  cases k <;> cases k' <;> simp_all [reliable, MatchKind.rank]

section Candidates

variable {generation : Nat} {s : Symbol} {t : String} {m : MatchScore}

theorem mem_bucket_of_foldedPrefix (hs : s ∈ symbols) (ht : t ∈ [s.name, s.fqn])
    (hquery : query ≠ "")
    (hstarts : Fuzzy.foldedPrefix (Text.encode query) (Text.encode t) = true) :
    s ∈ (ofSymbols generation symbols).bucket query := by
  rw [bucket_ofSymbols generation symbols hquery, List.mem_filter, List.any_eq_true]
  refine ⟨hs, t, (mem_textsOf_iff s t).mpr ht, ?_⟩
  rw [beq_iff_eq, firstByte?, firstByte?]
  exact Fuzzy.head?_map_fold_of_foldedPrefix hstarts (Text.encode_ne_nil hquery)

theorem mem_docs {i : Nat} (hs : symbols[i]? = some s) (ht : t ∈ [s.name, s.fqn]) :
    (i, t) ∈ symbols.zipIdx.flatMap fun e => (textsOf e.1).map fun t => (e.2, t) := by
  refine List.mem_flatMap.mpr ⟨(s, i), ?_, List.mem_map.mpr ⟨t, (mem_textsOf_iff s t).mpr ht, rfl⟩⟩
  exact List.mk_mem_zipIdx_iff_getElem?.mpr hs

theorem mem_candidates_of_reliable (hs : s ∈ symbols) (hquery : query ≠ "")
    (hm : IsBest query s m) (hstrong : reliable query m.kind = true) :
    s ∈ ((ofSymbols generation symbols).candidates query).2 := by
  obtain ⟨t, ht, hscore⟩ := hm.attained
  obtain ⟨i, hi⟩ := List.mem_iff_getElem?.mp hs
  rw [candidates]
  cases hids : (ofSymbols generation symbols).trigrams.candidates query with
  | none =>
    -- a query without trigrams has a strong match only where a text begins like it
    have hshort := (TrigramIndex.candidates_eq_none_iff _ query).mp hids
    rw [Text.length_encode] at hshort
    have hkind : MatchKind.leading.rank ≤ m.kind.rank := by
      revert hstrong
      cases m.kind <;> simp [reliable, MatchKind.rank]
      omega
    have hbucket : s ∈ (ofSymbols generation symbols).bucket query :=
      mem_bucket_of_foldedPrefix hs ht hquery (Fuzzy.foldedPrefix_of_leading hscore hkind)
    cases hfound : (ofSymbols generation symbols).bucket query with
    | nil => simp [hfound] at hbucket
    | cons first rest => simpa [hfound] using hbucket
  | some ids =>
    have hkind : MatchKind.substring.rank ≤ m.kind.rank := by
      revert hstrong
      cases m.kind <;> simp [reliable, MatchKind.rank]
    have hid : i ∈ ids := TrigramIndex.mem_candidates_of_foldedInfix hids (mem_docs hi ht)
      (Fuzzy.foldedInfix_of_substring hscore hkind)
    cases ids with
    | nil => simp at hid
    | cons id ids => exact List.mem_filterMap.mpr ⟨i, hid, hi⟩

theorem candidates_subset : ((ofSymbols generation symbols).candidates query).2 ⊆ symbols := by
  rw [candidates]
  split
  · intro s hs
    obtain ⟨i, -, hi⟩ := List.mem_filterMap.mp hs
    exact List.mem_of_getElem? hi
  · split
    · exact List.take_subset _ _
    · exact (bucket_sublist generation symbols query).subset

theorem nodup_candidates (h : symbols.Nodup) :
    ((ofSymbols generation symbols).candidates query).2.Nodup := by
  rw [candidates]
  split
  next id ids hids =>
    refine List.Nodup.filterMap (fun i j s hi hj => ?_) (TrigramIndex.nodup_candidates hids)
    exact (List.getElem?_inj (List.getElem?_eq_some_iff.mp hi).1 h).mp (hi.trans hj.symm)
  next =>
    split
    · exact h.sublist (List.take_sublist _ _)
    · exact h.sublist (bucket_sublist generation symbols query)

end Candidates

/-- Where a predicate passes from each element to those before it, its longest prefix is all of it. -/
theorem takeWhile_eq_filter {α : Type} {before : α → α → Prop} {p : α → Bool} {as : List α}
    (hsorted : as.Pairwise before) (hp : ∀ a b, before a b → p b = true → p a = true) :
    as.takeWhile p = as.filter p := by
  induction as with
  | nil => rfl
  | cons a as ih =>
    rw [List.pairwise_cons] at hsorted
    by_cases ha : p a = true
    · rw [List.takeWhile_cons_of_pos ha, List.filter_cons_of_pos ha, ih hsorted.2]
    · rw [List.takeWhile_cons_of_neg ha, List.filter_cons_of_neg ha, eq_comm,
        List.filter_eq_nil_iff]
      exact fun b hb hpb => ha (hp a b (hsorted.1 b hb) hpb)

def strong (query : String) (results : List SearchResult) : List SearchResult :=
  results.takeWhile fun r => reliable query r.score.kind

theorem strong_eq_filter {results : List SearchResult}
    (h : results.Pairwise fun a b => rankedBefore a b = true) :
    strong query results = results.filter fun r => reliable query r.score.kind :=
  takeWhile_eq_filter h fun _ _ hab => reliable_of_rank_le (rank_le_of_rankedBefore hab)

theorem take_eq_take_strong {results : List SearchResult} {n : Nat}
    (h : n ≤ (strong query results).length) : results.take n = (strong query results).take n := by
  obtain ⟨rest, hrest⟩ : strong query results <+: results := List.takeWhile_prefix _
  calc results.take n
    _ = (strong query results ++ rest).take n := by rw [hrest]
    _ = (strong query results).take n := List.take_append_of_le_length h

theorem take_eq_of_strong_eq {as bs : List SearchResult} (hstrong : strong query as = strong query bs)
    {n : Nat} (h : n ≤ (strong query bs).length) : as.take n = bs.take n := by
  rw [take_eq_take_strong h, ← hstrong]
  exact take_eq_take_strong (hstrong ▸ h)

/-! ## The answer -/

section Answer

variable (generation : Nat)

def found (index : SearchIndex) (query : String) : List SearchResult :=
  (scored query (index.candidates query).2).mergeSort rankedBefore

theorem results_search (index : SearchIndex) (hquery : query ≠ "") (limit : Nat) :
    (index.search query limit).results = (index.found query).take limit := by
  rw [search, if_neg hquery]
  rfl

theorem sorted_found (index : SearchIndex) :
    (index.found query).Pairwise fun a b => rankedBefore a b = true :=
  List.pairwise_mergeSort rankedBefore_trans rankedBefore_total _

theorem mem_found_iff (r : SearchResult) :
    r ∈ (ofSymbols generation symbols).found query ↔
      r.symbol ∈ ((ofSymbols generation symbols).candidates query).2 ∧
        IsBest query r.symbol r.score := by
  rw [found, List.mem_mergeSort, mem_scored_iff]

theorem found_subset : (ofSymbols generation symbols).found query ⊆ scored query symbols := by
  intro r hr
  rw [mem_found_iff] at hr
  rw [mem_scored_iff]
  exact ⟨candidates_subset hr.1, hr.2⟩

/-- The candidates have the same strong matches as all symbols. -/
theorem strong_found (h : Distinct symbols) (hquery : query ≠ "") {ranked : List SearchResult}
    (hranked : Ranking symbols query ranked) :
    strong query ((ofSymbols generation symbols).found query) = strong query ranked := by
  have hsorted : ((ofSymbols generation symbols).found query).Pairwise _ := sorted_found _
  have hnodup : ((ofSymbols generation symbols).found query).Nodup :=
    (List.mergeSort_perm _ _).nodup_iff.mpr (nodup_scored (nodup_candidates h.nodup) query)
  have hsubset : ((ofSymbols generation symbols).found query).filter
      (fun r => reliable query r.score.kind) ⊆ scored query symbols :=
    fun r hr => found_subset generation (List.mem_of_mem_filter hr)
  rw [strong_eq_filter hsorted, strong_eq_filter hranked.sorted]
  refine eq_of_sorted h hsubset ?_ (hsorted.filter _) (hranked.sorted.filter _)
  · rw [List.perm_ext_iff_of_nodup (hnodup.filter _) (hranked.nodup.filter _)]
    intro r
    rw [List.mem_filter, List.mem_filter, mem_found_iff, hranked.mem_iff]
    constructor
    · rintro ⟨⟨hs, hm⟩, hstrong⟩
      exact ⟨⟨candidates_subset hs, hm⟩, hstrong⟩
    · rintro ⟨⟨hs, hm⟩, hstrong⟩
      exact ⟨⟨mem_candidates_of_reliable hs hquery hm hstrong, hm⟩, hstrong⟩

/-- What a selection of the best `limit` matches may leave, in any order. -/
def Selected (limit : Nat) (found kept : List SearchResult) : Prop :=
  ∃ dropped, (kept ++ dropped).Perm found ∧ kept.length = min limit found.length ∧
    ∀ a ∈ kept, ∀ b ∈ dropped, rankedBefore a b = true

/-- Sorting what a selection left gives the head of the sorted whole. -/
theorem mergeSort_of_selected (h : Distinct symbols) {limit : Nat} {kept : List SearchResult}
    (hkept : Selected limit (scored query ((ofSymbols generation symbols).candidates query).2)
      kept) :
    kept.mergeSort rankedBefore = ((ofSymbols generation symbols).found query).take limit := by
  obtain ⟨dropped, hperm, hlength, hbefore⟩ := hkept
  have hsort (rs : List SearchResult) :
      (rs.mergeSort rankedBefore).Pairwise fun a b => rankedBefore a b = true :=
    List.pairwise_mergeSort rankedBefore_trans rankedBefore_total rs
  have hsplit : (ofSymbols generation symbols).found query =
      kept.mergeSort rankedBefore ++ dropped.mergeSort rankedBefore := by
    refine eq_of_sorted h (found_subset generation) ?_ (sorted_found _) ?_
    · exact (List.mergeSort_perm _ _).trans
        (hperm.symm.trans ((List.mergeSort_perm _ _).append (List.mergeSort_perm _ _)).symm)
    · refine List.pairwise_append.mpr ⟨hsort kept, hsort dropped, fun a ha b hb => ?_⟩
      exact hbefore a (List.mem_mergeSort.mp ha) b (List.mem_mergeSort.mp hb)
  have hkeeps : (kept.mergeSort rankedBefore).length =
      min limit ((ofSymbols generation symbols).found query).length := by
    rw [List.length_mergeSort, hlength, found, List.length_mergeSort]
  rw [List.take_eq_take_min, ← hkeeps, hsplit, List.take_left]

theorem Ranking.unique (h : Distinct symbols) {ranked other : List SearchResult}
    (hranked : Ranking symbols query ranked) (hother : Ranking symbols query other) :
    other = ranked := by
  have hsubset : other ⊆ scored query symbols := fun r hr =>
    (mem_scored_iff query symbols r).mpr ((hother.mem_iff r).mp hr)
  refine eq_of_sorted h hsubset ?_ hother.sorted hranked.sorted
  · rw [List.perm_ext_iff_of_nodup hother.nodup hranked.nodup]
    exact fun r => (hother.mem_iff r).trans (hranked.mem_iff r).symm

/-- The symbols have one ranking, all its strong matches stand at its head, and a search answers
with that head as far as the limit lets it. A smaller limit cuts the answer of a larger one, and
sorting any selection of the best matches gives the same answer. -/
theorem search_agrees_with_ranking (h : Distinct symbols) (hquery : query ≠ "") :
    ∃ ranked, Ranking symbols query ranked ∧
      (∀ other, Ranking symbols query other → other = ranked) ∧
      (∀ r, r ∈ strong query ranked ↔ r ∈ ranked ∧ reliable query r.score.kind = true) ∧
      ∀ limit,
        let index := ofSymbols generation symbols
        let certain := min limit (strong query ranked).length
        (index.search query limit).results.take certain = ranked.take certain ∧
          (∀ kept, Selected limit (scored query (index.candidates query).2) kept →
            kept.mergeSort rankedBefore = (index.search query limit).results) ∧
          ∀ k, k ≤ limit →
            (index.search query k).results = (index.search query limit).results.take k := by
  have hranking := ranking_mergeSort h query
  refine ⟨_, hranking, fun other hother => hranking.unique h hother, fun r => ?_, fun limit => ?_⟩
  · rw [strong_eq_filter hranking.sorted, List.mem_filter]
  · have hfound := strong_found generation h hquery hranking
    refine ⟨?_, fun kept hkept => ?_, fun k hk => ?_⟩
    · rw [results_search _ hquery, List.take_take, Nat.min_eq_left (Nat.min_le_left _ _)]
      exact take_eq_of_strong_eq hfound (Nat.min_le_right _ _)
    · rw [results_search _ hquery, mergeSort_of_selected generation h hkept]
    · rw [results_search _ hquery, results_search _ hquery, List.take_take, Nat.min_eq_left hk]

end Answer

def lists : List Symbol :=
  let type (name : String) (ordinal : UInt32) : Symbol :=
    ⟨"p." ++ name, name, .type, some .classType, ⟨"/a"⟩, default, default, "class", none, ordinal⟩
  [type "ArrayList" 0, type "ListView" 1, type "LineSet" 2, type "List" 3]

theorem distinct_lists : Distinct lists := by
  unfold Distinct
  decide

theorem search_agrees_with_ranking_lists :
    Distinct lists ∧ "list" ≠ "" ∧ ∃ ranked, Ranking lists "list" ranked ∧
      let index := ofSymbols 1 lists
      let certain := min 2 (strong "list" ranked).length
      (index.search "list" 2).results.take certain = ranked.take certain ∧
        (index.search "list" 1).results = (index.search "list" 2).results.take 1 := by
  obtain ⟨ranked, hranking, -, -, hanswer⟩ :=
    search_agrees_with_ranking 1 distinct_lists (show "list" ≠ "" by decide)
  exact ⟨distinct_lists, by decide, ranked, hranking, (hanswer 2).1, (hanswer 2).2.2 1 (by decide)⟩

end SearchIndex

end JavaAtlas
