import JavaAtlas.Fuzzy.Trigram
import JavaAtlas.Proofs.Data.MultiMap

/-!
# What the trigram postings hold

An id stands under a trigram exactly if one of its texts contains that trigram. A text that contains
a query, ASCII case aside, contains all trigrams of the query, so its id is never filtered out.
-/

namespace JavaAtlas.Fuzzy

set_option autoImplicit false

open Std (LawfulEqOrd TransOrd)

/-! ## Trigrams -/

theorem trigrams_eq_nil_iff (bytes : List UInt8) : trigrams bytes = [] ↔ bytes.length < 3 := by
  match bytes with
  | [] | [_] | [_, _] => simp [trigrams]
  | _ :: _ :: _ :: _ => simp [trigrams]

/-- Trigrams see folded bytes only, so a folded prefix has its trigrams in common. -/
theorem mem_trigrams_of_foldedPrefix {query bytes : List UInt8} (h : foldedPrefix query bytes = true)
    {t : Trigram} (ht : t ∈ trigrams query) : t ∈ trigrams bytes := by
  induction query generalizing bytes with
  | nil => simp [trigrams] at ht
  | cons a query ih =>
    match query, bytes with
    | [], _ | [_], _ => simp [trigrams] at ht
    | _ :: _ :: _, [] | _ :: _ :: _, [_] | _ :: _ :: _, [_, _] => simp [foldedPrefix] at h
    | b :: c :: query, a' :: b' :: c' :: bytes =>
      have htail : foldedPrefix (b :: c :: query) (b' :: c' :: bytes) = true := by
        simp only [foldedPrefix, List.map_cons, List.isPrefixOf_cons_cons, Bool.and_eq_true] at h ⊢
        exact h.2
      simp only [foldedPrefix, List.map_cons, List.isPrefixOf_cons_cons, Bool.and_eq_true,
        beq_iff_eq] at h
      obtain ⟨ha, hb, hc, -⟩ := h
      rw [trigrams, List.mem_cons] at ht ⊢
      refine ht.imp (fun ht => ?_) (ih htail)
      rw [ht, Trigram.ofBytes, Trigram.ofBytes, ha, hb, hc]

theorem mem_trigrams_of_foldedInfix {query bytes : List UInt8} (h : foldedInfix query bytes = true)
    {t : Trigram} (ht : t ∈ trigrams query) : t ∈ trigrams bytes := by
  induction bytes with
  | nil =>
    rw [foldedInfix, List.isEmpty_iff] at h
    simp [h, trigrams] at ht
  | cons b bytes ih =>
    rw [foldedInfix, Bool.or_eq_true] at h
    rcases h with h | h
    · exact mem_trigrams_of_foldedPrefix h ht
    · have htail := ih h
      match bytes with
      | [] | [_] => simp [trigrams] at htail
      | _ :: _ :: _ =>
        rw [trigrams]
        exact List.mem_cons_of_mem _ htail

/-! ## Postings -/

namespace TrigramIndex

/-- One of the texts under the id contains the trigram. -/
def Occurs (docs : List (Nat × String)) (t : Trigram) (id : Nat) : Prop :=
  ∃ text, (id, text) ∈ docs ∧ t ∈ trigrams (Text.encode text)

theorem postingSets_insert (index : TrigramIndex) (id : Nat) (text : String) :
    (index.insert id text).postingSets =
      MultiMap.linkAll index.postingSets ((trigrams (Text.encode text)).map (·, id)) := by
  rw [insert, MultiMap.linkAll, List.foldl_map]

theorem represents_foldl {docs before : List (Nat × String)} {index : TrigramIndex}
    (h : MultiMap.Represents index.postingSets (Occurs before)) :
    MultiMap.Represents (docs.foldl (fun index doc => index.insert doc.1 doc.2) index).postingSets
      (Occurs (before ++ docs)) := by
  induction docs generalizing before index with
  | nil => simpa using h
  | cons doc docs ih =>
    rw [List.foldl_cons, List.append_cons]
    apply ih
    rw [postingSets_insert]
    refine (h.linkAll _ fun _ a b _ _ hc => LawfulEqOrd.eq_of_compare hc).congr fun t id => ?_
    simp only [Occurs, List.mem_map, Prod.mk.injEq, List.mem_append, List.mem_singleton]
    grind

/-- The postings hold what the texts contain and nothing else. -/
theorem represents_ofList (docs : List (Nat × String)) :
    MultiMap.Represents (ofList docs).postingSets (Occurs docs) := by
  have hempty : MultiMap.Represents ({} : TrigramIndex).postingSets (Occurs []) :=
    MultiMap.represents_empty.congr fun t id => by simp [Occurs]
  exact represents_foldl hempty

theorem mem_postings_iff (docs : List (Nat × String)) (t : Trigram) (id : Nat) :
    id ∈ (ofList docs).postings t ↔ Occurs docs t id :=
  (represents_ofList docs).mem_iff t id

theorem nodup_postings (index : TrigramIndex) (t : Trigram) : (index.postings t).Nodup := by
  rw [postings, MultiMap.lookup]
  split
  · exact SortedMap.nodup_keys _
  · exact List.nodup_nil

/-! ## Candidates -/

theorem candidates_eq_none_iff (index : TrigramIndex) (query : String) :
    index.candidates query = none ↔ (Text.encode query).length < 3 := by
  rw [← trigrams_eq_nil_iff, candidates]
  split <;> simp_all

theorem mem_candidates_iff {docs : List (Nat × String)} {query : String} {ids : List Nat}
    (h : (ofList docs).candidates query = some ids) (id : Nat) :
    id ∈ ids ↔ ∀ t ∈ trigrams (Text.encode query), Occurs docs t id := by
  rw [candidates] at h
  split at h
  · simp at h
  · rename_i t rest htrigrams
    rw [← Option.some.inj h, htrigrams, List.mem_filter, mem_postings_iff, List.forall_mem_cons]
    simp only [List.all_eq_true, List.contains_iff_mem, mem_postings_iff]

theorem nodup_candidates {index : TrigramIndex} {query : String} {ids : List Nat}
    (h : index.candidates query = some ids) : ids.Nodup := by
  rw [candidates] at h
  split at h
  · simp at h
  · rw [← Option.some.inj h]
    exact (nodup_postings index _).filter _

/-- No text that contains the query is filtered out. -/
theorem mem_candidates_of_foldedInfix {docs : List (Nat × String)} {query text : String}
    {ids : List Nat} {id : Nat} (h : (ofList docs).candidates query = some ids)
    (hdoc : (id, text) ∈ docs)
    (hinside : foldedInfix (Text.encode query) (Text.encode text) = true) : id ∈ ids :=
  (mem_candidates_iff h id).mpr fun _ ht => ⟨text, hdoc, mem_trigrams_of_foldedInfix hinside ht⟩

end TrigramIndex

end JavaAtlas.Fuzzy
