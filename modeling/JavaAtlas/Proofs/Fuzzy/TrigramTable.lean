import JavaAtlas.Proofs.Fuzzy.SortedWords
import JavaAtlas.Proofs.Fuzzy.Trigram
import Mathlib.Data.List.Dedup

/-!
# The trigram table is exact

A table that is being built is laid out from blocks, one for each trigram so far with the ids under
it. The pairs come in increasing order, so each one either belongs to the last block or begins a new
one. In the finished table the bounds of a block are those of its ids, as long as they fit a word,
so reading the ids of a trigram is never out of range and gives its block.
-/

namespace JavaAtlas.Fuzzy

set_option autoImplicit false

/-! ## Blocks -/

/-- A trigram with the ids under it. -/
structure Block where
  key : UInt32
  ids : List UInt32

namespace Block

def pairs (b : Block) : List UInt64 := b.ids.map (packPair b.key)

def allIds (blocks : List Block) : List UInt32 := blocks.flatMap ids

/-- Where the ids of each block begin, and last where those of the last one end. -/
def bounds (blocks : List Block) : List Nat :=
  (List.range (blocks.length + 1)).map fun i => (allIds (blocks.take i)).length

variable {blocks done : List Block} {b : Block} {i : Nat}

theorem getElem?_bounds (h : i ≤ blocks.length) :
    (bounds blocks)[i]? = some (allIds (blocks.take i)).length := by
  rw [bounds, List.getElem?_map, List.getElem?_range (Nat.lt_succ_of_le h), Option.map_some]

theorem bounds_concat (blocks : List Block) (b : Block) :
    bounds (blocks ++ [b]) = bounds blocks ++ [(allIds (blocks ++ [b])).length] := by
  rw [bounds, List.length_append, List.length_singleton, List.range_succ, List.map_append,
    List.map_singleton, List.take_of_length_le (by simp)]
  congr 1
  refine List.map_congr_left fun i hi => ?_
  rw [List.take_append_of_le_length (Nat.lt_succ_iff.mp (List.mem_range.mp hi))]

theorem allIds_concat (blocks : List Block) (b : Block) :
    allIds (blocks ++ [b]) = allIds blocks ++ b.ids := by
  rw [allIds, List.flatMap_append, List.flatMap_singleton, allIds]

theorem length_flatMap_pairs (blocks : List Block) :
    (blocks.flatMap pairs).length = (allIds blocks).length := by
  simp only [allIds, List.length_flatMap, pairs, List.length_map]

/-- Between its bounds stand the ids of a block. -/
theorem extract_allIds (hb : blocks[i]? = some b) :
    (allIds blocks).extract (allIds (blocks.take i)).length (allIds (blocks.take (i + 1))).length =
      b.ids := by
  obtain ⟨hi, rfl⟩ := List.getElem?_eq_some_iff.mp hb
  have hsplit : allIds blocks =
      allIds (blocks.take i) ++ (blocks[i].ids ++ allIds (blocks.drop (i + 1))) := by
    conv_lhs => rw [← List.take_append_drop i blocks, List.drop_eq_getElem_cons hi]
    rw [allIds, List.flatMap_append, List.flatMap_cons, allIds, allIds]
  have hnext : (allIds (blocks.take (i + 1))).length =
      (allIds (blocks.take i)).length + blocks[i].ids.length := by
    rw [List.take_add_one, List.getElem?_eq_getElem hi, Option.toList_some, allIds_concat,
      List.length_append]
  rw [hsplit, hnext, List.extract_eq_take_drop, List.drop_left, Nat.add_sub_cancel_left,
    List.take_left]

theorem length_allIds_take_le (blocks : List Block) (i : Nat) :
    (allIds (blocks.take i)).length ≤ (allIds blocks).length := by
  conv_rhs => rw [← List.take_append_drop i blocks, allIds, List.flatMap_append, List.length_append]
  exact Nat.le_add_right _ _

end Block

open Block

/-- The blocks hold the pairs, each trigram in one block. -/
structure Splits (blocks : List Block) (pairs : List UInt64) : Prop where
  pairs : blocks.flatMap Block.pairs = pairs
  keys : blocks.Pairwise fun a b => a.key < b.key
  nonempty : ∀ b ∈ blocks, b.ids ≠ []

namespace Splits

variable {blocks done : List Block} {last : Block} {pairs : List UInt64} {p : UInt64}

/-- A pair of the last trigram joins the last block. -/
theorem extend (h : Splits (done ++ [last]) pairs) (hkey : last.key = trigramOf p) :
    Splits (done ++ [{ last with ids := last.ids ++ [idOf p] }]) (pairs ++ [p]) where
  pairs := by
    rw [← h.pairs, List.flatMap_append, List.flatMap_append, List.flatMap_singleton,
      List.flatMap_singleton, Block.pairs, List.map_append, List.map_singleton, hkey,
      packPair_parts, List.append_assoc, Block.pairs, hkey]
  keys := by
    obtain ⟨hdone, -, hlast⟩ := List.pairwise_append.mp h.keys
    refine List.pairwise_append.mpr ⟨hdone, List.pairwise_singleton _ _, fun a ha b hb => ?_⟩
    rw [List.mem_singleton.mp hb]
    exact hlast a ha last (List.mem_singleton_self _)
  nonempty b hb := by
    rcases List.mem_append.mp hb with hb | hb
    · exact h.nonempty b (List.mem_append_left _ hb)
    · rw [List.mem_singleton.mp hb]
      exact List.append_ne_nil_of_right_ne_nil _ (List.cons_ne_nil _ _)

/-- Larger pairs have no smaller trigram. -/
theorem key_le (h : Splits blocks pairs) (hlt : ∀ q ∈ pairs, q < p) {b : Block} (hb : b ∈ blocks) :
    b.key ≤ trigramOf p := by
  obtain ⟨id, hid⟩ := List.exists_mem_of_ne_nil _ (h.nonempty b hb)
  have hmem : packPair b.key id ∈ pairs := by
    rw [← h.pairs]
    exact List.mem_flatMap.mpr ⟨b, hb, List.mem_map_of_mem hid⟩
  have hless := hlt _ hmem
  rw [← packPair_parts p, packPair_lt_packPair] at hless
  rcases hless with hless | ⟨heq, -⟩
  · exact UInt32.le_of_lt hless
  · exact heq ▸ UInt32.le_refl _

/-- A pair of another trigram than the last one begins a new block. -/
theorem begin (h : Splits blocks pairs) (hlt : ∀ q ∈ pairs, q < p)
    (hkey : (blocks.map key).getLast? ≠ some (trigramOf p)) :
    Splits (blocks ++ [⟨trigramOf p, [idOf p]⟩]) (pairs ++ [p]) where
  pairs := by
    rw [← h.pairs, List.flatMap_append, List.flatMap_singleton, Block.pairs, List.map_singleton,
      packPair_parts]
  keys := by
    refine List.pairwise_append.mpr ⟨h.keys, List.pairwise_singleton _ _, fun a ha b hb => ?_⟩
    rw [List.mem_singleton.mp hb]
    -- no key is larger than the new one, and the last one, the largest of them, is another one
    obtain ⟨done, last, rfl⟩ :=
      (List.eq_nil_or_concat' blocks).resolve_left (List.ne_nil_of_mem ha)
    have hlast : last.key < trigramOf p := by
      have hle := h.key_le hlt (List.mem_append_right done (List.mem_singleton_self last))
      refine UInt32.lt_of_le_of_ne hle fun heq => ?_
      rw [List.map_append, List.map_singleton, List.getLast?_concat, heq] at hkey
      exact hkey rfl
    rcases List.mem_append.mp ha with ha | ha
    · exact UInt32.lt_trans
        ((List.pairwise_append.mp h.keys).2.2 a ha last List.mem_cons_self) hlast
    · rwa [List.mem_singleton.mp ha]
  nonempty b hb := by
    rcases List.mem_append.mp hb with hb | hb
    · exact h.nonempty b hb
    · rw [List.mem_singleton.mp hb]
      exact List.cons_ne_nil _ _

end Splits

namespace TrigramTable

/-! ## Building -/

/-- The arrays are those of the blocks, with the bounds of the first ones noted so far. -/
structure Laid (table : TrigramTable) (blocks noted : List Block) : Prop where
  keys : table.keys.toList = blocks.map key
  offsets : table.offsets.toList = (bounds noted).map Nat.toUInt32
  ids : table.ids.toList = allIds blocks

section Laid

variable {table : TrigramTable} {blocks done : List Block} {last : Block} {t : UInt32}

theorem Laid.back? (h : table.Laid blocks blocks.dropLast) :
    table.keys.back? = (blocks.map key).getLast? := by
  rw [← h.keys, Array.getLast?_toList]

/-- The place where the next ids go is where the ids of all blocks end. -/
theorem Laid.noteEnd (h : table.Laid (done ++ [last]) done) :
    (table.offsets.push table.ids.size.toUInt32).toList =
      (bounds (done ++ [last])).map Nat.toUInt32 := by
  rw [Array.toList_push, h.offsets, bounds_concat, List.map_append, List.map_singleton, ← h.ids,
    Array.length_toList]

theorem Laid.isEmpty_iff {noted : List Block} (h : table.Laid blocks noted) :
    table.keys.isEmpty = true ↔ blocks = [] := by
  rw [Array.isEmpty_iff, ← Array.toList_eq_nil_iff, h.keys, List.map_eq_nil_iff]

/-- What is noted once a new trigram begins or the table is finished: all ends of the blocks. -/
theorem Laid.noted (h : table.Laid blocks blocks.dropLast) :
    (if table.keys.isEmpty then table.offsets
      else table.offsets.push table.ids.size.toUInt32).toList =
      (bounds blocks).map Nat.toUInt32 := by
  rcases List.eq_nil_or_concat' blocks with rfl | ⟨done, last, rfl⟩
  · rw [if_pos (h.isEmpty_iff.mpr rfl)]
    exact h.offsets
  · have hsome : ¬table.keys.isEmpty = true := fun hempty =>
      List.append_ne_nil_of_right_ne_nil done (List.cons_ne_nil last []) (h.isEmpty_iff.mp hempty)
    rw [List.dropLast_concat] at h
    rw [if_neg hsome]
    exact h.noteEnd

theorem Laid.finish (h : table.Laid blocks blocks.dropLast) : table.finish.Laid blocks blocks := by
  have hnoted := h.noted
  rw [TrigramTable.finish]
  split
  next hempty =>
    rw [if_pos hempty] at hnoted
    exact ⟨h.keys, hnoted, h.ids⟩
  next hsome =>
    rw [if_neg hsome] at hnoted
    exact ⟨h.keys, hnoted, h.ids⟩

theorem Laid.beginKey (h : table.Laid blocks blocks.dropLast) (hkey : table.keys.back? ≠ some t) :
    (table.beginKey t).Laid (blocks ++ [⟨t, []⟩]) blocks := by
  rw [TrigramTable.beginKey, if_neg hkey]
  refine ⟨?_, h.noted, ?_⟩
  · rw [Array.toList_push, h.keys, List.map_append, List.map_singleton]
  · rw [allIds_concat, List.append_nil]
    exact h.ids

theorem Laid.pushId {noted : List Block} (h : table.Laid (done ++ [last]) noted) (id : UInt32) :
    Laid { table with ids := table.ids.push id } (done ++ [{ last with ids := last.ids ++ [id] }])
      noted where
  keys := by rw [h.keys, List.map_append, List.map_append, List.map_singleton, List.map_singleton]
  offsets := h.offsets
  ids := by
    rw [Array.toList_push, h.ids, allIds_concat, allIds_concat, List.append_assoc]

/-- A larger pair keeps the table laid out from blocks that hold all pairs so far. -/
theorem exists_blocks_pushPair {pairs : List UInt64} {p : UInt64}
    (hlaid : table.Laid blocks blocks.dropLast) (hsplits : Splits blocks pairs)
    (hlt : ∀ q ∈ pairs, q < p) :
    ∃ blocks', (table.pushPair p).Laid blocks' blocks'.dropLast ∧
      Splits blocks' (pairs ++ [p]) := by
  rw [pushPair]
  by_cases hkey : table.keys.back? = some (trigramOf p)
  · have hblocks : blocks ≠ [] := by
      rintro rfl
      rw [hlaid.back?] at hkey
      cases hkey
    obtain ⟨done, last, rfl⟩ := (List.eq_nil_or_concat' blocks).resolve_left hblocks
    have hsame : last.key = trigramOf p := by
      rw [hlaid.back?, List.map_append, List.map_singleton, List.getLast?_concat] at hkey
      exact Option.some.inj hkey
    rw [TrigramTable.beginKey, if_pos hkey]
    refine ⟨_, ?_, hsplits.extend hsame⟩
    rw [List.dropLast_concat] at hlaid ⊢
    exact hlaid.pushId (idOf p)
  · refine ⟨_, ?_, hsplits.begin hlt (hlaid.back? ▸ hkey)⟩
    rw [List.dropLast_concat]
    exact (hlaid.beginKey hkey).pushId (idOf p)

theorem exists_blocks_foldl {seen pairs : List UInt64} (hlaid : table.Laid blocks blocks.dropLast)
    (hsplits : Splits blocks seen) (hsorted : (seen ++ pairs).Pairwise (· < ·)) :
    ∃ blocks', (pairs.foldl pushPair table).Laid blocks' blocks'.dropLast ∧
      Splits blocks' (seen ++ pairs) := by
  induction pairs generalizing table blocks seen with
  | nil => exact ⟨blocks, hlaid, (List.append_nil seen).symm ▸ hsplits⟩
  | cons p pairs ih =>
    have hlt : ∀ q ∈ seen, q < p := fun q hq =>
      (List.pairwise_append.mp hsorted).2.2 q hq p List.mem_cons_self
    obtain ⟨blocks', hlaid', hsplits'⟩ := exists_blocks_pushPair hlaid hsplits hlt
    rw [List.append_cons] at hsorted ⊢
    exact ih hlaid' hsplits' hsorted

end Laid

theorem exists_blocks_ofPairs (pairs : List UInt64) :
    ∃ blocks, (ofPairs pairs).Laid blocks blocks ∧ Splits blocks (sortedUnique pairs) := by
  have hlaid : Laid { offsets := #[0] } [] [] := ⟨rfl, rfl, rfl⟩
  have hsplits : Splits [] [] := ⟨rfl, .nil, List.forall_mem_nil _⟩
  obtain ⟨blocks, hlaid, hsplits⟩ :=
    exists_blocks_foldl hlaid hsplits (pairwise_sortedUnique pairs)
  exact ⟨blocks, hlaid.finish, hsplits⟩

/-! ## Postings -/

section Postings

variable {table : TrigramTable} {blocks : List Block} {pairs : List UInt64} {b : Block} {i : Nat}

theorem Laid.increasing (h : table.Laid blocks blocks) (hsplits : Splits blocks pairs) :
    table.keys.toList.Pairwise (· < ·) := by
  rw [h.keys, List.pairwise_map]
  exact hsplits.keys

theorem Laid.key? (h : table.Laid blocks blocks) : table.keys[i]? = (blocks[i]?).map key := by
  rw [← Array.getElem?_toList, h.keys, List.getElem?_map]

/-- As long as they fit a word, the offsets of a block send the reader to its ids. -/
theorem Laid.slice? (h : table.Laid blocks blocks) (hfew : (allIds blocks).length < 4294967296)
    (hb : blocks[i]? = some b) :
    ∃ start stop xs, table.offsets[i]? = some start ∧ table.offsets[i + 1]? = some stop ∧
      Fuzzy.slice? table.ids start stop = some xs ∧ xs.toList = b.ids := by
  have hi : i < blocks.length := (List.getElem?_eq_some_iff.mp hb).1
  have hoffset {j : Nat} (hj : j ≤ blocks.length) :
      table.offsets[j]? = some (allIds (blocks.take j)).length.toUInt32 := by
    rw [← Array.getElem?_toList, h.offsets, List.getElem?_map, getElem?_bounds hj, Option.map_some]
  have hfits (j : Nat) : (allIds (blocks.take j)).length.toUInt32.toNat =
      (allIds (blocks.take j)).length := by
    have hle := length_allIds_take_le blocks j
    rw [Nat.toUInt32, UInt32.toNat_ofNat', Nat.mod_eq_of_lt (by omega)]
  have hsize : table.ids.size = (allIds blocks).length := by rw [← h.ids, Array.length_toList]
  have hordered : (allIds (blocks.take i)).length.toUInt32 ≤
      (allIds (blocks.take (i + 1))).length.toUInt32 := by
    rw [UInt32.le_iff_toNat_le, hfits, hfits]
    have hle := length_allIds_take_le (blocks.take (i + 1)) i
    rwa [List.take_take, Nat.min_eq_left (Nat.le_succ i)] at hle
  have hinside : (allIds (blocks.take (i + 1))).length.toUInt32.toNat ≤ table.ids.size := by
    rw [hfits, hsize]
    exact length_allIds_take_le blocks (i + 1)
  refine ⟨_, _, _, hoffset (Nat.le_of_lt hi), hoffset hi, if_pos ⟨hordered, hinside⟩, ?_⟩
  rw [Array.toList_extract, h.ids, hfits, hfits, extract_allIds hb]

theorem Splits.increasing_ids (hsplits : Splits blocks pairs) (hsorted : pairs.Pairwise (· < ·))
    (hb : b ∈ blocks) : b.ids.Pairwise (· < ·) := by
  rw [← hsplits.pairs, List.pairwise_flatMap] at hsorted
  have hpairs := hsorted.1 b hb
  rw [Block.pairs, List.pairwise_map] at hpairs
  refine hpairs.imp fun hlt => ?_
  exact (packPair_lt_packPair.mp hlt).resolve_left (UInt32.lt_irrefl _) |>.2

/-- The ids under a trigram are those paired with it. -/
theorem Splits.mem_pairs_iff (hsplits : Splits blocks pairs) (hb : b ∈ blocks) (id : UInt32) :
    packPair b.key id ∈ pairs ↔ id ∈ b.ids := by
  rw [← hsplits.pairs, List.mem_flatMap]
  constructor
  · rintro ⟨b', hb', hmem⟩
    obtain ⟨id', hid', heq⟩ := List.mem_map.mp hmem
    obtain ⟨hkey, rfl⟩ := packPair_inj.mp heq
    have hsame : b' = b := by
      by_contra hne
      have hapart : blocks.Pairwise fun a b => a.key ≠ b.key :=
        hsplits.keys.imp fun h => UInt32.ne_of_lt h
      have : Std.Symm fun a b : Block => a.key ≠ b.key := ⟨fun _ _ h => Ne.symm h⟩
      exact hapart.forall hb' hb hne hkey
    exact hsame ▸ hid'
  · exact fun hid => ⟨b, hb, List.mem_map_of_mem hid⟩

/-- The postings are in range, and the ids paired with the trigram. -/
theorem postings?_ofPairs {pairs : List UInt64} (hfew : (sortedUnique pairs).length < 4294967296)
    (t : UInt32) : ∃ xs, (ofPairs pairs).postings? t = some xs ∧ xs.toList.Pairwise (· < ·) ∧
      ∀ id, id ∈ xs ↔ packPair t id ∈ pairs := by
  obtain ⟨blocks, hlaid, hsplits⟩ := exists_blocks_ofPairs pairs
  have hincreasing := hlaid.increasing hsplits
  rw [← hsplits.pairs, length_flatMap_pairs] at hfew
  rw [postings?]
  cases hposition : position? (ofPairs pairs).keys t with
  | none =>
    refine ⟨#[], rfl, .nil, fun id => iff_of_false (Array.not_mem_empty id) fun hmem => ?_⟩
    rw [← mem_sortedUnique, ← hsplits.pairs] at hmem
    obtain ⟨b, hb, hmem⟩ := List.mem_flatMap.mp hmem
    obtain ⟨id', -, heq⟩ := List.mem_map.mp hmem
    have hkey : t ∈ (ofPairs pairs).keys := by
      rw [← Array.mem_toList_iff, hlaid.keys, ← (packPair_inj.mp heq).1]
      exact List.mem_map_of_mem hb
    rw [← isSome_position?_iff hincreasing, hposition] at hkey
    cases hkey
  | some i =>
    have hi := (position?_eq_some_iff hincreasing).mp hposition
    rw [hlaid.key?] at hi
    obtain ⟨b, hb, rfl⟩ := Option.map_eq_some_iff.mp hi
    obtain ⟨start, stop, xs, hstart, hstop, hslice, hxs⟩ := hlaid.slice? hfew hb
    have hmem := List.mem_of_getElem? hb
    refine ⟨xs, ?_, ?_, fun id => ?_⟩
    · simp only [hstart, hstop, Option.bind_some, hslice]
    · rw [hxs]
      exact Splits.increasing_ids hsplits (pairwise_sortedUnique pairs) hmem
    · rw [← Array.mem_toList_iff, hxs, ← Splits.mem_pairs_iff hsplits hmem, mem_sortedUnique]

end Postings

/-! ## Candidates -/

theorem common_spec {lists : List (Array UInt32)} (hne : lists ≠ [])
    (hsorted : ∀ xs ∈ lists, xs.toList.Pairwise (· < ·)) :
    ∃ ids, common lists = some ids ∧ ids.Pairwise (· < ·) ∧
      ∀ id, id ∈ ids ↔ ∀ xs ∈ lists, id ∈ xs := by
  rw [common]
  split
  next hempty =>
    obtain ⟨xs, hxs, hnone⟩ := List.any_eq_true.mp hempty
    refine ⟨[], rfl, .nil, fun id => iff_of_false List.not_mem_nil fun hall => ?_⟩
    have hmem := hall xs hxs
    rw [Array.isEmpty_iff.mp hnone] at hmem
    exact Array.not_mem_empty id hmem
  next =>
    have hperm := List.mergeSort_perm lists fun a b => a.size ≤ b.size
    cases hlists : lists.mergeSort fun a b => a.size ≤ b.size with
    | nil =>
      rw [hlists] at hperm
      exact absurd hperm.nil_eq.symm hne
    | cons base rest =>
      rw [hlists] at hperm
      have hall (xs : Array UInt32) (hxs : xs ∈ base :: rest) : xs.toList.Pairwise (· < ·) :=
        hsorted xs (hperm.mem_iff.mp hxs)
      refine ⟨_, rfl, (hall base List.mem_cons_self).filter _, fun id => ?_⟩
      simp only [← hperm.mem_iff]
      rw [List.mem_filter, Array.mem_toList_iff, List.all_eq_true, List.forall_mem_cons]
      refine and_congr_right fun _ => forall_congr' fun xs => forall_congr' fun hxs => ?_
      exact isSome_position?_iff (hall xs (List.mem_cons_of_mem _ hxs))

theorem candidates?_spec (table : TrigramTable) (query : String)
    (hpostings : ∀ t, ∃ xs, table.postings? t = some xs ∧ xs.toList.Pairwise (· < ·)) :
    (table.candidates? query = some none ↔ sortedTrigrams query = []) ∧
      (sortedTrigrams query ≠ [] → ∃ ids, table.candidates? query = some (some ids) ∧
        ids.Pairwise (· < ·) ∧ ∀ id, id ∈ ids ↔
          ∀ t, HasTrigram query t → ∃ xs, table.postings? t = some xs ∧ id ∈ xs) := by
  choose found hfound hsorted using hpostings
  have heq : table.postings? = fun t => pure (found t) := funext hfound
  rw [candidates?]
  split
  next hnone => exact ⟨iff_of_true rfl hnone, fun hsome => absurd hnone hsome⟩
  next trigrams hsome =>
    have hlists : (sortedTrigrams query).map found ≠ [] := fun h => hsome (List.map_eq_nil_iff.mp h)
    obtain ⟨ids, hcommon, hincreasing, hmem⟩ := common_spec hlists fun xs hxs => by
      obtain ⟨t, -, rfl⟩ := List.mem_map.mp hxs
      exact hsorted t
    have hanswer : ((sortedTrigrams query).mapM table.postings?).map common = some (some ids) := by
      rw [heq, List.mapM_pure, ← hcommon]
      rfl
    refine ⟨iff_of_false (fun h => ?_) hsome, fun _ => ⟨ids, hanswer, hincreasing, fun id => ?_⟩⟩
    · rw [hanswer] at h
      cases h
    · rw [hmem, List.forall_mem_map]
      simp only [mem_sortedTrigrams, hfound, Option.some.injEq, exists_eq_left']

/-! ## Texts -/

/-- One of the texts under the id has the trigram. -/
def Contains (docs : List (UInt32 × String)) (t id : UInt32) : Prop :=
  ∃ text, (id, text) ∈ docs ∧ HasTrigram text t

/-- Every trigram of a text with the id of the text, as often as it occurs. -/
def occurrences (docs : List (UInt32 × String)) : List (UInt32 × UInt32) :=
  docs.flatMap fun doc => (packedTrigrams (Text.encode doc.2)).map (·, doc.1)

/-- The pairs of all texts as they are collected. -/
def collected (docs : List (UInt32 × String)) : List UInt64 :=
  docs.flatMap fun doc => (sortedTrigrams doc.2).map (packPair · doc.1)

theorem pairs_foldl (docs : List (UInt32 × String)) (builder : TrigramTableBuilder) :
    (docs.foldl (fun builder doc => builder.insert doc.1 doc.2) builder).pairs.toList =
      builder.pairs.toList ++ collected docs := by
  induction docs generalizing builder with
  | nil => exact (List.append_nil _).symm
  | cons doc docs ih =>
    rw [List.foldl_cons, ih, TrigramTableBuilder.insert, Array.toList_appendList, collected,
      collected, List.flatMap_cons, List.append_assoc]

variable (docs : List (UInt32 × String))

theorem ofList_eq_ofPairs : ofList docs = ofPairs (collected docs) := by
  rw [ofList, TrigramTableBuilder.build, pairs_foldl]
  rfl

theorem packPair_mem_collected_iff {t id : UInt32} :
    packPair t id ∈ collected docs ↔ Contains docs t id := by
  rw [collected, List.mem_flatMap]
  constructor
  · rintro ⟨⟨id', text⟩, hdoc, hmem⟩
    obtain ⟨t', ht', heq⟩ := List.mem_map.mp hmem
    obtain ⟨rfl, rfl⟩ := packPair_inj.mp heq
    exact ⟨text, hdoc, mem_sortedTrigrams.mp ht'⟩
  · rintro ⟨text, hdoc, ht⟩
    exact ⟨(id, text), hdoc, List.mem_map.mpr ⟨t, mem_sortedTrigrams.mpr ht, rfl⟩⟩

/-- The table holds each pair that occurs once. -/
theorem length_collected_le :
    (sortedUnique (collected docs)).length ≤ (occurrences docs).dedup.length := by
  rw [← List.length_map (fun e : UInt32 × UInt32 => packPair e.1 e.2)]
  refine (nodup_sortedUnique _).length_le_of_subset fun p hp => ?_
  rw [mem_sortedUnique] at hp
  obtain ⟨doc, hdoc, hp⟩ := List.mem_flatMap.mp hp
  obtain ⟨t, ht, rfl⟩ := List.mem_map.mp hp
  refine List.mem_map.mpr ⟨(t, doc.1), List.mem_dedup.mpr ?_, rfl⟩
  refine List.mem_flatMap.mpr ⟨doc, hdoc, List.mem_map_of_mem ?_⟩
  exact mem_packedTrigrams_iff.mpr (mem_sortedTrigrams.mp ht)

variable {docs}

theorem postings?_ofList (hfew : (occurrences docs).dedup.length < 4294967296) (t : UInt32) :
    ∃ xs, (ofList docs).postings? t = some xs ∧ xs.toList.Pairwise (· < ·) ∧
      ∀ id, id ∈ xs ↔ Contains docs t id := by
  obtain ⟨xs, hfound, hsorted, hmem⟩ :=
    postings?_ofPairs (Nat.lt_of_le_of_lt (length_collected_le docs) hfew) t
  exact ⟨xs, ofList_eq_ofPairs docs ▸ hfound, hsorted,
    fun id => (hmem id).trans (packPair_mem_collected_iff docs)⟩

theorem mem_postings?_iff (hfew : (occurrences docs).dedup.length < 4294967296) (t id : UInt32) :
    (∃ xs, (ofList docs).postings? t = some xs ∧ id ∈ xs) ↔ Contains docs t id := by
  obtain ⟨xs, hfound, -, hxs⟩ := postings?_ofList hfew t
  rw [← hxs, hfound]
  simp only [Option.some.injEq, exists_eq_left']

theorem sortedTrigrams_ne_nil {query : String} (h : 3 ≤ (Text.encode query).length) :
    sortedTrigrams query ≠ [] := fun hnone => by
  have := sortedTrigrams_eq_nil_iff.mp hnone
  omega

theorem candidates?_ofList (hfew : (occurrences docs).dedup.length < 4294967296) (query : String) :
    ((ofList docs).candidates? query = some none ↔ (Text.encode query).length < 3) ∧
      (3 ≤ (Text.encode query).length → ∃ ids, (ofList docs).candidates? query = some (some ids) ∧
        ids.Pairwise (· < ·) ∧ ∀ id, id ∈ ids ↔ ∀ t, HasTrigram query t → Contains docs t id) := by
  obtain ⟨hnone, hsome⟩ := (ofList docs).candidates?_spec query fun t => by
    obtain ⟨xs, hfound, hsorted, -⟩ := postings?_ofList hfew t
    exact ⟨xs, hfound, hsorted⟩
  rw [sortedTrigrams_eq_nil_iff] at hnone
  simp only [mem_postings?_iff hfew] at hsome
  exact ⟨hnone, fun hlength => hsome (sortedTrigrams_ne_nil hlength)⟩

/-- With room for all pairs no read is out of range: the postings of a trigram are the ids of the
texts that have it, the candidates of a query the ids under all its trigrams, in increasing order,
every id of a text that contains the query among them. -/
theorem exact_ofList (hfew : (occurrences docs).dedup.length < 4294967296) :
    let table := ofList docs
    (∀ t, ∃ xs, table.postings? t = some xs ∧ xs.toList.Pairwise (· < ·) ∧
      ∀ id, id ∈ xs ↔ Contains docs t id) ∧
      ∀ query, (table.candidates? query = some none ↔ (Text.encode query).length < 3) ∧
        (3 ≤ (Text.encode query).length → ∃ ids, table.candidates? query = some (some ids) ∧
          ids.Pairwise (· < ·) ∧
          (∀ id, id ∈ ids ↔
            ∀ t, HasTrigram query t → ∃ xs, table.postings? t = some xs ∧ id ∈ xs) ∧
          ∀ id text, (id, text) ∈ docs →
            (Text.encode query).map fold <:+: (Text.encode text).map fold → id ∈ ids) := by
  intro table
  refine ⟨postings?_ofList hfew, fun query => ?_⟩
  obtain ⟨hnone, hsome⟩ := candidates?_ofList hfew query
  refine ⟨hnone, fun hlength => ?_⟩
  obtain ⟨ids, hids, hsorted, hmem⟩ := hsome hlength
  refine ⟨ids, hids, hsorted, fun id => ?_, fun id text hdoc hinside => ?_⟩
  · simp only [hmem, table, mem_postings?_iff hfew]
  · exact (hmem id).mpr fun t ht => ⟨text, hdoc, ht.of_infix hinside⟩

/-- An id with two texts, and another one whose text differs in case. -/
theorem exact_ofList_shared :
    let docs : List (UInt32 × String) := [(2, "barfoo"), (1, "FooBar"), (2, "foo")]
    (occurrences docs).dedup.length < 4294967296 ∧ (ofList docs).candidates? "fo" = some none ∧
      ∃ ids, (ofList docs).candidates? "FOO" = some (some ids) ∧ ids.Pairwise (· < ·) ∧
        1 ∈ ids ∧ 2 ∈ ids := by
  intro docs
  have hfew : (occurrences docs).dedup.length < 4294967296 := by decide +kernel
  obtain ⟨-, hcandidates⟩ := exact_ofList hfew
  obtain ⟨ids, hids, hsorted, -, hinside⟩ := (hcandidates "FOO").2 (by decide)
  exact ⟨hfew, (hcandidates "fo").1.mpr (by decide), ids, hids, hsorted,
    hinside 1 "FooBar" (by decide) (by decide), hinside 2 "barfoo" (by decide) (by decide)⟩

/-! ## Sets of ids -/

/-- The texts as a set of ids by trigram takes them. -/
def plainDocs (docs : List (UInt32 × String)) : List (Nat × String) :=
  docs.map fun doc => (doc.1.toNat, doc.2)

theorem occurs_iff {t : UInt32} {n : Nat} : TrigramIndex.Occurs (plainDocs docs) t.toNat n ↔
    ∃ id, Contains docs t id ∧ id.toNat = n := by
  have htrigram (text : String) : t.toNat ∈ trigrams (Text.encode text) ↔ HasTrigram text t :=
    mem_packedTrigrams_iff_toNat.symm.trans mem_packedTrigrams_iff
  constructor
  · rintro ⟨text, hplain, ht⟩
    obtain ⟨doc, hdoc, heq⟩ := List.mem_map.mp hplain
    obtain ⟨hid, rfl⟩ := Prod.mk.inj heq
    exact ⟨doc.1, ⟨doc.2, hdoc, (htrigram _).mp ht⟩, hid⟩
  · rintro ⟨id, ⟨text, hdoc, ht⟩, rfl⟩
    exact ⟨text, List.mem_map.mpr ⟨(id, text), hdoc, rfl⟩, (htrigram text).mpr ht⟩

theorem increasing_postings (index : TrigramIndex) (t : Trigram) :
    (index.postings t).Pairwise fun a b => compare a b = .lt := by
  rw [TrigramIndex.postings, MultiMap.lookup]
  split
  · exact SortedMap.increasing_keys _
  · exact .nil

theorem increasing_candidates {index : TrigramIndex} {query : String} {ids : List Nat}
    (h : index.candidates query = some ids) : ids.Pairwise fun a b => compare a b = .lt := by
  rw [TrigramIndex.candidates] at h
  split at h
  · cases h
  · rw [← Option.some.inj h]
    exact (increasing_postings index _).filter _

theorem increasing_toNat {ids : List UInt32} (h : ids.Pairwise (· < ·)) :
    (ids.map UInt32.toNat).Pairwise fun a b => compare a b = .lt :=
  List.pairwise_map.mpr (h.imp fun hlt => Nat.compare_eq_lt.mpr (UInt32.lt_iff_toNat_lt.mp hlt))

/-- The table has the same postings as the sets of ids. -/
theorem postings?_eq_postings (hfew : (occurrences docs).dedup.length < 4294967296) (t : UInt32) :
    ((ofList docs).postings? t).map (fun xs => xs.toList.map UInt32.toNat) =
      some ((TrigramIndex.ofList (plainDocs docs)).postings t.toNat) := by
  obtain ⟨xs, hfound, hsorted, hmem⟩ := postings?_ofList hfew t
  rw [hfound, Option.map_some, Option.some.injEq]
  refine eq_of_increasing compare (increasing_toNat hsorted) (increasing_postings _ _) fun n => ?_
  rw [TrigramIndex.mem_postings_iff, occurs_iff, List.mem_map]
  simp only [Array.mem_toList_iff, hmem]

/-- An id has every trigram of the query in the one form exactly if it has in the other. -/
theorem forall_occurs_iff {query : String} (hlength : 3 ≤ (Text.encode query).length) {n : Nat} :
    (∀ t ∈ trigrams (Text.encode query), TrigramIndex.Occurs (plainDocs docs) t n) ↔
      ∃ id, (∀ t, HasTrigram query t → Contains docs t id) ∧ id.toNat = n := by
  rw [← map_toNat_packedTrigrams, List.forall_mem_map]
  simp only [occurs_iff, mem_packedTrigrams_iff]
  constructor
  · intro hall
    obtain ⟨t, ht⟩ := List.exists_mem_of_ne_nil _ (sortedTrigrams_ne_nil hlength)
    obtain ⟨id, -, hid⟩ := hall t (mem_sortedTrigrams.mp ht)
    refine ⟨id, fun t' ht' => ?_, hid⟩
    obtain ⟨id', hcontains, hid'⟩ := hall t' ht'
    rwa [← UInt32.toNat_inj.mp (hid'.trans hid.symm)]
  · rintro ⟨id, hall, hid⟩ t ht
    exact ⟨id, hall t ht, hid⟩

theorem candidates?_eq_candidates (hfew : (occurrences docs).dedup.length < 4294967296)
    (query : String) :
    ((ofList docs).candidates? query).map (Option.map fun ids => ids.map UInt32.toNat) =
      some ((TrigramIndex.ofList (plainDocs docs)).candidates query) := by
  obtain ⟨hnone, hsome⟩ := candidates?_ofList hfew query
  cases hplain : (TrigramIndex.ofList (plainDocs docs)).candidates query with
  | none =>
    rw [hnone.mpr ((TrigramIndex.candidates_eq_none_iff _ query).mp hplain)]
    rfl
  | some found =>
    have hlength : 3 ≤ (Text.encode query).length := by
      rw [← Nat.not_lt, ← TrigramIndex.candidates_eq_none_iff (.ofList (plainDocs docs)), hplain]
      exact Option.some_ne_none found
    obtain ⟨ids, hids, hsorted, hmem⟩ := hsome hlength
    rw [hids, Option.map_some, Option.map_some, Option.some.injEq, Option.some.injEq]
    refine eq_of_increasing compare (increasing_toNat hsorted)
      (increasing_candidates hplain) fun n => ?_
    rw [TrigramIndex.mem_candidates_iff hplain, forall_occurs_iff hlength, List.mem_map]
    simp only [hmem]

end TrigramTable

end JavaAtlas.Fuzzy
