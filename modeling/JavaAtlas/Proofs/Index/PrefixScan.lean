import JavaAtlas.Index.PrefixScan
import JavaAtlas.Proofs.Index.Names
import JavaAtlas.Proofs.Index.Search
import JavaAtlas.Proofs.Text.ByteOrder

/-!
# What a scan by prefix yields

A scan goes through the names in order and stops at the first one that does not begin with its text.
As such names stand together, nothing is missed. Calls of the scan and changes of the index may
alternate in any way: the answers are those of the index the scan was started on.
-/

namespace JavaAtlas

set_option autoImplicit false

open Std (TransOrd TransCmp OrientedCmp ReflCmp LawfulEqOrd)

namespace PrefixScan

/-- What a scan has still to give out. -/
def left (scan : PrefixScan) : List Symbol :=
  scan.pending ++
    if scan.done then []
    else (scan.remaining.takeWhile (Text.startsWith scan.start)).flatMap scan.snapshot.symbolsByFqn

/-! ## One call -/

def beyond (scan : PrefixScan) (fqn : String) : Bool :=
  match scan.cursor with
  | some cursor => compare cursor fqn == .lt
  | none => (compare scan.start fqn).isLE

theorem remaining_eq_filter (scan : PrefixScan) :
    scan.remaining = (SortedSet.toList scan.snapshot.fqnOrder).filter scan.beyond := rfl

theorem beyond_of_lt {scan : PrefixScan} {a b : String} (ha : scan.beyond a = true)
    (hlt : compare a b = .lt) : scan.beyond b = true := by
  rw [beyond] at ha ⊢
  cases hcursor : scan.cursor with
  | some cursor =>
    simp only [hcursor, beq_iff_eq] at ha ⊢
    exact TransCmp.lt_trans ha hlt
  | none =>
    simp only [hcursor] at ha ⊢
    exact TransCmp.isLE_trans ha (congrArg Ordering.isLE hlt)

theorem increasing_remaining (scan : PrefixScan) :
    scan.remaining.Pairwise fun a b => compare a b = .lt :=
  (SortedMap.increasing_keys scan.snapshot.fqnOrder).filter _

/-- With the cursor on the next name only the names after it are left. -/
theorem remaining_visit {scan : PrefixScan} {fqn : String} {rest : List String}
    (h : scan.remaining = fqn :: rest) : { scan with cursor := some fqn }.remaining = rest := by
  have hsorted := scan.increasing_remaining
  rw [h, List.pairwise_cons] at hsorted
  have hfqn : scan.beyond fqn = true := by
    have hmem : fqn ∈ scan.remaining := h ▸ List.mem_cons_self
    exact (List.mem_filter.mp hmem).2
  have hafter : { scan with cursor := some fqn }.remaining =
      scan.remaining.filter fun b => compare fqn b == .lt := by
    rw [remaining_eq_filter scan, List.filter_filter]
    refine List.filter_congr fun b _ => ?_
    show (compare fqn b == .lt) = ((compare fqn b == .lt) && scan.beyond b)
    by_cases hlt : compare fqn b = .lt
    · rw [beyond_of_lt hfqn hlt, Bool.and_true]
    · simp [hlt]
  have hself : compare fqn fqn = .eq := ReflCmp.compare_self
  rw [hafter, h, List.filter_cons_of_neg (by rw [hself]; decide), List.filter_eq_self]
  exact fun b hb => by simp [hsorted.1 b hb]

/-- A call gives out the first of what is left, and leaves the rest. -/
structure Gives (scan : PrefixScan) (answer : Option Symbol × PrefixScan) : Prop where
  first : answer.1 = scan.left.head?
  rest : answer.2.left = scan.left.tail

theorem gives_none {scan : PrefixScan} (hpending : scan.pending = []) (hleft : scan.left = []) :
    scan.Gives (none, { scan with done := true }) := by
  refine ⟨by rw [hleft]; rfl, ?_⟩
  rw [hleft, left, hpending]
  rfl

theorem left_of_waiting {scan : PrefixScan} (hpending : scan.pending = [])
    (hdone : scan.done = false) :
    scan.left = (scan.remaining.takeWhile (Text.startsWith scan.start)).flatMap
      scan.snapshot.symbolsByFqn := by
  rw [left, hpending, hdone, List.nil_append, if_neg Bool.false_ne_true]

theorem left_of_pending (scan : PrefixScan) (symbols : List Symbol) :
    { scan with pending := symbols }.left = symbols ++ { scan with pending := [] }.left := rfl

/-- A name that begins with the text is visited: its symbols come first. -/
theorem left_visit {scan : PrefixScan} {fqn : String} {rest : List String}
    (hpending : scan.pending = []) (hdone : scan.done = false)
    (hnames : scan.remaining = fqn :: rest) (hstart : Text.startsWith scan.start fqn = true) :
    scan.left = { scan with cursor := some fqn, pending := scan.snapshot.symbolsByFqn fqn }.left := by
  have hlater : { scan with cursor := some fqn, pending := [] }.left =
      (rest.takeWhile (Text.startsWith scan.start)).flatMap scan.snapshot.symbolsByFqn := by
    rw [← remaining_visit hnames]
    exact left_of_waiting rfl hdone
  rw [left_of_pending { scan with cursor := some fqn }, hlater, left_of_waiting hpending hdone,
    hnames, List.takeWhile_cons_of_pos hstart, List.flatMap_cons]

theorem advance_gives {names : List String} {scan : PrefixScan} (hpending : scan.pending = [])
    (hdone : scan.done = false) (hnames : scan.remaining = names) :
    scan.Gives (scan.advance names) := by
  induction names generalizing scan with
  | nil => exact gives_none hpending (by rw [left_of_waiting hpending hdone, hnames]; rfl)
  | cons fqn rest ih =>
    rw [advance]
    by_cases hstart : Text.startsWith scan.start fqn = true
    · have hleft := left_visit hpending hdone hnames hstart
      rw [if_pos hstart]
      cases hsymbols : scan.snapshot.symbolsByFqn fqn with
      | nil =>
        -- no file uses the name any more: the scan goes on as if it had not been there
        have hvisited : scan.left = { scan with cursor := some fqn }.left := by
          rw [hleft, hsymbols, ← hpending]
        have hgives : { scan with cursor := some fqn }.Gives
            ({ scan with cursor := some fqn }.advance rest) := ih hpending hdone (remaining_visit hnames)
        exact ⟨hvisited ▸ hgives.first, hvisited ▸ hgives.rest⟩
      | cons symbol more =>
        rw [hsymbols, left_of_pending { scan with cursor := some fqn }, List.cons_append] at hleft
        exact ⟨by rw [hleft]; rfl, by rw [hleft]; rfl⟩
    · rw [if_neg hstart]
      refine gives_none hpending ?_
      rw [left_of_waiting hpending hdone, hnames, List.takeWhile_cons_of_neg hstart, List.flatMap_nil]

theorem next_gives (scan : PrefixScan) : scan.Gives scan.next := by
  rw [next]
  cases hpending : scan.pending with
  | cons symbol more =>
    have hleft : scan.left = symbol :: { scan with pending := more }.left := by
      rw [left, hpending]
      rfl
    exact ⟨by rw [hleft]; rfl, by rw [hleft]; rfl⟩
  | nil =>
    cases hdone : scan.done with
    | true =>
      have hleft : scan.left = [] := by
        rw [left, hpending, hdone]
        rfl
      exact ⟨by rw [hleft]; rfl, hleft.trans (by rw [hleft]; rfl)⟩
    | false => exact advance_gives hpending hdone rfl

/-! ## Many calls -/

theorem take_eq (n : Nat) (scan : PrefixScan) : (take n scan).1 = scan.left.take n := by
  induction n generalizing scan with
  | zero => rfl
  | succ n ih =>
    obtain ⟨hfirst, hrest⟩ := next_gives scan
    rw [take]
    cases hleft : scan.left with
    | nil =>
      rw [hleft] at hfirst
      split
      next => rfl
      next h => simp [h] at hfirst
    | cons symbol symbols =>
      rw [hleft] at hfirst hrest
      split
      next h => simp [h] at hfirst
      next symbol' scan' h =>
        rw [h] at hfirst hrest
        obtain rfl : symbol' = symbol := Option.some.inj hfirst
        show symbol' :: (take n scan').1 = _
        rw [ih scan', hrest, List.tail_cons, List.take_succ_cons]

end PrefixScan

/-- While a scan goes on: the index changes, or the scan is asked for the next symbol. -/
inductive ScanStep where
  | change (change : IndexChange)
  | next

namespace ScanStep

def calls (steps : List ScanStep) : Nat :=
  steps.countP fun
    | change _ => false
    | next => true

def run (s : Snapshot) (scan : PrefixScan) : List ScanStep → Snapshot × List (Option Symbol)
  | [] => (s, [])
  | change c :: steps => run (s.apply c) scan steps
  | next :: steps =>
    let (answer, scan) := scan.next
    let (s, answers) := run s scan steps
    (s, answer :: answers)

/-- The answers are what the scan had left when the steps began, and nothing from then on. -/
theorem answers_run (steps : List ScanStep) (s : Snapshot) (scan : PrefixScan) :
    (run s scan steps).2 = (List.range (calls steps)).map fun i => scan.left[i]? := by
  induction steps generalizing s scan with
  | nil => rfl
  | cons step steps ih =>
    cases step with
    | change c => exact ih (s.apply c) scan
    | next =>
      obtain ⟨hfirst, hrest⟩ := PrefixScan.next_gives scan
      have hcalls : calls (next :: steps) = calls steps + 1 := List.countP_cons_of_pos rfl
      show scan.next.1 :: (run s scan.next.2 steps).2 = _
      rw [ih, hcalls, List.range_succ_eq_map, List.map_cons, List.map_map, hfirst, hrest,
        List.head?_eq_getElem?]
      simp [Function.comp_def]

end ScanStep

namespace Snapshot

variable {s : Snapshot} (start : String)

def scanOrder : Path × Symbol → Path × Symbol → Ordering :=
  compareLex (compareOn fun p => Text.encode p.2.fqn) (compareOn refOf)

instance : TransCmp scanOrder := inferInstanceAs (TransCmp (compareLex _ _))

/-- The places of the symbols whose name begins with `start`, in order. -/
def placesFrom (s : Snapshot) (start : String) : List (Path × Symbol) :=
  (s.places.filter fun p => Text.startsWith start p.2.fqn).mergeSort fun a b => (scanOrder a b).isLE

theorem Exact.mem_fqnOrder_iff (h : s.Exact) (hnumbered : s.Numbered) (fqn : String) :
    fqn ∈ SortedSet.toList s.fqnOrder ↔ ∃ p ∈ s.places, p.2.fqn = fqn := by
  have hcontains : fqn ∈ SortedSet.toList s.fqnOrder ↔ s.fqnOrder.contains fqn = true := by
    rw [SortedSet.contains_iff_exists_mem]
    refine ⟨fun hmem => ⟨fqn, hmem, ReflCmp.compare_self⟩, ?_⟩
    rintro ⟨fqn', hmem, heq⟩
    rwa [LawfulEqOrd.eq_of_compare heq]
  rw [hcontains, h.fqnOrder, MultiMap.Represents.contains_iff h.byFqn]
  constructor
  · rintro ⟨ref, hrelated⟩
    have hmem := (h.byFqn.mem_iff fqn ref).mpr hrelated
    rw [h.lookup_eq_places hnumbered h.byFqn] at hmem
    obtain ⟨p, hp, -⟩ := List.mem_map.mp hmem
    exact ⟨p, (List.mem_filter.mp hp).1, beq_iff_eq.mp (List.mem_filter.mp hp).2⟩
  · rintro ⟨p, hp, rfl⟩
    refine ⟨refOf p, (h.byFqn.mem_iff p.2.fqn (refOf p)).mp ?_⟩
    rw [h.lookup_eq_places hnumbered h.byFqn]
    exact List.mem_map.mpr ⟨p, List.mem_filter.mpr ⟨hp, beq_self_eq_true _⟩, rfl⟩

/-- The names a fresh scan visits are all that begin with its text. -/
theorem takeWhile_remaining_scan :
    (s.scan start).remaining.takeWhile (Text.startsWith start) =
      (SortedSet.toList s.fqnOrder).filter (Text.startsWith start) := by
  have hstands : (s.scan start).remaining =
      (SortedSet.toList s.fqnOrder).filter fun fqn => (compare start fqn).isLE := rfl
  have hsorted : (s.scan start).remaining.Pairwise fun a b =>
      (compare start a).isLE = true ∧ compare a b = .lt := by
    refine (s.scan start).increasing_remaining.imp_of_mem fun {a b} ha _ hlt => ⟨?_, hlt⟩
    rw [hstands] at ha
    exact (List.mem_filter.mp ha).2
  have hblock : ∀ a b, ((compare start a).isLE = true ∧ compare a b = .lt) →
      Text.startsWith start b = true → Text.startsWith start a = true := fun a b h =>
    Text.startsWith_of_between h.1 (congrArg Ordering.isLE h.2)
  rw [SearchIndex.takeWhile_eq_filter hsorted hblock, hstands, List.filter_filter]
  refine List.filter_congr fun fqn _ => ?_
  by_cases hstart : Text.startsWith start fqn = true
  · rw [hstart, Text.isLE_of_startsWith hstart, Bool.and_true]
  · rw [Bool.eq_false_iff.mpr hstart, Bool.false_and]

/-- The places under each of the names that begin with `start`. -/
def placesByName (s : Snapshot) (start : String) : List (Path × Symbol) :=
  ((SortedSet.toList s.fqnOrder).filter (Text.startsWith start)).flatMap fun fqn =>
    s.places.filter fun p => p.2.fqn == fqn

theorem Exact.mem_placesByName_iff (h : s.Exact) (hnumbered : s.Numbered) (p : Path × Symbol) :
    p ∈ s.placesByName start ↔ p ∈ s.places ∧ Text.startsWith start p.2.fqn = true := by
  rw [placesByName, List.mem_flatMap]
  constructor
  · rintro ⟨fqn, hfqn, hp⟩
    obtain ⟨hp, hname⟩ := List.mem_filter.mp hp
    rw [beq_iff_eq.mp hname]
    exact ⟨hp, (List.mem_filter.mp hfqn).2⟩
  · rintro ⟨hp, hstart⟩
    refine ⟨p.2.fqn, List.mem_filter.mpr ⟨?_, hstart⟩, List.mem_filter.mpr ⟨hp, beq_self_eq_true _⟩⟩
    exact (h.mem_fqnOrder_iff hnumbered p.2.fqn).mpr ⟨p, hp, rfl⟩

/-- Names follow each other in the order of their bytes, and the places of one name in theirs. -/
theorem Exact.increasing_placesByName (h : s.Exact) (hnumbered : s.Numbered) :
    (s.placesByName start).Pairwise fun a b => scanOrder a b = .lt := by
  have hbytes {a b : Path × Symbol} :
      compareOn (fun p : Path × Symbol => Text.encode p.2.fqn) a b = compare a.2.fqn b.2.fqn :=
    Text.compare_encode a.2.fqn b.2.fqn
  rw [placesByName, List.pairwise_flatMap]
  constructor
  · intro fqn _
    refine ((h.increasing_places hnumbered).filter _).imp_of_mem fun {a b} ha hb hlt => ?_
    have hname : compare a.2.fqn b.2.fqn = .eq := by
      rw [beq_iff_eq.mp (List.mem_filter.mp ha).2, beq_iff_eq.mp (List.mem_filter.mp hb).2]
      exact ReflCmp.compare_self
    exact Ordering.then_eq_lt.mpr (Or.inr ⟨hbytes.trans hname, hlt⟩)
  · refine ((SortedMap.increasing_keys s.fqnOrder).filter _).imp fun {m n} hlt a ha b hb => ?_
    have hname : compare a.2.fqn b.2.fqn = .lt := by
      rwa [beq_iff_eq.mp (List.mem_filter.mp ha).2, beq_iff_eq.mp (List.mem_filter.mp hb).2]
    exact Ordering.then_eq_lt.mpr (Or.inl (hbytes.trans hname))

/-- Going through the names is sorting the places. -/
theorem Exact.placesByName_eq (h : s.Exact) (hnumbered : s.Numbered) :
    s.placesByName start = s.placesFrom start := by
  have honce : s.places.Nodup := nodup_of_increasing (compareOn refOf) (h.increasing_places hnumbered)
  refine eq_mergeSort_of_increasing scanOrder (h.increasing_placesByName start hnumbered)
    (honce.filter _) fun p => ?_
  rw [h.mem_placesByName_iff start hnumbered, List.mem_filter]

/-- A fresh scan has all the symbols whose name begins with its text before it. -/
theorem Exact.left_scan (h : s.Exact) (hnumbered : s.Numbered) :
    (s.scan start).left = (s.placesFrom start).map (·.2) := by
  have hnames : (s.scan start).left =
      ((SortedSet.toList s.fqnOrder).filter (Text.startsWith start)).flatMap s.symbolsByFqn := by
    rw [← takeWhile_remaining_scan start]
    exact PrefixScan.left_of_waiting rfl rfl
  have hsymbols (fqn : String) :
      s.symbolsByFqn fqn = (s.places.filter fun p => p.2.fqn == fqn).map (·.2) := by
    rw [h.symbolsByFqn_eq hnumbered, map_snd_filter_places s fun x => x.fqn == fqn]
  rw [hnames, ← h.placesByName_eq start hnumbered, placesByName, List.map_flatMap]
  exact List.flatMap_congr fun fqn _ => hsymbols fqn

theorem length_placesFrom_le : (s.placesFrom start).length ≤ s.symbolCount := by
  rw [placesFrom, List.length_mergeSort, symbolCount, ← map_snd_places, List.length_map]
  exact List.length_filter_le _ _

/-- A scan by prefix gives out the symbol at each place whose name begins with the text, each place
once and in order of the names' bytes. It ends after the last one and stays there, and what happens
to the index in between does not show. -/
theorem scan_eq_places {changes : List IndexChange}
    (hnumbered : ∀ change ∈ changes, change.Numbered) :
    let s := applyAll {} changes
    (s.placesFrom start).Pairwise (fun a b => scanOrder a b = .lt) ∧
      (∀ p, p ∈ s.placesFrom start ↔ p ∈ s.places ∧ Text.startsWith start p.2.fqn = true) ∧
      (s.scan start).toList = (s.placesFrom start).map (·.2) ∧
      ∀ steps, (ScanStep.run s (s.scan start) steps).2 =
        (List.range (ScanStep.calls steps)).map fun i => (s.placesFrom start)[i]?.map (·.2) := by
  intro s
  have h : s.Exact := (exact_of_empty 0).applyAll changes
  have hnumbered : s.Numbered := numbered_applyAll hnumbered
  have hleft := h.left_scan start hnumbered
  have hplaces := h.placesByName_eq start hnumbered
  refine ⟨hplaces ▸ h.increasing_placesByName start hnumbered,
    hplaces ▸ h.mem_placesByName_iff start hnumbered, ?_, fun steps => ?_⟩
  · rw [PrefixScan.toList, PrefixScan.take_eq, hleft]
    refine List.take_of_length_le ?_
    rw [List.length_map]
    exact Nat.le_succ_of_le (length_placesFrom_le start)
  · rw [ScanStep.answers_run, hleft]
    simp only [List.getElem?_map]

/-- Names around the package `p`, one of them in two files, and a file that is gone. -/
def neighbours : List IndexChange :=
  let declare (path fqn : String) (ordinal : UInt32) : Symbol :=
    ⟨fqn, fqn, .type, some .classType, ⟨path⟩, default, default, fqn, none, ordinal⟩
  [.upsert ⟨"/b"⟩ ⟨"1"⟩ { symbols := [declare "/b" "p.B" 0, declare "/b" "p.é" 1, declare "/b" "p" 2] },
    .upsert ⟨"/c"⟩ ⟨"2"⟩ { symbols := [declare "/c" "p.C" 0] },
    .upsert ⟨"/a"⟩ ⟨"3"⟩ { symbols := [declare "/a" "pa.A" 0, declare "/a" "p.é" 1] },
    .remove ⟨"/c"⟩]

theorem scan_eq_places_neighbours :
    (∀ change ∈ neighbours, change.Numbered) ∧
      let s := applyAll {} neighbours
      (s.scan "p.").toList = (s.placesFrom "p.").map (·.2) ∧
      (s.scan "p.").toList.map (fun x => (x.fqn, x.path.spelling)) =
        [("p.B", "/b"), ("p.é", "/a"), ("p.é", "/b")] ∧
      (ScanStep.run s (s.scan "p.") [.next, .change (.remove ⟨"/b"⟩), .next, .next, .next, .next]).2 =
        (List.range 5).map fun i => (s.placesFrom "p.")[i]?.map (·.2) := by
  have hnumbered : ∀ change ∈ neighbours, change.Numbered := by decide
  obtain ⟨-, -, hdrained, hrun⟩ := scan_eq_places "p." hnumbered
  exact ⟨hnumbered, hdrained, by decide, hrun _⟩

end Snapshot

end JavaAtlas
