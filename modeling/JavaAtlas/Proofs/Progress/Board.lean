import Mathlib.Data.List.Count
import Mathlib.Logic.Function.Basic
import JavaAtlas.Progress.Board
import JavaAtlas.Proofs.Data.SortedMap

/-!
# What a board keeps and what it has told

The events are read against the units of work that were begun and those that have ended; the units
are read against how many handles each one has. Every operation on a unit that is still held keeps
both, and says which events it sends.
-/

namespace JavaAtlas

set_option autoImplicit false

namespace ProgressEvent

def id : ProgressEvent → Nat
  | started id _ _ => id
  | reported id _ _ _ => id
  | ended id _ => id

def begin? : ProgressEvent → Option ((String × Option Nat) × Nat)
  | started id title total => some ((title, total), id)
  | _ => none

def endsUnit (id : Nat) : ProgressEvent → Bool
  | ended id' _ => id' == id
  | _ => false

end ProgressEvent

open ProgressEvent (begin? endsUnit)

/-! ## The events -/

namespace ProgressLog

/-- One of the units of work has this number: they are numbered from one. -/
def Begun (begun : List (String × Option Nat)) (id : Nat) : Prop :=
  ∃ unit, (unit, id) ∈ begun.zipIdx 1

theorem begun_concat (begun : List (String × Option Nat)) (unit : String × Option Nat) (id : Nat) :
    Begun (begun ++ [unit]) id ↔ Begun begun id ∨ id = begun.length + 1 := by
  simp only [Begun, List.zipIdx_append, List.mem_append, List.zipIdx_cons, List.zipIdx_nil,
    List.mem_singleton, Prod.mk.injEq, exists_or, exists_eq_left, Nat.add_comm 1]

theorem not_begun_next (begun : List (String × Option Nat)) : ¬ Begun begun (begun.length + 1) := by
  intro ⟨unit, hmem⟩
  have hlt := List.snd_lt_add_of_mem_zipIdx hmem
  omega

end ProgressLog

open ProgressLog (Begun begun_concat not_begun_next)

/-- The events tell of `begun`, numbered from one in this order, each of them before anything else
about it, and of one end for each unit that has `ended`. -/
structure ProgressLog (sent : List ProgressEvent) (begun : List (String × Option Nat))
    (ended : Nat → Prop) : Prop where
  begins : sent.filterMap begin? = begun.zipIdx 1
  first : ∀ before e, before ++ [e] <+: sent → begin? e = none →
    ∃ unit, (unit, e.id) ∈ before.filterMap begin?
  once : ∀ id, sent.countP (endsUnit id) ≤ 1
  ends : ∀ id, 0 < sent.countP (endsUnit id) ↔ ended id

namespace ProgressLog

variable {sent : List ProgressEvent} {begun : List (String × Option Nat)} {ended : Nat → Prop}

theorem nil : ProgressLog [] [] fun _ => False where
  begins := rfl
  first before e h := by simp at h
  once id := Nat.zero_le _
  ends id := by simp

theorem congr {ended' : Nat → Prop} (h : ProgressLog sent begun ended)
    (heq : ∀ id, ended id ↔ ended' id) : ProgressLog sent begun ended' :=
  { h with ends := fun id => (h.ends id).trans (heq id) }

/-- Every event with an earlier beginning may follow. -/
theorem first_concat (h : ProgressLog sent begun ended) {e : ProgressEvent}
    (he : begin? e = none → Begun begun e.id) (before : List ProgressEvent) (e' : ProgressEvent)
    (hfront : before ++ [e'] <+: sent ++ [e]) (he' : begin? e' = none) :
    ∃ unit, (unit, e'.id) ∈ before.filterMap begin? := by
  rcases List.prefix_concat_iff.mp hfront with hall | hfront
  · obtain ⟨rfl, hlast⟩ := List.append_inj' hall rfl
    cases hlast
    rw [h.begins]
    exact he he'
  · exact h.first before e' hfront he'

theorem start (h : ProgressLog sent begun ended) (title : String) (total : Option Nat) :
    ProgressLog (sent ++ [.started (begun.length + 1) title total]) (begun ++ [(title, total)])
      ended where
  begins := by
    rw [List.filterMap_append, h.begins, List.zipIdx_append, Nat.add_comm 1]
    rfl
  first := h.first_concat (by simp [begin?])
  once id := by
    rw [List.countP_append]
    exact h.once id
  ends id := by
    rw [List.countP_append]
    exact h.ends id

theorem report (h : ProgressLog sent begun ended) {id : Nat} (hid : Begun begun id)
    (message : Option String) (done : Nat) (total : Option Nat) :
    ProgressLog (sent ++ [.reported id message done total]) begun ended where
  begins := by
    rw [List.filterMap_append, h.begins]
    exact List.append_nil _
  first := h.first_concat fun _ => hid
  once id := by
    rw [List.countP_append]
    exact h.once id
  ends id := by
    rw [List.countP_append]
    exact h.ends id

theorem finish (h : ProgressLog sent begun ended) {id : Nat} (hid : Begun begun id)
    (hnot : ¬ ended id) (message : Option String) :
    ProgressLog (sent ++ [.ended id message]) begun fun id' => ended id' ∨ id' = id where
  begins := by
    rw [List.filterMap_append, h.begins]
    exact List.append_nil _
  first := h.first_concat fun _ => hid
  once id' := by
    have hnone : ¬ 0 < sent.countP (endsUnit id) := fun hpos => hnot ((h.ends id).mp hpos)
    have honce := h.once id'
    rw [List.countP_append, List.countP_singleton]
    by_cases heq : id = id'
    · subst heq
      simp only [endsUnit, beq_self_eq_true, if_true]
      omega
    · simp only [endsUnit, beq_eq_false_iff_ne.mpr heq]
      exact honce
  ends id' := by
    have hends := h.ends id'
    rw [List.countP_append, List.countP_singleton]
    by_cases heq : id' = id
    · simp [endsUnit, heq]
    · rw [← hends]
      simp [endsUnit, heq, Ne.symm heq]

end ProgressLog

/-! ## The units of work -/

namespace ProgressBoard

variable {b : ProgressBoard} {id : Nat}

theorem get?_units_start (b : ProgressBoard) (title : String) (total : Option Nat) :
    (b.start title total).1.units.get? (b.start title total).2 = some { total := total } :=
  SortedMap.get?_insert_self _ _ _

theorem send_of_report {u : WorkUnit} (h : b.units.get? id = some u) (message : Option String)
    (done : Nat) : b.report id message done = b.send (.reported id message done u.total) := by
  simp only [report, h]

theorem finish_of_ended {u : WorkUnit} (h : b.units.get? id = some u) (hended : u.ended = true)
    (message : Option String) : b.finish id message = b := by
  simp only [finish, h, hended, if_true]

theorem finish_of_not_ended {u : WorkUnit} (h : b.units.get? id = some u) (hended : u.ended = false)
    (message : Option String) :
    b.finish id message =
      { b.send (.ended id message) with units := b.units.insert id { u with ended := true } } := by
  simp [finish, h, hended]

theorem drop_of_last {u : WorkUnit} (h : b.units.get? id = some u) (hlast : u.holders ≤ 1) :
    b.drop id = { b.finish id none with units := (b.finish id none).units.erase id } := by
  simp only [drop, h, hlast, if_true]

theorem drop_of_shared {u : WorkUnit} (h : b.units.get? id = some u) (hshared : ¬ u.holders ≤ 1) :
    b.drop id = { b with units := b.units.insert id { u with holders := u.holders - 1 } } := by
  simp only [drop, h, hshared, if_false]

/-- The last holder ends the work and lets go of it: the end is told once. -/
theorem drop_finish {total : Option Nat} (h : b.units.get? id = some { total := total })
    (message : Option String) :
    ((b.finish id message).drop id).channel = b.channel.send (.ended id message) ∧
      ((b.finish id message).drop id).nextId = b.nextId := by
  have hfinish := finish_of_not_ended h rfl message
  have hunit : (b.finish id message).units.get? id = some { total := total, ended := true } := by
    rw [hfinish]
    exact SortedMap.get?_insert_self _ _ _
  rw [drop_of_last hunit (Nat.le_refl 1), finish_of_ended hunit rfl, hfinish]
  exact ⟨rfl, rfl⟩

/-- A unit of work as it was begun, finished and held. -/
structure Keeps (begun : List (String × Option Nat)) (finished : Nat → Prop) (held : Nat → Nat)
    (id : Nat) (u : WorkUnit) : Prop where
  begun : ∃ title, ((title, u.total), id) ∈ begun.zipIdx 1
  ended : u.ended = true ↔ finished id
  holders : u.holders = held id

/-- The board agrees with what was begun, what was finished by somebody and how many handles each
unit of work has. -/
structure Accounts (b : ProgressBoard) (begun : List (String × Option Nat)) (finished : Nat → Prop)
    (held : Nat → Nat) : Prop where
  log : ProgressLog b.channel.sent begun fun id => Begun begun id ∧ (finished id ∨ held id = 0)
  next : b.nextId = begun.length + 1
  finished_begun : ∀ id, finished id → Begun begun id
  unit : ∀ id, 0 < held id → ∃ u, b.units.get? id = some u ∧ Keeps begun finished held id u

namespace Accounts

variable {begun : List (String × Option Nat)} {finished : Nat → Prop} {held : Nat → Nat}

theorem ofCapacity (n : Nat) (hnone : ∀ id, ¬ finished id) :
    Accounts (ProgressBoard.ofCapacity n) [] finished fun _ => 0 where
  log := ProgressLog.nil.congr fun id => by simp [Begun]
  next := rfl
  finished_begun id h := absurd h (hnone id)
  unit _ h := absurd h (Nat.lt_irrefl 0)

theorem begun_of_held (h : b.Accounts begun finished held) (hid : 0 < held id) : Begun begun id := by
  obtain ⟨u, -, hu⟩ := h.unit id hid
  obtain ⟨title, hmem⟩ := hu.begun
  exact ⟨_, hmem⟩

theorem not_finished_next (h : b.Accounts begun finished held) : ¬ finished b.nextId := by
  intro hfinished
  apply not_begun_next begun
  rw [← h.next]
  exact h.finished_begun _ hfinished

theorem held_next (h : b.Accounts begun finished held) : held b.nextId = 0 := by
  by_contra hne
  apply not_begun_next begun
  rw [← h.next]
  exact h.begun_of_held (Nat.pos_of_ne_zero hne)

theorem unit_of_ne (h : b.Accounts begun finished held) {finished' : Nat → Prop} {held' : Nat → Nat}
    {units : SortedMap Nat WorkUnit} (hunits : ∀ id', id' ≠ id → units.get? id' = b.units.get? id')
    (hfinished : ∀ id', id' ≠ id → (finished id' ↔ finished' id'))
    (hheld : ∀ id', id' ≠ id → held id' = held' id')
    (hunit : 0 < held' id → ∃ u, units.get? id = some u ∧ Keeps begun finished' held' id u)
    (id' : Nat) (hpos : 0 < held' id') :
    ∃ u, units.get? id' = some u ∧ Keeps begun finished' held' id' u := by
  by_cases heq : id' = id
  · subst heq
    exact hunit hpos
  · rw [← hheld id' heq] at hpos
    obtain ⟨u, hu, hkeeps⟩ := h.unit id' hpos
    refine ⟨u, (hunits id' heq).trans hu, hkeeps.begun, ?_, ?_⟩
    · exact hkeeps.ended.trans (hfinished id' heq)
    · exact hkeeps.holders.trans (hheld id' heq)

theorem start (h : b.Accounts begun finished held) (title : String) (total : Option Nat) :
    (b.start title total).1.Accounts (begun ++ [(title, total)]) finished
      (Function.update held b.nextId 1) where
  log := by
    have hsent : (b.start title total).1.channel.sent =
        b.channel.sent ++ [.started (begun.length + 1) title total] := by
      rw [← h.next]
      rfl
    rw [hsent]
    apply (h.log.start title total).congr
    intro id
    rw [begun_concat, ← h.next]
    by_cases hid : id = b.nextId
    · subst hid
      have hnew : ¬ Begun begun b.nextId := h.next ▸ not_begun_next begun
      simp [hnew, h.not_finished_next]
    · simp [hid]
  next := by
    rw [List.length_append, List.length_singleton, ← h.next]
    rfl
  finished_begun id hfinished := (begun_concat _ _ _).mpr (Or.inl (h.finished_begun id hfinished))
  unit id hid := by
    by_cases heq : id = b.nextId
    · subst heq
      refine ⟨_, get?_units_start b title total, ⟨title, ?_⟩, ?_, ?_⟩
      · rw [List.zipIdx_append, List.mem_append, h.next, Nat.add_comm]
        exact Or.inr (List.mem_singleton.mpr rfl)
      · simp [h.not_finished_next]
      · simp
    · rw [Function.update_of_ne heq] at hid
      obtain ⟨u, hunit, ⟨title', hmem⟩, hended, hholders⟩ := h.unit id hid
      refine ⟨u, ?_, ⟨title', ?_⟩, hended, ?_⟩
      · exact (SortedMap.get?_insert_of_ne _ heq _).trans hunit
      · rw [List.zipIdx_append]
        exact List.mem_append_left _ hmem
      · rw [Function.update_of_ne heq]
        exact hholders

/-- A report sends the total that the unit of work was begun with. -/
theorem exists_report (h : b.Accounts begun finished held) (hid : 0 < held id)
    (message : Option String) (done : Nat) :
    ∃ title total, ((title, total), id) ∈ begun.zipIdx 1 ∧
      b.report id message done = b.send (.reported id message done total) := by
  obtain ⟨u, hunit, hu⟩ := h.unit id hid
  obtain ⟨title, hmem⟩ := hu.begun
  exact ⟨title, u.total, hmem, send_of_report hunit message done⟩

theorem report (h : b.Accounts begun finished held) (hid : 0 < held id) (message : Option String)
    (done : Nat) : (b.report id message done).Accounts begun finished held := by
  obtain ⟨title, total, -, hreport⟩ := h.exists_report hid message done
  rw [hreport]
  exact { h with log := h.log.report (h.begun_of_held hid) message done total }

theorem finish_of_finished (h : b.Accounts begun finished held) (hid : 0 < held id)
    (hfinished : finished id) (message : Option String) : b.finish id message = b := by
  obtain ⟨u, hunit, hu⟩ := h.unit id hid
  exact finish_of_ended hunit (hu.ended.mpr hfinished) message

theorem exists_finish (h : b.Accounts begun finished held) (hid : 0 < held id)
    (hfinished : ¬ finished id) (message : Option String) :
    ∃ u, b.finish id message = { b.send (.ended id message) with units := b.units.insert id u } ∧
      u.ended = true ∧ u.holders = held id ∧ ∃ title, ((title, u.total), id) ∈ begun.zipIdx 1 := by
  obtain ⟨u, hunit, hu⟩ := h.unit id hid
  have hended : u.ended = false := Bool.eq_false_iff.mpr fun he => hfinished (hu.ended.mp he)
  exact ⟨_, finish_of_not_ended hunit hended message, rfl, hu.holders, hu.begun⟩

theorem log_finish (h : b.Accounts begun finished held) (hid : 0 < held id)
    (hfinished : ¬ finished id) (message : Option String) {ended : Nat → Prop}
    (hended : ∀ id', ended id' ↔ Begun begun id' ∧ (finished id' ∨ held id' = 0) ∨ id' = id) :
    ProgressLog (b.finish id message).channel.sent begun ended := by
  obtain ⟨u, hfinish, -⟩ := h.exists_finish hid hfinished message
  have hopen : ¬ (Begun begun id ∧ (finished id ∨ held id = 0)) := by
    rintro ⟨-, hor⟩
    rcases hor with hdone | hzero
    · exact hfinished hdone
    · omega
  rw [hfinish]
  exact (h.log.finish (h.begun_of_held hid) hopen message).congr fun id' => (hended id').symm

theorem finish (h : b.Accounts begun finished held) (hid : 0 < held id) (message : Option String) :
    (b.finish id message).Accounts begun (fun id' => finished id' ∨ id' = id) held := by
  by_cases hfinished : finished id
  · rw [h.finish_of_finished hid hfinished]
    have hsame : (fun id' => finished id' ∨ id' = id) = finished := by
      funext id'
      rw [eq_iff_iff, or_iff_left_iff_imp]
      rintro rfl
      exact hfinished
    rwa [hsame]
  · have hbegun := h.begun_of_held hid
    obtain ⟨u, hfinish, hu⟩ := h.exists_finish hid hfinished message
    refine ⟨h.log_finish hid hfinished message ?_, ?_, ?_, ?_⟩
    · intro id'
      by_cases heq : id' = id
      · simp [heq, hbegun]
      · simp [heq]
    · rw [hfinish]
      exact h.next
    · rintro id' (hdone | rfl)
      · exact h.finished_begun id' hdone
      · exact hbegun
    · rw [hfinish]
      apply h.unit_of_ne
      · exact fun id' hne => SortedMap.get?_insert_of_ne _ hne _
      · intro id' hne
        simp [hne]
      · exact fun _ _ => rfl
      · intro _
        exact ⟨u, SortedMap.get?_insert_self _ _ _, hu.2.2, by simp [hu.1], hu.2.1⟩

/-- A handle more or a handle less, as long as one is left. -/
theorem setHolders (h : b.Accounts begun finished held) (hid : 0 < held id) {n : Nat} (hn : n ≠ 0)
    {u : WorkUnit} (hunit : b.units.get? id = some u) :
    Accounts { b with units := b.units.insert id { u with holders := n } } begun finished
      (Function.update held id n) := by
  obtain ⟨u', hunit', hkeeps⟩ := h.unit id hid
  cases hunit.symm.trans hunit'
  refine ⟨h.log.congr ?_, h.next, h.finished_begun, ?_⟩
  · intro id'
    by_cases heq : id' = id
    · subst heq
      simp [hn, Nat.pos_iff_ne_zero.mp hid]
    · simp [heq]
  · apply h.unit_of_ne
    · exact fun id' hne => SortedMap.get?_insert_of_ne _ hne _
    · exact fun _ _ => Iff.rfl
    · exact fun id' hne => (Function.update_of_ne hne _ _).symm
    · intro _
      refine ⟨_, SortedMap.get?_insert_self _ _ _, hkeeps.begun, hkeeps.ended, ?_⟩
      simp

theorem hold (h : b.Accounts begun finished held) (hid : 0 < held id) :
    (b.hold id).Accounts begun finished (Function.update held id (held id + 1)) := by
  obtain ⟨u, hunit, hu⟩ := h.unit id hid
  have hhold : b.hold id = { b with units := b.units.insert id { u with holders := held id + 1 } } := by
    simp only [ProgressBoard.hold, hunit, hu.holders]
  rw [hhold]
  exact h.setHolders hid (Nat.succ_ne_zero _) hunit

theorem drop_of_shared (h : b.Accounts begun finished held) (hid : 1 < held id) :
    (b.drop id).Accounts begun finished (Function.update held id (held id - 1)) ∧
      (b.drop id).channel = b.channel := by
  obtain ⟨u, hunit, hu⟩ := h.unit id (Nat.zero_lt_of_lt hid)
  have hshared : ¬ u.holders ≤ 1 := by
    rw [hu.holders]
    omega
  rw [ProgressBoard.drop_of_shared hunit hshared, hu.holders]
  exact ⟨h.setHolders (Nat.zero_lt_of_lt hid) (by omega) hunit, rfl⟩

/-- The last handle of a unit of work ends it unless somebody has finished it. -/
theorem drop_of_last (h : b.Accounts begun finished held) (hid : held id = 1) :
    (b.drop id).Accounts begun finished (Function.update held id 0) ∧
      (b.drop id).channel = (b.finish id none).channel := by
  have hpos : 0 < held id := by omega
  have hbegun := h.begun_of_held hpos
  obtain ⟨u, hunit, hu⟩ := h.unit id hpos
  have hlast : u.holders ≤ 1 := by
    rw [hu.holders]
    omega
  have hfinish := h.finish hpos none
  rw [ProgressBoard.drop_of_last hunit hlast]
  refine ⟨⟨?_, hfinish.next, h.finished_begun, ?_⟩, rfl⟩
  · apply hfinish.log.congr
    intro id'
    by_cases heq : id' = id
    · simp [heq]
    · simp [heq]
  · intro id' hid'
    have heq : id' ≠ id := by
      rintro rfl
      simp at hid'
    rw [Function.update_of_ne heq] at hid'
    obtain ⟨u', hunit', hu'⟩ := hfinish.unit id' hid'
    refine ⟨u', ?_, hu'.begun, ?_, ?_⟩
    · exact (SortedMap.get?_erase_of_ne _ heq).trans hunit'
    · simpa [heq] using hu'.ended
    · rw [Function.update_of_ne heq]
      exact hu'.holders

theorem drop (h : b.Accounts begun finished held) (hid : 0 < held id) :
    (b.drop id).Accounts begun finished (Function.update held id (held id - 1)) := by
  by_cases hlast : held id = 1
  · rw [hlast]
    exact (h.drop_of_last hlast).1
  · exact (h.drop_of_shared (by omega)).1

end Accounts

end ProgressBoard

end JavaAtlas
