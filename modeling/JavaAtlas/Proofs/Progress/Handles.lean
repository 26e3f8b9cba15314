import Mathlib.Data.List.Induction
import JavaAtlas.Progress.Handles
import JavaAtlas.Proofs.Progress.Board

/-!
# Every unit of work ends once

A book takes down what the calls on handles say: which units of work were begun, behind which names
their handles are, and which of them somebody has finished. Main statement: whatever the calls and
however the units are mixed in them, the table holds the handles of the book, the events are those of
the book's units, each begun in its turn and ended once at most, and each call tells what the book
says it tells.
-/

namespace JavaAtlas

set_option autoImplicit false

open ProgressBoard (Accounts)
open ProgressLog (Begun)

inductive HandleCall
  | start (name title : String) (total : Option Nat)
  | hold (name copy : String)
  | report (name : String) (message : Option String) (done : Nat)
  | finish (name : String) (message : Option String)
  | drop (name : String)

namespace HandleCall

def name : HandleCall → String
  | start name _ _ => name
  | hold _ copy => copy
  | report name _ _ => name
  | finish name _ => name
  | drop name => name

/-- The name that has to have a handle for the call to be made. -/
def needs? : HandleCall → Option String
  | start _ _ _ => none
  | hold name _ => some name
  | report name _ _ => some name
  | finish name _ => some name
  | drop _ => none

end HandleCall

/-! ## What the calls say -/

structure HandleBook where
  begun : List (String × Option Nat) := []
  finished : List Nat := []
  /-- The unit of work behind each name. -/
  behind : String → Option Nat := fun _ => none

namespace HandleBook

def note (k : HandleBook) : HandleCall → HandleBook
  | .start name title total =>
    { k with
      begun := k.begun ++ [(title, total)]
      behind := Function.update k.behind name (some (k.begun.length + 1)) }
  | .hold name copy =>
    match k.behind name with
    | none => k
    | some id => { k with behind := Function.update k.behind copy (some id) }
  | .report _ _ _ => k
  | .finish name _ =>
    match k.behind name with
    | none => k
    | some id => { k with finished := id :: k.finished }
  | .drop name => { k with behind := Function.update k.behind name none }

def ofCalls (calls : List HandleCall) : HandleBook := calls.foldl note {}

/-- What letting go of the handle under a name tells. -/
inductive LetsGo (k : HandleBook) (name : String) : List ProgressEvent → Prop
  | nothing : k.behind name = none → LetsGo k name []
  | shared {id : Nat} {other : String} : k.behind name = some id → other ≠ name →
      k.behind other = some id → LetsGo k name []
  | finished {id : Nat} : k.behind name = some id → id ∈ k.finished → LetsGo k name []
  | last {id : Nat} : k.behind name = some id → (∀ other, k.behind other = some id → other = name) →
      id ∉ k.finished → LetsGo k name [.ended id none]

/-- What a call tells. -/
inductive Tells (k : HandleBook) : HandleCall → List ProgressEvent → Prop
  | start {name title : String} {total : Option Nat} {events : List ProgressEvent} :
      k.LetsGo name events →
      Tells k (.start name title total) (.started (k.begun.length + 1) title total :: events)
  | hold {name copy : String} {id : Nat} {events : List ProgressEvent} : k.behind name = some id →
      copy ≠ name → k.LetsGo copy events → Tells k (.hold name copy) events
  | holdAgain {name : String} : Tells k (.hold name name) []
  | report {name title : String} {id : Nat} {total : Option Nat} (message : Option String)
      (done : Nat) : k.behind name = some id → ((title, total), id) ∈ k.begun.zipIdx 1 →
      Tells k (.report name message done) [.reported id message done total]
  | finish {name : String} {id : Nat} (message : Option String) : k.behind name = some id →
      id ∉ k.finished → Tells k (.finish name message) [.ended id message]
  | finishAgain {name : String} {id : Nat} (message : Option String) : k.behind name = some id →
      id ∈ k.finished → Tells k (.finish name message) []
  | drop {name : String} {events : List ProgressEvent} : k.LetsGo name events →
      Tells k (.drop name) events
  | missing {call : HandleCall} {name : String} : call.needs? = some name → k.behind name = none →
      Tells k call []

/-- The units of work a call is about: the one it begins, and the one behind its name. -/
inductive Concerns (k : HandleBook) : HandleCall → Nat → Prop
  | begun (name title : String) (total : Option Nat) :
      Concerns k (.start name title total) (k.begun.length + 1)
  | named {call : HandleCall} {id : Nat} : k.behind call.name = some id → Concerns k call id

theorem LetsGo.behind {k : HandleBook} {name : String} {events : List ProgressEvent}
    (h : k.LetsGo name events) : ∀ e ∈ events, k.behind name = some e.id := by
  intro e he
  cases h with
  | nothing => cases he
  | shared => cases he
  | finished => cases he
  | last hname =>
    cases List.mem_singleton.mp he
    exact hname

theorem Tells.concerns {k : HandleBook} {call : HandleCall} {events : List ProgressEvent}
    (h : k.Tells call events) : ∀ e ∈ events, k.Concerns call e.id := by
  intro e he
  cases h with
  | start hgone =>
    rcases List.mem_cons.mp he with rfl | he
    · exact .begun _ _ _
    · exact .named (hgone.behind e he)
  | hold _ _ hgone => exact .named (hgone.behind e he)
  | holdAgain => cases he
  | report message done hname =>
    cases List.mem_singleton.mp he
    exact .named hname
  | finish message hname =>
    cases List.mem_singleton.mp he
    exact .named hname
  | finishAgain => cases he
  | drop hgone => exact .named (hgone.behind e he)
  | missing => cases he

end HandleBook

/-! ## How many handles there are -/

namespace HandleTable

variable {t : HandleTable} {name : String} {id : Nat}

def held (t : HandleTable) (id : Nat) : Nat := t.handles.values.count id

/-- How many other names do. -/
def others (t : HandleTable) (name : String) (id : Nat) : Nat :=
  (t.handles.erase name).values.count id

theorem others_pos_iff :
    0 < t.others name id ↔ ∃ other, other ≠ name ∧ t.handle? other = some id := by
  rw [others, List.count_pos_iff, SortedMap.mem_values_iff]
  apply exists_congr
  intro other
  by_cases heq : other = name
  · simp [SortedMap.get?_erase, heq]
  · rw [SortedMap.get?_erase_of_ne _ heq]
    simp [heq, handle?]

theorem held_of_none (h : t.handle? name = none) : t.others name id = t.held id := by
  rw [others, SortedMap.erase_of_not_contains (SortedMap.get?_eq_none_iff.mp h), held]

theorem held_of_some {old : Nat} (h : t.handle? name = some old) :
    t.held id = t.others name id + if old = id then 1 else 0 := by
  obtain ⟨e, he, rfl⟩ := Option.map_eq_some_iff.mp h
  have hperm := (SortedMap.perm_erase he).map (·.2)
  rw [held, SortedMap.values, hperm.count_eq]
  simp only [List.map_cons, List.count_cons, beq_iff_eq]
  rfl

theorem held_of_some_self (h : t.handle? name = some id) : t.held id = t.others name id + 1 := by
  rw [held_of_some h, if_pos rfl]

theorem handles_drop (t : HandleTable) (name : String) :
    (t.drop name).1.handles = t.handles.erase name := by
  unfold drop
  split
  · rfl
  next hnone => exact (SortedMap.erase_of_not_contains (SortedMap.get?_eq_none_iff.mp hnone)).symm

theorem board_drop_of_some (h : t.handle? name = some id) :
    (t.drop name).1.board = t.board.drop id := by
  simp only [drop, h]

theorem drop_of_none (h : t.handle? name = none) : (t.drop name).1 = t := by
  simp only [drop, h]

theorem held_drop (t : HandleTable) (name : String) : (t.drop name).1.held = t.others name := by
  funext id
  rw [held, handles_drop, others]

theorem assign_eq (t : HandleTable) (name : String) (new : Nat) :
    t.assign name new =
      { board := (t.drop name).1.board, handles := (t.handles.erase name).insert name new } := by
  rw [← handles_drop]
  rfl

theorem held_assign (t : HandleTable) (name : String) (new : Nat) :
    (t.assign name new).held = fun id => t.others name id + if id = new then 1 else 0 := by
  funext id
  have habsent : (t.handles.erase name).contains name = false := by
    simp [SortedMap.contains_erase]
  have hperm := (SortedMap.perm_insert habsent new).map (·.2)
  rw [held, assign_eq, SortedMap.values, hperm.count_eq]
  simp only [List.map_cons, List.count_cons, beq_iff_eq, eq_comm (a := new)]
  rfl

theorem handle?_drop (t : HandleTable) (name : String) :
    (t.drop name).1.handle? = Function.update t.handle? name none := by
  funext other
  rw [handle?, handles_drop]
  by_cases heq : other = name
  · simp [SortedMap.get?_erase, heq]
  · rw [SortedMap.get?_erase_of_ne _ heq, Function.update_of_ne heq, handle?]

theorem handle?_assign (t : HandleTable) (name : String) (new : Nat) :
    (t.assign name new).handle? = Function.update t.handle? name (some new) := by
  funext other
  rw [handle?, assign_eq]
  by_cases heq : other = name
  · rw [heq, SortedMap.get?_insert_self, Function.update_self]
  · rw [SortedMap.get?_insert_of_ne _ heq, SortedMap.get?_erase_of_ne _ heq,
      Function.update_of_ne heq, handle?]

/-! ## Letting go -/

section

variable {begun : List (String × Option Nat)} {finished : Nat → Prop} {extra : Nat → Nat}

/-- Some handles may have no name yet. -/
theorem accounts_drop (h : t.board.Accounts begun finished fun id => t.held id + extra id)
    (name : String) :
    (t.drop name).1.board.Accounts begun finished fun id => t.others name id + extra id := by
  cases hname : t.handle? name with
  | none =>
    rw [drop_of_none hname]
    simpa only [held_of_none hname] using h
  | some old =>
    rw [board_drop_of_some hname]
    have hold := held_of_some_self hname
    have heq : Function.update (fun id => t.held id + extra id) old (t.held old + extra old - 1) =
        fun id => t.others name id + extra id := by
      funext id
      by_cases hid : id = old
      · subst hid
        rw [Function.update_self]
        omega
      · rw [Function.update_of_ne hid, held_of_some hname, if_neg (Ne.symm hid), Nat.add_zero]
    rw [← heq]
    exact h.drop (by omega)

theorem channel_drop_of_shared (h : t.board.Accounts begun finished fun id => t.held id + extra id)
    (hname : t.handle? name = some id) (hshared : 0 < t.others name id + extra id) :
    (t.drop name).1.board.channel = t.board.channel := by
  rw [board_drop_of_some hname]
  have hheld := held_of_some_self hname
  exact (h.drop_of_shared (by omega)).2

theorem channel_drop_of_last (h : t.board.Accounts begun finished fun id => t.held id + extra id)
    (hname : t.handle? name = some id) (hlast : t.others name id + extra id = 0) :
    (t.drop name).1.board.channel = (t.board.finish id none).channel := by
  rw [board_drop_of_some hname]
  have hheld := held_of_some_self hname
  exact (h.drop_of_last (by omega)).2

end

/-! ## Calls -/

def call (t : HandleTable) : HandleCall → HandleTable
  | .start name title total => (t.start name title total).1
  | .hold name copy => (t.hold? name copy).getD t
  | .report name message done => (t.report? name message done).getD t
  | .finish name message => (t.finish? name message).getD t
  | .drop name => (t.drop name).1

def run (capacity : Nat) (calls : List HandleCall) : HandleTable :=
  calls.foldl call { board := .ofCapacity capacity }

/-- The table holds the handles of the book, and its board agrees with both. -/
structure Follows (t : HandleTable) (k : HandleBook) : Prop where
  handles : t.handle? = k.behind
  accounts : t.board.Accounts k.begun (· ∈ k.finished) t.held

theorem exists_letsGo {k : HandleBook} {begun : List (String × Option Nat)} {extra : Nat → Nat}
    (hk : t.handle? = k.behind)
    (h : t.board.Accounts begun (· ∈ k.finished) fun id => t.held id + extra id)
    (hextra : ∀ id, k.behind name = some id → 0 < extra id →
      ∃ other, other ≠ name ∧ k.behind other = some id) :
    ∃ events, k.LetsGo name events ∧
      (t.drop name).1.board.channel.sent = t.board.channel.sent ++ events := by
  cases hname : t.handle? name with
  | none =>
    rw [drop_of_none hname]
    exact ⟨[], .nothing (hk ▸ hname), (List.append_nil _).symm⟩
  | some id =>
    have hbehind : k.behind name = some id := hk ▸ hname
    by_cases hlast : t.others name id + extra id = 0
    · rw [channel_drop_of_last h hname hlast]
      have hheld := held_of_some_self hname
      have hpos : 0 < t.held id + extra id := by omega
      by_cases hfinished : id ∈ k.finished
      · rw [h.finish_of_finished hpos hfinished]
        exact ⟨[], .finished hbehind hfinished, (List.append_nil _).symm⟩
      · obtain ⟨u, hfinish, -⟩ := h.exists_finish hpos hfinished none
        rw [hfinish]
        refine ⟨_, .last hbehind ?_ hfinished, rfl⟩
        intro other hother
        by_contra hne
        have hothers := others_pos_iff.mpr ⟨other, hne, hk ▸ hother⟩
        omega
    · rw [channel_drop_of_shared h hname (Nat.pos_of_ne_zero hlast)]
      have hother : ∃ other, other ≠ name ∧ k.behind other = some id := by
        by_cases hothers : 0 < t.others name id
        · exact hk ▸ others_pos_iff.mp hothers
        · exact hextra id hbehind (by omega)
      obtain ⟨other, hne, hother⟩ := hother
      exact ⟨[], .shared hbehind hne hother, (List.append_nil _).symm⟩

/-- One call: the table goes on following the book, and tells what the book says. -/
structure Answers (t : HandleTable) (k : HandleBook) (c : HandleCall) : Prop where
  follows : (t.call c).Follows (k.note c)
  tells : ∃ events, k.Tells c events ∧
    (t.call c).board.channel.sent = t.board.channel.sent ++ events

variable {k : HandleBook}

theorem Follows.held_pos (h : t.Follows k) (hname : k.behind name = some id) : 0 < t.held id := by
  rw [held_of_some_self (h.handles ▸ hname)]
  exact Nat.succ_pos _

/-- A handle without a name is given one; the handle the name stood for is let go of. -/
theorem follows_assign {begun : List (String × Option Nat)} {new : Nat}
    (hhandles : t.handle? = k.behind)
    (h : t.board.Accounts begun (· ∈ k.finished) fun id => t.held id + if id = new then 1 else 0)
    (name : String) :
    (t.assign name new).Follows
      { k with begun := begun, behind := Function.update k.behind name (some new) } where
  handles := by
    rw [handle?_assign, hhandles]
  accounts := by
    rw [held_assign, assign_eq]
    exact accounts_drop h name

theorem Follows.answers_start (h : t.Follows k) (name title : String) (total : Option Nat) :
    t.Answers k (.start name title total) := by
  let started : HandleTable := { t with board := (t.board.start title total).1 }
  have hcall : t.call (.start name title total) = started.assign name t.board.nextId := rfl
  have hnext : t.board.nextId = k.begun.length + 1 := h.accounts.next
  have hzero : t.held t.board.nextId = 0 := h.accounts.held_next
  have haccounts : started.board.Accounts (k.begun ++ [(title, total)]) (· ∈ k.finished)
      fun id => started.held id + if id = t.board.nextId then 1 else 0 := by
    have heq : Function.update t.held t.board.nextId 1 =
        fun id => t.held id + if id = t.board.nextId then 1 else 0 := by
      funext id
      by_cases hid : id = t.board.nextId
      · simp [hid, hzero]
      · simp [hid]
    have hstart := h.accounts.start title total
    rwa [heq] at hstart
  constructor
  · have hfollows := follows_assign (t := started) h.handles haccounts name
    rwa [hcall, HandleBook.note, ← hnext]
  · have hextra : ∀ id, k.behind name = some id → 0 < (if id = t.board.nextId then 1 else 0) →
        ∃ other, other ≠ name ∧ k.behind other = some id := by
      intro id hid hpos
      have hheld := h.held_pos hid
      have hne : id ≠ t.board.nextId := by
        rintro rfl
        omega
      simp [hne] at hpos
    obtain ⟨events, hgone, hsent⟩ := exists_letsGo (t := started) h.handles haccounts hextra
    refine ⟨_, .start hgone, ?_⟩
    rw [hcall, assign_eq, hsent, ← hnext]
    simp [started, ProgressBoard.start, ProgressBoard.send, Channel.send]

theorem Follows.answers_hold (h : t.Follows k) {name : String} (hname : k.behind name = some id)
    (copy : String) : t.Answers k (.hold name copy) := by
  let more : HandleTable := { t with board := t.board.hold id }
  have hhandle : t.handle? name = some id := h.handles ▸ hname
  have hcall : t.call (.hold name copy) = more.assign copy id := by
    simp only [call, hold?, hhandle]
    rfl
  have haccounts : more.board.Accounts k.begun (· ∈ k.finished)
      fun id' => more.held id' + if id' = id then 1 else 0 := by
    have heq : Function.update t.held id (t.held id + 1) =
        fun id' => t.held id' + if id' = id then 1 else 0 := by
      funext id'
      by_cases hid : id' = id
      · simp [hid]
      · simp [hid]
    have hhold := h.accounts.hold (h.held_pos hname)
    rwa [heq] at hhold
  have hsent : more.board.channel = t.board.channel := by
    simp only [more, ProgressBoard.hold]
    split <;> rfl
  constructor
  · have hfollows := follows_assign (t := more) h.handles haccounts copy
    rw [hcall]
    simpa only [HandleBook.note, hname] using hfollows
  · by_cases hcopy : copy = name
    · subst hcopy
      refine ⟨[], .holdAgain, ?_⟩
      have hshared : 0 < more.others copy id + if id = id then 1 else 0 := by simp
      rw [hcall, assign_eq, channel_drop_of_shared haccounts hhandle hshared, hsent, List.append_nil]
    · have hextra : ∀ id', k.behind copy = some id' → 0 < (if id' = id then 1 else 0) →
          ∃ other, other ≠ copy ∧ k.behind other = some id' := by
        intro id' _ hpos
        by_cases heq : id' = id
        · exact ⟨name, Ne.symm hcopy, heq ▸ hname⟩
        · simp [heq] at hpos
      obtain ⟨events, hgone, hdrop⟩ := exists_letsGo (t := more) h.handles haccounts hextra
      refine ⟨events, .hold hname hcopy hgone, ?_⟩
      rw [hcall, assign_eq, hdrop, hsent]

theorem Follows.answers_report (h : t.Follows k) {name : String} (hname : k.behind name = some id)
    (message : Option String) (done : Nat) : t.Answers k (.report name message done) := by
  have hhandle : t.handle? name = some id := h.handles ▸ hname
  have hcall : t.call (.report name message done) =
      { t with board := t.board.report id message done } := by
    simp only [call, report?, hhandle]
    rfl
  have hpos := h.held_pos hname
  refine ⟨?_, ?_⟩
  · rw [hcall]
    exact ⟨h.handles, h.accounts.report hpos message done⟩
  · obtain ⟨title, total, hmem, hreport⟩ := h.accounts.exists_report hpos message done
    refine ⟨_, .report message done hname hmem, ?_⟩
    rw [hcall, hreport]
    rfl

theorem Follows.answers_finish (h : t.Follows k) {name : String} (hname : k.behind name = some id)
    (message : Option String) : t.Answers k (.finish name message) := by
  have hhandle : t.handle? name = some id := h.handles ▸ hname
  have hcall : t.call (.finish name message) =
      { t with board := t.board.finish id message } := by
    simp only [call, finish?, hhandle]
    rfl
  have hnote : k.note (.finish name message) = { k with finished := id :: k.finished } := by
    simp only [HandleBook.note, hname]
  have hpos := h.held_pos hname
  constructor
  · have hfinish : (t.board.finish id message).Accounts k.begun (· ∈ id :: k.finished) t.held := by
      simpa only [List.mem_cons, or_comm] using h.accounts.finish hpos message
    rw [hcall, hnote]
    exact ⟨h.handles, hfinish⟩
  · by_cases hfinished : id ∈ k.finished
    · refine ⟨[], .finishAgain message hname hfinished, ?_⟩
      rw [hcall, h.accounts.finish_of_finished hpos hfinished, List.append_nil]
    · obtain ⟨u, hfinish, -⟩ := h.accounts.exists_finish hpos hfinished message
      refine ⟨_, .finish message hname hfinished, ?_⟩
      rw [hcall, hfinish]
      rfl

theorem Follows.answers_drop (h : t.Follows k) (name : String) : t.Answers k (.drop name) := by
  have haccounts : t.board.Accounts k.begun (· ∈ k.finished) fun id => t.held id + 0 := h.accounts
  constructor
  · constructor
    · rw [HandleBook.note, ← h.handles]
      exact handle?_drop t name
    · have hdrop := accounts_drop haccounts name
      rwa [call, held_drop]
  · have hextra : ∀ id, k.behind name = some id → 0 < 0 →
        ∃ other, other ≠ name ∧ k.behind other = some id :=
      fun _ _ hpos => absurd hpos (Nat.lt_irrefl 0)
    obtain ⟨events, hgone, hsent⟩ := exists_letsGo h.handles haccounts hextra
    exact ⟨events, .drop hgone, hsent⟩

theorem Follows.answers_missing (h : t.Follows k) {c : HandleCall} (hneeds : c.needs? = some name)
    (hname : k.behind name = none) : t.Answers k c := by
  have hhandle : t.handle? name = none := h.handles ▸ hname
  have hcall : t.call c = t := by
    cases c <;> cases hneeds
    all_goals simp [call, hold?, report?, finish?, hhandle]
  have hnote : k.note c = k := by
    cases c <;> cases hneeds
    all_goals simp [HandleBook.note, hname]
  refine ⟨?_, [], .missing hneeds hname, ?_⟩
  · rw [hcall, hnote]
    exact h
  · rw [hcall, List.append_nil]

theorem Follows.answers (h : t.Follows k) (c : HandleCall) : t.Answers k c := by
  cases c with
  | start name title total => exact h.answers_start name title total
  | hold name copy =>
    cases hname : k.behind name with
    | none => exact h.answers_missing rfl hname
    | some id => exact h.answers_hold hname copy
  | report name message done =>
    cases hname : k.behind name with
    | none => exact h.answers_missing rfl hname
    | some id => exact h.answers_report hname message done
  | finish name message =>
    cases hname : k.behind name with
    | none => exact h.answers_missing rfl hname
    | some id => exact h.answers_finish hname message
  | drop name => exact h.answers_drop name

theorem Follows.run (capacity : Nat) (calls : List HandleCall) :
    (HandleTable.run capacity calls).Follows (HandleBook.ofCalls calls) := by
  induction calls using List.reverseRecOn with
  | nil => exact ⟨rfl, Accounts.ofCapacity capacity fun _ => List.not_mem_nil⟩
  | append_singleton calls c ih =>
    rw [HandleTable.run, HandleBook.ofCalls, List.foldl_concat, List.foldl_concat]
    exact (ih.answers c).follows

theorem Follows.held_eq_zero_iff (h : t.Follows k) :
    t.held id = 0 ↔ ∀ name, k.behind name ≠ some id := by
  rw [held, List.count_eq_zero, SortedMap.mem_values_iff, not_exists, ← h.handles]
  rfl

/-- Whatever was called before, every unit of work has begun in its turn, ends at most once, and has
ended exactly if somebody has finished it or nobody has a handle of it any more. -/
theorem ends_once (capacity : Nat) (calls : List HandleCall) :
    (∀ name, (run capacity calls).handle? name = (HandleBook.ofCalls calls).behind name) ∧
      ProgressLog (run capacity calls).board.channel.sent (HandleBook.ofCalls calls).begun
        (fun id => Begun (HandleBook.ofCalls calls).begun id ∧
          (id ∈ (HandleBook.ofCalls calls).finished ∨
            ∀ name, (HandleBook.ofCalls calls).behind name ≠ some id)) ∧
      ∀ call, ∃ events, (HandleBook.ofCalls calls).Tells call events ∧
        (∀ e ∈ events, (HandleBook.ofCalls calls).Concerns call e.id) ∧
        (run capacity (calls ++ [call])).board.channel.sent =
          (run capacity calls).board.channel.sent ++ events := by
  have hfollows := Follows.run capacity calls
  refine ⟨congrFun hfollows.handles, ?_, ?_⟩
  · apply hfollows.accounts.log.congr
    intro id
    rw [hfollows.held_eq_zero_iff]
  · intro call
    obtain ⟨events, htells, hsent⟩ := (hfollows.answers call).tells
    refine ⟨events, htells, htells.concerns, ?_⟩
    rw [run, List.foldl_concat]
    exact hsent

example : (run 16 [.start "a" "Indexing" (some 2), .start "b" "Waiting" none, .hold "a" "c",
      .drop "a", .report "c" none 1, .finish "c" (some "done"), .drop "b", .finish "c" none,
      .drop "c"]).board.channel.sent =
    [.started 1 "Indexing" (some 2), .started 2 "Waiting" none, .reported 1 none 1 (some 2),
      .ended 1 (some "done"), .ended 2 none] := by
  decide +kernel

end HandleTable

end JavaAtlas
