import JavaAtlas.Progress.Pool
import JavaAtlas.Proofs.Progress.Board
import JavaAtlas.Proofs.Queue.History

/-!
# What a queue tells about its progress

A session is read off the events: it begins, reports one file after another with a running count, and
ends once with the count. Main statement: after any operations in any order, analyses that broke off
included, the events are whole sessions one after another and then the open one, which is there
exactly while something is left to do.
-/

namespace JavaAtlas

set_option autoImplicit false

namespace Queue

/-- The files reported in one unit of work, in this order. -/
structure Session where
  id : Nat
  files : List Path

namespace Session

/-- What is told of the files: the count runs from one. -/
def reports (s : Session) : List ProgressEvent :=
  (s.files.zipIdx 1).map fun x => .reported s.id (some x.1.spelling) x.2 none

def begun (s : Session) : List ProgressEvent := .started s.id "Indexing" none :: s.reports

def whole (s : Session) : List ProgressEvent :=
  s.begun ++ [.ended s.id (some (toString s.files.length ++ " files analyzed"))]

def add (s : Session) (path : Path) : Session := { s with files := s.files ++ [path] }

theorem begun_add (s : Session) (path : Path) :
    (s.add path).begun =
      s.begun ++ [.reported s.id (some path.spelling) (s.files.length + 1) none] := by
  simp [begun, reports, add, List.zipIdx_append, Nat.add_comm]

end Session

def analyzedIn (sessions : List Session) : Nat := sessions.foldr (fun s n => s.files.length + n) 0

theorem analyzedIn_append (a b : List Session) : analyzedIn (a ++ b) = analyzedIn a + analyzedIn b := by
  induction a with
  | nil => simp [analyzedIn]
  | cons s a ih =>
    simp only [analyzedIn, List.cons_append, List.foldr_cons] at ih ⊢
    omega

/-- The events are the sessions that have ended, then the current one. -/
structure Tells (q : Queue) (ended : List Session) (current : Option Session) : Prop where
  sent : q.board.channel.sent = ended.flatMap Session.whole ++ current.toList.flatMap Session.begun
  increasing : (ended ++ current.toList).Pairwise fun a b => a.id < b.id
  nonempty : ∀ s ∈ ended, s.files ≠ []
  completed : q.completed = analyzedIn (ended ++ current.toList)
  session : q.session = current.map (·.id)

/-- What the queue keeps for the events to come. -/
structure Continues (q : Queue) (ended : List Session) (current : Option Session) : Prop
    extends Tells q ended current where
  unused : ∀ s ∈ ended ++ current.toList, s.id < q.board.nextId
  held : ∀ s ∈ current, q.board.units.get? s.id = some { total := none }
  counted : ∀ s ∈ current, q.sessionDone = s.files.length

/-- Nothing that is told has changed, nor the number of workers that are busy. -/
structure SameReports (q q' : Queue) : Prop where
  board : q'.board = q.board
  session : q'.session = q.session
  sessionDone : q'.sessionDone = q.sessionDone
  completed : q'.completed = q.completed
  running : q'.running = q.running

namespace SameReports

variable {a b c : Queue}

theorem refl (q : Queue) : SameReports q q := ⟨rfl, rfl, rfl, rfl, rfl⟩

theorem trans (h : SameReports a b) (h' : SameReports b c) : SameReports a c :=
  ⟨h'.board.trans h.board, h'.session.trans h.session, h'.sessionDone.trans h.sessionDone,
    h'.completed.trans h.completed, h'.running.trans h.running⟩

end SameReports

theorem Continues.of_eq {q q' : Queue} {ended : List Session} {current : Option Session}
    (h : q.Continues ended current) (hboard : q'.board = q.board) (hsession : q'.session = q.session)
    (hdone : q'.sessionDone = q.sessionDone) (hcompleted : q'.completed = q.completed) :
    q'.Continues ended current where
  sent := by rw [hboard]; exact h.sent
  increasing := h.increasing
  nonempty := h.nonempty
  completed := by rw [hcompleted]; exact h.completed
  session := by rw [hsession]; exact h.session
  unused := by rw [hboard]; exact h.unused
  held := by rw [hboard]; exact h.held
  counted := by rw [hdone]; exact h.counted

theorem sameReports_enqueue (q : Queue) (p : Path) : SameReports q (q.enqueue p) := by
  rw [enqueue]
  split <;> exact ⟨rfl, rfl, rfl, rfl, rfl⟩

theorem sameReports_invalidate (q : Queue) (p : Path) (t : Trigger) :
    SameReports q (q.invalidate p t) := by
  rw [invalidate]
  split
  · exact ⟨rfl, rfl, rfl, rfl, rfl⟩
  · have hstale : SameReports q ((q.raiseTrigger p t).setPhase p .stale) := ⟨rfl, rfl, rfl, rfl, rfl⟩
    exact hstale.trans (sameReports_enqueue _ p)

theorem sameReports_foldl_invalidate (q : Queue) (paths : List Path) (t : Trigger) :
    SameReports q (paths.foldl (fun q p => q.invalidate p t) q) := by
  induction paths generalizing q with
  | nil => exact .refl q
  | cons p paths ih => exact (sameReports_invalidate q p t).trans (ih _)

theorem sameReports_foldl_promise (q : Queue) (promises : List (Path × List String)) :
    SameReports q (promises.foldl (fun q p => q.promise p.1 p.2) q) := by
  induction promises generalizing q with
  | nil => exact .refl q
  | cons p promises ih =>
    have hone : SameReports q (q.promise p.1 p.2) := ⟨rfl, rfl, rfl, rfl, rfl⟩
    exact hone.trans (ih _)

theorem sameReports_settleAnalysis (q : Queue) (path : Path) (again : Bool) (a : Analysis) :
    SameReports q (q.settleAnalysis path again a) := by
  rw [settleAnalysis_eq]
  refine SameReports.trans ?_ (sameReports_foldl_invalidate _ _ _)
  rw [putDown]
  split
  · refine SameReports.trans ?_ (sameReports_enqueue _ path)
    split <;> exact ⟨rfl, rfl, rfl, rfl, rfl⟩
  · split <;> split <;> exact ⟨rfl, rfl, rfl, rfl, rfl⟩

theorem sameReports_settleFailure (q : Queue) (path : Path) (again : Bool) :
    SameReports q (q.settleFailure path again) := by
  have hput : SameReports q ((q.setPhase path .stale).release path).1 := ⟨rfl, rfl, rfl, rfl, rfl⟩
  rw [settleFailure]
  split
  · exact hput.trans (sameReports_enqueue _ path)
  · exact hput

/-! ## One operation at a time -/

namespace Continues

variable {q : Queue} {ended : List Session} {current : Option Session}

theorem start : Continues {} [] none where
  sent := rfl
  increasing := List.Pairwise.nil
  nonempty s hs := by simp at hs
  completed := rfl
  session := rfl
  unused s hs := by simp at hs
  held s hs := by simp at hs
  counted s hs := by simp at hs

theorem begin (h : q.Continues ended none) :
    q.openSession.Continues ended (some ⟨q.board.nextId, []⟩) := by
  have hsent : q.board.channel.sent = ended.flatMap Session.whole := by
    simpa using h.sent
  have hincreasing : ended.Pairwise fun a b => a.id < b.id := by simpa using h.increasing
  have hunused : ∀ s ∈ ended, s.id < q.board.nextId := by simpa using h.unused
  have hcompleted : q.completed = analyzedIn ended := by simpa using h.completed
  have hopen : q.openSession =
      { q with
        board := (q.board.start "Indexing" none).1
        session := some q.board.nextId
        sessionDone := 0 } := by
    rw [Queue.openSession, h.session]
    rfl
  rw [hopen]
  constructor
  · constructor
    · simp [ProgressBoard.start, ProgressBoard.send, Channel.send, hsent, Session.begun,
        Session.reports]
    · refine List.pairwise_append.mpr ⟨hincreasing, List.pairwise_singleton _ _, ?_⟩
      intro s hs s' hs'
      rw [List.mem_singleton.mp hs']
      exact hunused s hs
    · exact h.nonempty
    · rw [analyzedIn_append]
      exact hcompleted
    · rfl
  · intro s hs
    rcases List.mem_append.mp hs with hs | hs
    · exact Nat.lt_succ_of_lt (hunused s hs)
    · rw [List.mem_singleton.mp hs]
      exact Nat.lt_succ_self _
  · rintro s ⟨⟩
    exact ProgressBoard.get?_units_start _ _ _
  · rintro s ⟨⟩
    rfl

theorem openSession (h : q.Continues ended current) :
    ∃ s, q.openSession.Continues ended (some s) ∧ ∀ s' ∈ current, s' = s := by
  cases current with
  | none => exact ⟨_, h.begin, fun s' hs => by simp at hs⟩
  | some s =>
    have hsame : q.openSession = q := by rw [Queue.openSession, h.session]; rfl
    rw [hsame]
    exact ⟨s, h, fun s' hs => (Option.some.inj hs).symm⟩

theorem takeOne {q' : Queue} {job : Path × Trigger} (h : q.Continues ended current)
    (htake : q.takeOne = some (q', job)) :
    ∃ s, q'.Continues ended (some s) ∧ ∀ s' ∈ current, s' = s := by
  rw [Queue.takeOne] at htake
  split at htake
  · simp at htake
  · rename_i path rest hqueue
    obtain ⟨rfl, -⟩ := Prod.mk.inj (Option.some.inj htake)
    have htaken : ({ q with
        queue := rest
        queued := q.queued.erase path
        triggers := q.triggers.erase path
        running := q.running + 1
        currentPath := some path }.setPhase path .analyzing).Continues ended current :=
      h.of_eq rfl rfl rfl rfl
    exact htaken.openSession

/-- A session that is open stays the current one, and with the first file taken one is open. -/
theorem takeMany (h : q.Continues ended current) (n : Nat) :
    ∃ next, (Queue.takeMany n q).1.Continues ended next ∧ (∀ s ∈ current, next = some s) ∧
      (q.running < (Queue.takeMany n q).1.running → next.isSome = true) := by
  induction n generalizing q current with
  | zero => exact ⟨current, h, fun s hs => hs, fun hlt => absurd hlt (Nat.lt_irrefl _)⟩
  | succ n ih =>
    rw [Queue.takeMany]
    split
    · exact ⟨current, h, fun s hs => hs, fun hlt => absurd hlt (Nat.lt_irrefl _)⟩
    · rename_i q' job htake
      obtain ⟨s, hs, hkept⟩ := h.takeOne htake
      obtain ⟨next, hnext, hsame, -⟩ := ih hs
      obtain rfl := hsame s rfl
      exact ⟨some s, hnext, fun s' hs' => by rw [hkept s' hs'], fun _ => rfl⟩

/-- The file of an analysis that is over is reported with the count of the files so far. -/
theorem report {q₀ : Queue} {s : Session} (h : q₀.Continues ended (some s)) (path : Path)
    (hboard : q.board = q₀.board) (hsession : q.session = q₀.session)
    (hdone : q.sessionDone = q₀.sessionDone + 1) (hcompleted : q.completed = q₀.completed + 1) :
    (q.reportFile path).Continues ended (some (s.add path)) := by
  have hunit := h.held s rfl
  have hreport : q.reportFile path =
      { q with
        board := q₀.board.send
          (.reported s.id (some path.spelling) (s.files.length + 1) none) } := by
    rw [reportFile, hsession, h.session]
    simp only [Option.map_some]
    rw [hboard, hdone, h.counted s rfl, ProgressBoard.send_of_report hunit]
  have hids : (ended ++ [s.add path]).map (·.id) = (ended ++ [s]).map (·.id) := by
    simp [Session.add]
  rw [hreport]
  constructor
  · constructor
    · simp [ProgressBoard.send, Channel.send, h.sent, Session.begun_add]
    · have hincreasing := List.pairwise_map.mpr h.increasing
      exact List.pairwise_map.mp (hids ▸ hincreasing)
    · exact h.nonempty
    · have hbefore := h.completed
      simp only [Option.toList_some, analyzedIn_append] at hbefore ⊢
      rw [hcompleted, hbefore]
      simp [analyzedIn, Session.add, Nat.add_assoc]
    · exact hsession.trans h.session
  · intro s' hs'
    obtain ⟨s₀, hs₀, hid⟩ := List.mem_map.mp (hids ▸ List.mem_map_of_mem hs')
    exact hid ▸ h.unused s₀ hs₀
  · rintro s' ⟨⟩
    exact hunit
  · rintro s' ⟨⟩
    rw [hdone, h.counted s rfl]
    simp [Session.add]

/-- At rest the session ends with the count of its files. -/
theorem closeIfIdle {s : Session} (h : q.Continues ended (some s)) (hfiles : s.files ≠ []) :
    (q.closeIfIdle.Continues (ended ++ [s]) none ∧ q.isIdle = true) ∨
      (q.closeIfIdle.Continues ended (some s) ∧ q.isIdle = false) := by
  cases hidle : q.isIdle with
  | false =>
    rw [Queue.closeIfIdle, hidle]
    exact Or.inr ⟨h, rfl⟩
  | true =>
    refine Or.inl ⟨?_, rfl⟩
    generalize hmessage : some (toString s.files.length ++ " files analyzed") = message
    obtain ⟨hchannel, hnext⟩ := ProgressBoard.drop_finish (h.held s rfl) message
    have hclose : q.closeIfIdle = { q with
        currentPath := none
        session := none
        board := (q.board.finish s.id message).drop s.id }.callWaiting := by
      rw [Queue.closeIfIdle, if_pos hidle, h.session]
      simp only [Option.map_some, h.counted s rfl, hmessage]
    rw [hclose]
    constructor
    · constructor
      · simp only [callWaiting, hchannel, Channel.send, h.sent]
        simp [Session.whole, ← hmessage]
      · simpa using h.increasing
      · intro s' hs'
        rcases List.mem_append.mp hs' with hs' | hs'
        · exact h.nonempty s' hs'
        · rw [List.mem_singleton.mp hs']
          exact hfiles
      · rw [Option.toList_none, List.append_nil]
        exact h.completed
      · rfl
    · simp only [callWaiting, hnext]
      simpa using h.unused
    · simp
    · simp

end Continues

/-! ## How many analyses are over -/

theorem completed_takeMany (n : Nat) (q : Queue) : (takeMany n q).1.completed = q.completed := by
  induction n generalizing q with
  | zero => rfl
  | succ n ih =>
    rw [takeMany]
    cases htake : q.takeOne with
    | none => rfl
    | some taken =>
      obtain ⟨q', job⟩ := taken
      have hone : q'.completed = q.completed := by
        rw [takeOne] at htake
        split at htake
        · simp at htake
        · rw [← (Prod.mk.inj (Option.some.inj htake)).1, openSession]
          split <;> rfl
      exact (ih q').trans hone

/-- Only the end of an analysis counts. -/
theorem completed_schedule (q : Queue) (workers : Nat) (paths : List Path)
    (promises : List (Path × List String)) (t : Trigger) :
    (q.schedule workers paths promises t).1.completed = q.completed := by
  have hsame := (sameReports_foldl_promise q promises).trans (sameReports_foldl_invalidate _ paths t)
  exact (completed_takeMany _ _).trans hsame.completed

theorem completed_finish (q : Queue) (workers : Nat) (path : Path) (a : Analysis) :
    (q.finish workers path (some a)).1.completed = q.completed + 1 := by
  have hsettled := (sameReports_settleAnalysis (q.leave path) path (q.rerun.contains path) a).completed
  rw [finish_eq]
  generalize (q.leave path).settleAnalysis path (q.rerun.contains path) a = settled at hsettled
  have hreport : (settled.reportFile path).completed = settled.completed := by
    rw [reportFile]
    split <;> rfl
  have hclose (q : Queue) : q.closeIfIdle.completed = q.completed := by
    rw [closeIfIdle]
    split
    · split <;> rfl
    · rfl
  exact (hclose _).trans ((completed_takeMany _ _).trans (hreport.trans hsettled))

/-! ## Every operation -/

/-- The sessions so far; one is open while a worker is busy. -/
def Sessioned (q : Queue) : Prop :=
  ∃ ended current, q.Continues ended current ∧ (0 < q.running → current.isSome = true)

namespace Sessioned

variable {q q' : Queue}

theorem of_same (h : q.Sessioned) (hsame : SameReports q q') : q'.Sessioned := by
  obtain ⟨ended, current, hcontinues, hworking⟩ := h
  exact ⟨ended, current, hcontinues.of_eq hsame.board hsame.session hsame.sessionDone hsame.completed,
    hsame.running ▸ hworking⟩

theorem takeReady (h : q.Sessioned) (workers : Nat) : (q.takeReady workers).1.Sessioned := by
  obtain ⟨ended, current, hcontinues, hworking⟩ := h
  obtain ⟨next, hnext, hsame, hopens⟩ := hcontinues.takeMany (workers - q.running)
  refine ⟨ended, next, hnext, fun hbusy => ?_⟩
  by_cases hbefore : 0 < q.running
  · obtain ⟨s, hs⟩ := Option.isSome_iff_exists.mp (hworking hbefore)
    rw [hsame s hs]
    rfl
  · exact hopens (Nat.lt_of_le_of_lt (Nat.le_of_not_lt hbefore) hbusy)

theorem finish (h : q.Sessioned) (hbusy : 0 < q.running) (workers : Nat) (path : Path)
    (outcome : Option Analysis) : (q.finish workers path outcome).1.Sessioned := by
  obtain ⟨ended, current, hcontinues, hworking⟩ := h
  obtain ⟨s, rfl⟩ := Option.isSome_iff_exists.mp (hworking hbusy)
  obtain ⟨settled, hsame, hfinish⟩ : ∃ settled, SameReports (q.leave path) settled ∧
      (q.finish workers path outcome).1 =
        ((settled.reportFile path).takeReady workers).1.closeIfIdle := by
    cases outcome with
    | some a => exact ⟨_, sameReports_settleAnalysis _ _ _ a, rfl⟩
    | none => exact ⟨_, sameReports_settleFailure _ _ _, rfl⟩
  rw [hfinish]
  have hreport := hcontinues.report path hsame.board hsame.session hsame.sessionDone hsame.completed
  obtain ⟨next, hnext, hkept, -⟩ := hreport.takeMany (workers - (settled.reportFile path).running)
  obtain rfl := hkept _ rfl
  -- the session just reported in is still the open one when the queue comes to rest
  rcases hnext.closeIfIdle (by simp [Session.add]) with ⟨hclosed, hidle⟩ | ⟨hopen, -⟩
  · refine ⟨_, _, hclosed, fun hrunning => ?_⟩
    rw [(closeIfIdle_places _).2.2.2.2] at hrunning
    rw [isIdle, Bool.and_eq_true, beq_iff_eq] at hidle
    exact absurd hidle.2 (Nat.ne_of_gt hrunning)
  · exact ⟨_, _, hopen, fun _ => rfl⟩

end Sessioned

theorem sessioned_of_reached {workers : Nat} {q : Queue} {l : History} (h : Reached workers q l) :
    q.Sessioned := by
  induction h with
  | start => exact ⟨[], none, .start, fun hbusy => absurd hbusy (Nat.lt_irrefl 0)⟩
  | @schedule q l _ paths promises t ih =>
    have hsame := (sameReports_foldl_promise q promises).trans (sameReports_foldl_invalidate _ paths t)
    exact (ih.of_same hsame).takeReady _
  | take _ ih => exact ih.takeReady _
  | keep _ path ih => exact ih.of_same ⟨rfl, rfl, rfl, rfl, rfl⟩
  | @finish q l hreached path left right hjobs outcome ih =>
    have hrunning := (runs_of_reached hreached).kept.placed.running_eq
    rw [hjobs, List.length_append, List.length_cons] at hrunning
    exact ih.finish (by omega) _ _ _
  | smart _ callback ih =>
    refine ih.of_same ?_
    rw [runWhenSmart]
    split <;> exact ⟨rfl, rfl, rfl, rfl, rfl⟩

/-- With at least one worker: the events of a queue are whole sessions with ever greater numbers, each
with at least one file, and then the current one. All files analyzed are in them, and a session is
open exactly while something is left to do. -/
theorem sessions_of_reached {asked : Nat} {q : Queue} {l : History}
    (h : Reached (Pool.workerCount asked) q l) :
    ∃ ended current, q.Tells ended current ∧ (current.isSome = true ↔ q.isIdle = false) := by
  obtain ⟨ended, current, hcontinues, hworking⟩ := sessioned_of_reached h
  obtain ⟨-, hrests, -, hfull⟩ := runs_of_reached h
  refine ⟨ended, current, hcontinues.toTells, fun hopen => ?_, fun hbusy => hworking ?_⟩
  · rw [← Bool.not_eq_true]
    intro hidle
    have hnone := hcontinues.session.symm.trans (hrests hidle).1
    rw [Option.map_eq_none_iff] at hnone
    rw [hnone] at hopen
    simp at hopen
  · -- what is not at rest has a worker busy, since a free one would have taken the first file
    rw [isIdle, Bool.and_eq_false_iff] at hbusy
    have hworkers : 0 < Pool.workerCount asked :=
      Nat.lt_of_lt_of_le Nat.zero_lt_one (Nat.le_max_right _ _)
    rcases hbusy with hqueue | hrunning
    · rcases hfull with hempty | hfull
      · simp [hempty] at hqueue
      · exact Nat.lt_of_lt_of_le hworkers hfull
    · exact Nat.pos_of_ne_zero (by simpa using hrunning)

/-- With two workers: a file is asked for again while it is analyzed, the analysis of the other one
breaks off, and after a rest a second session begins. -/
theorem sessions_of_reached_twice :
    ∃ q l, Reached (Pool.workerCount 2) q l ∧
      q.board.channel.sent = [.started 1 "Indexing" none,
        .reported 1 (some "/a.java") 1 none, .reported 1 (some "/b.java") 2 none,
        .reported 1 (some "/a.java") 3 none, .ended 1 (some "3 files analyzed"),
        .started 2 "Indexing" none] ∧
      ∃ ended current, q.Tells ended current ∧ (current.isSome = true ↔ q.isIdle = false) := by
  have hstart : Reached (Pool.workerCount 2) {} {} := .start
  have hasked := hstart.schedule [⟨"/a.java"⟩, ⟨"/b.java"⟩] [] .content
  have hagain := hasked.schedule [⟨"/a.java"⟩] [] .dependency
  have hjobs (l : History) (left right : List Path) (path : Path)
      (h : l.jobs.map (·.spelling) = (left ++ path :: right).map (·.spelling)) :
      l.jobs = left ++ path :: right := Path.eq_of_spelling h
  have hfirst := hagain.finish (hjobs _ [⟨"/b.java"⟩] [] ⟨"/a.java"⟩ (by decide +kernel)) (some {})
  have hbroken := hfirst.finish (hjobs _ [⟨"/a.java"⟩] [] ⟨"/b.java"⟩ (by decide +kernel)) none
  have hrest := hbroken.finish (hjobs _ [] [] ⟨"/a.java"⟩ (by decide +kernel)) (some {})
  have hlast := hrest.schedule [⟨"/b.java"⟩] [] .content
  exact ⟨_, _, hlast, by decide +kernel, sessions_of_reached hlast⟩

end Queue

end JavaAtlas
