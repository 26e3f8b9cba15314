import JavaAtlas.Data.SortedSet
import JavaAtlas.Naming
import JavaAtlas.Path
import JavaAtlas.Progress.Board

/-!
# The recompute queue

Files that need an analysis wait in order, at most once each. A file that changes while it is being
analyzed is flagged and queued again afterwards. From the first file taken until the queue is empty
one progress session is open.
-/

namespace JavaAtlas

set_option autoImplicit false

inductive FilePhase
  | unanalyzed
  | analyzing
  | fresh
  | stale
deriving DecidableEq

instance : Named FilePhase where
  all := [.unanalyzed, .analyzing, .fresh, .stale]
  name
    | .unanalyzed => "Unanalyzed"
    | .analyzing => "Analyzing"
    | .fresh => "Fresh"
    | .stale => "Stale"

inductive Trigger
  /-- Its text is new; a stored record for the same content will do. -/
  | content
  /-- Something it is bound to changed; its names must be bound again. -/
  | dependency
deriving DecidableEq

def Trigger.max : Trigger → Trigger → Trigger
  | .content, t => t
  | .dependency, _ => .dependency

structure Analysis where
  /-- The file is gone. -/
  removed : Bool := false
  fromCache : Bool := false
  /-- Other files that must be analyzed again. -/
  stale : SortedSet Path := ∅
  /-- The file itself must be analyzed again. -/
  requeue : Bool := false

structure Queue where
  phases : SortedMap Path FilePhase := ∅
  /-- The strongest trigger of each waiting or flagged file. -/
  triggers : SortedMap Path Trigger := ∅
  queue : List Path := []
  queued : SortedSet Path := ∅
  /-- Files that changed during their analysis. -/
  rerun : SortedSet Path := ∅
  running : Nat := 0
  completed : Nat := 0
  cacheHits : Nat := 0
  currentPath : Option Path := none
  /-- The open progress session and how many files it has seen. -/
  session : Option Nat := none
  sessionDone : Nat := 0
  board : ProgressBoard := default
  /-- The types a waiting file will declare, known from a record that matches its text. -/
  promises : SortedMap Path (List String) := ∅
  /-- How often each type is promised. -/
  promised : SortedMap String Nat := ∅
  /-- Callbacks to be run, by number, once nothing is left to do. -/
  waiting : List Nat := []
  /-- Callbacks that were run or handed over to be run, in this order. -/
  called : List Nat := []

namespace Queue

instance : Inhabited Queue := ⟨{}⟩

def isIdle (q : Queue) : Bool := q.queue.isEmpty && q.running == 0

/-! ## Promises -/

def countPromise (promised : SortedMap String Nat) (fqn : String) : SortedMap String Nat :=
  promised.alter fqn fun n => some (n.getD 0 + 1)

def uncountPromise (promised : SortedMap String Nat) (fqn : String) : SortedMap String Nat :=
  promised.alter fqn fun n =>
    match n with
    | none => none
    | some n => if n - 1 = 0 then none else some (n - 1)

/-- Takes back what was promised for a file, and says what that was. -/
def release (q : Queue) (path : Path) : Queue × List String :=
  let types := (q.promises.get? path).getD []
  ({ q with
      promises := q.promises.erase path
      promised := types.foldl uncountPromise q.promised }, types)

/-- Promises that a file will declare some types. -/
def promise (q : Queue) (path : Path) (types : List String) : Queue :=
  let q := (q.release path).1
  { q with
    promises := q.promises.insert path types
    promised := types.foldl countPromise q.promised }

/-! ## Waiting -/

def raiseTrigger (q : Queue) (path : Path) (trigger : Trigger) : Queue :=
  { q with triggers := q.triggers.alter path fun t => some ((t.getD trigger).max trigger) }

def enqueue (q : Queue) (path : Path) : Queue :=
  if q.queued.contains path then q
  else { q with queue := q.queue ++ [path], queued := q.queued.insert path () }

def setPhase (q : Queue) (path : Path) (phase : FilePhase) : Queue :=
  { q with phases := q.phases.insert path phase }

/-- A file needs an analysis: it waits, or is flagged if it is being analyzed. -/
def invalidate (q : Queue) (path : Path) (trigger : Trigger) : Queue :=
  let q := q.raiseTrigger path trigger
  if q.phases.get? path = some .analyzing then { q with rerun := q.rerun.insert path () }
  else (q.setPhase path .stale).enqueue path

/-! ## Taking and finishing -/

def openSession (q : Queue) : Queue :=
  match q.session with
  | some _ => q
  | none =>
    let (board, id) := q.board.start "Indexing" none
    { q with board := board, session := some id, sessionDone := 0 }

def takeOne (q : Queue) : Option (Queue × (Path × Trigger)) :=
  match q.queue with
  | [] => none
  | path :: rest =>
    let trigger := (q.triggers.get? path).getD .content
    let q := { q with
      queue := rest
      queued := q.queued.erase path
      triggers := q.triggers.erase path
      running := q.running + 1
      currentPath := some path }
    some ((q.setPhase path .analyzing).openSession, (path, trigger))

def takeMany : Nat → Queue → Queue × List (Path × Trigger)
  | 0, q => (q, [])
  | n + 1, q =>
    match q.takeOne with
    | none => (q, [])
    | some (q, job) =>
      let (q, jobs) := takeMany n q
      (q, job :: jobs)

def takeReady (q : Queue) (workers : Nat) : Queue × List (Path × Trigger) :=
  takeMany (workers - q.running) q

/-- What an analysis that came to an end means for its file and for others. -/
def settleAnalysis (q : Queue) (path : Path) (again : Bool) (a : Analysis) : Queue :=
  let q := if a.fromCache then { q with cacheHits := q.cacheHits + 1 } else q
  let q :=
    if again then (q.setPhase path .stale).enqueue path
    else if a.removed then { q with phases := q.phases.erase path }
    else q.setPhase path .fresh
  let q := if a.requeue then q.invalidate path .dependency else q
  (SortedSet.toList a.stale).foldl (fun q p => q.invalidate p .dependency) q

/-- An analysis that broke off leaves its file stale. -/
def settleFailure (q : Queue) (path : Path) (again : Bool) : Queue :=
  let q := ((q.setPhase path .stale).release path).1
  if again then q.enqueue path else q

def reportFile (q : Queue) (path : Path) : Queue :=
  match q.session with
  | none => q
  | some id => { q with board := q.board.report id (some path.spelling) q.sessionDone }

def callWaiting (q : Queue) : Queue := { q with waiting := [], called := q.called ++ q.waiting }

/-- Ends the session and hands over the callbacks when nothing is left to do. -/
def closeIfIdle (q : Queue) : Queue :=
  if q.isIdle then
    match q.session with
    | none => { q with currentPath := none }.callWaiting
    | some id =>
      let message := toString q.sessionDone ++ " files analyzed"
      { q with
        currentPath := none
        session := none
        board := (q.board.finish id (some message)).drop id }.callWaiting
  else q

/-- The analysis of a file is over, with a result or without; gives the files to take up next. -/
def finish (q : Queue) (workers : Nat) (path : Path) (outcome : Option Analysis) :
    Queue × List (Path × Trigger) :=
  let again := q.rerun.contains path
  let q := { q with
    running := q.running - 1
    completed := q.completed + 1
    sessionDone := q.sessionDone + 1
    rerun := q.rerun.erase path }
  let q := match outcome with
    | some a => q.settleAnalysis path again a
    | none => q.settleFailure path again
  let (q, ready) := (q.reportFile path).takeReady workers
  (q.closeIfIdle, ready)

def schedule (q : Queue) (workers : Nat) (paths : List Path)
    (promises : List (Path × List String)) (trigger : Trigger) : Queue × List (Path × Trigger) :=
  let q := promises.foldl (fun q p => q.promise p.1 p.2) q
  let q := paths.foldl (fun q p => q.invalidate p trigger) q
  q.takeReady workers

def runWhenSmart (q : Queue) (callback : Nat) : Queue :=
  if q.isIdle then { q with called := q.called ++ [callback] }
  else { q with waiting := q.waiting ++ [callback] }

end Queue

end JavaAtlas
