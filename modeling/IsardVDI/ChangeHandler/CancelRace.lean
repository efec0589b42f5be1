import IsardVDI.ChangeHandler.Dispatch
import IsardVDI.Tasks.Cancel

/-!
# `models/task.py`, `streams/task_results_consumer.py` — a cancel against workers and dispatches

A call of `Task.cancel` runs next to the workers that take and finish jobs of the chain and to
the dispatches of their result entries, each one Redis command at a time. A worker publishes its
entry before RQ settles the job and releases the dependents. A dispatch reads the cancel record
first, and builds the knot children of a live chain long after.
-/

namespace IsardVDI.ChangeHandler

open Function

/-! ## The parties -/

inductive WorkerPhase (U : Type) where
  | idle
  /-- Popped from its queue, not begun. -/
  | holding (id : Ident U)
  | running (id : Ident U)
  /-- The body ended and the result entry is out. -/
  | published (id : Ident U) (ok : Bool)
  /-- RQ has read the dependents it will release. -/
  | finishing (id : Ident U) (dependents : List (Ident U))

/-- Where a dispatch stands. `dead` is the status the chain died with, as the dispatch found it. -/
inductive DispatchPhase (U C : Type) where
  | idle
  | received (entry : Entry U)
  /-- The record was read. The task's own status is read next. -/
  | settling (entry : Entry U) (dead : Option JobStatus)
  /-- The task is not cancelled. Its status is written next. -/
  | marking (entry : Entry U) (dead : Option JobStatus)
  /-- A live chain: the anchor's lock is next. -/
  | waiting (anchor : Ident U)
  /-- In the lock: the rest of the build of one knot child, and the knot children after it. -/
  | building (anchor : Ident U) (commands : List (BuildCommand U C))
      (children : List (Ident U × Child C))

/-- The jobs of the chain, those on a queue being `rq.pushed`; the workers, the dispatches, the
locks they hold and the cancel; the entries on the stream; and the jobs that were ever started. -/
structure System (U C W D : Type) where
  rq : Rq U C
  worker : W → WorkerPhase U
  dispatcher : D → DispatchPhase U C
  locks : List (Ident U)
  canceller : CancelPhase U C
  entries : List (Entry U)
  started : List (Ident U)

inductive WorkerCommand (U : Type) where
  | pop (id : Ident U)
  /-- `_push_back`: the governor denies the slot. -/
  | pushBack
  | start
  | publish (ok : Bool)
  | readDependents
  | complete
  | fail
  /-- RQ puts a failed job with retries left on its queue again. -/
  | retry

inductive DispatchCommand where
  /-- Read or claim an entry. -/
  | receive (index : Nat)
  | checkRecord
  | readStatus
  | writeStatus
  | walk
  /-- The step's handler raised, or no worker serves the child's lane. -/
  | skip
  | checkExists
  | build
  | release

inductive Action (U W D : Type) where
  | work (w : W) (command : WorkerCommand U)
  | dispatch (d : D) (command : DispatchCommand)
  /-- `Task.cancel` is called on a member. -/
  | cancel (id : Ident U)
  | advance

section Machine

variable {U C W D : Type} [DecidableEq U] [DecidableEq W] [DecidableEq D]

/-! ## Workers -/

/-- The id is a storage dependent of the job, and not a knot child. -/
def dependsOn (job id : Ident U) : Bool :=
  match id.path.getLast? with
  | some (.dep i) => id = job.dependent i
  | some (.cf _) | some (.sd _) | none => false

/-- The dependents that wait on a job: RQ keeps them as a set, and releases those that are not
cancelled. -/
def deferredDependents (store : Store U C) (id : Ident U) : List (Ident U) :=
  match store.fetch id with
  | none => []
  | some job =>
    (job.dependentIds.filter fun i => dependsOn id i &&
      match store.fetch i with
      | some dependent => match dependent.status with
        | .ok status => status = .deferred
        | .error _ => false
      | none => false).dedup

def resultEntry (id : Ident U) (ok : Bool) : Entry U where
  kind := .result
  taskId := id
  jobStatus := some (if ok then .finished else .failed)

variable (s : System U C W D)

def System.work (w : W) (command : WorkerCommand U) : Option (System U C W D) :=
  match s.worker w, command with
  | .idle, .pop id =>
    if id ∈ s.rq.pushed then
      some { s with
        rq := { s.rq with pushed := s.rq.pushed.erase id }
        worker := update s.worker w (.holding id) }
    else none
  | .holding id, .pushBack =>
    some { s with
      rq := { s.rq with pushed := id :: s.rq.pushed }
      worker := update s.worker w .idle }
  | .holding id, .start =>
    some { s with
      rq := s.rq.setStatus id .started
      worker := update s.worker w (.running id)
      started := id :: s.started }
  | .running id, .publish ok =>
    some { s with
      worker := update s.worker w (.published id ok)
      entries := s.entries ++ [resultEntry id ok] }
  | .published id true, .readDependents =>
    some { s with
      worker := update s.worker w (.finishing id (deferredDependents s.rq.store id)) }
  | .finishing id dependents, .complete =>
    -- one transaction
    some { s with
      rq := ((dependents.map BuildCommand.push).foldl BuildCommand.exec s.rq).setStatus id .finished
      worker := update s.worker w .idle }
  | .published id false, .fail =>
    some { s with
      rq := s.rq.setStatus id .failed
      worker := update s.worker w .idle }
  | .published id false, .retry =>
    some { s with
      rq := (BuildCommand.push id).exec s.rq
      worker := update s.worker w .idle }
  | _, _ => none

/-! ## Dispatches -/

/-- The knot children of the steps of a live walk, which stays in the tree of the task itself. -/
def liveKnots (anchor : Ident U) (forest : Forest U C) : List (Ident U × Child C) :=
  (walkForest none anchor (.task anchor) forest []).1.flatMap fun step =>
    knotChildren step.id step.storageDependents

def System.setDispatcher (d : D) (phase : DispatchPhase U C) : System U C W D :=
  { s with dispatcher := update s.dispatcher d phase }

/-- After the task is settled: only a live chain builds. The handlers of a dead one leave the
jobs alone. -/
def DispatchPhase.settled (entry : Entry U) : Option JobStatus → DispatchPhase U C
  | none => .waiting entry.taskId
  | some _ => .idle

def System.dispatch (d : D) (command : DispatchCommand) : Option (System U C W D) :=
  match s.dispatcher d, command with
  | .idle, .receive index =>
    (s.entries[index]?).map fun entry => s.setDispatcher d (.received entry)
  | .received entry, .checkRecord =>
    match s.rq.store.fetch entry.taskId with
    | none => some (s.setDispatcher d .idle)
    | some job =>
      if entry.deadChain job = some .canceled then some (s.setDispatcher d .idle)
      else some (s.setDispatcher d (.settling entry (entry.deadChain job)))
  | .settling entry dead, .readStatus =>
    match s.rq.store.fetch entry.taskId with
    | none => some (s.setDispatcher d (.settled entry dead))
    | some job =>
      match job.status with
      | .ok .canceled => some (s.setDispatcher d (.settled entry dead))
      | _ => some (s.setDispatcher d (.marking entry dead))
  | .marking entry dead, .writeStatus =>
    some { s.setDispatcher d (.settled entry dead) with
      rq := s.rq.setStatus entry.taskId
        (if entry.jobStatus = some .failed then .failed else .finished) }
  | .waiting anchor, .walk =>
    if anchor ∈ s.locks then none
    else
      match s.rq.store.fetch anchor with
      | none => some (s.setDispatcher d .idle)
      | some job =>
        some { s.setDispatcher d (.building anchor [] (liveKnots anchor job.coreFinalize)) with
          locks := anchor :: s.locks }
  | .building anchor [] (_ :: children), .skip =>
    some (s.setDispatcher d (.building anchor [] children))
  | .building anchor [] (knot :: children), .checkExists =>
    if s.rq.store.exists knot.1 then some (s.setDispatcher d (.building anchor [] children))
    else
      some (s.setDispatcher d
        (.building anchor (buildTask knot.1 [anchor] knot.2.dependents) children))
  | .building anchor (command :: commands) children, .build =>
    some { s.setDispatcher d (.building anchor commands children) with rq := command.exec s.rq }
  | .building anchor [] [], .release =>
    some { s.setDispatcher d .idle with locks := s.locks.erase anchor }
  | _, _ => none

/-! ## The machine -/

def canceledEntry (id : Ident U) : Entry U where
  kind := .canceled
  taskId := id
  jobStatus := some .canceled

/-- The cancel has executed a command, and announced a root if there is one. -/
def System.advanceTo (phase : CancelPhase U C) (rq : Rq U C)
    (announced : Option (Ident U)) : System U C W D :=
  { s with
    canceller := phase
    rq := rq
    entries := s.entries ++ (announced.map canceledEntry).toList }

def System.next (le : Ident U → Ident U → Bool) (s : System U C W D) :
    Action U W D → Option (System U C W D)
  | .work w command => s.work w command
  | .dispatch d command => s.dispatch d command
  | .cancel id =>
    match s.canceller, s.rq.store.fetch id with
    | .idle, some job => some { s with canceller := .collecting [(id, job)] [(id, job)] [] }
    | _, _ => none
  | .advance =>
    (s.canceller.next le s.rq).map fun (phase, rq, announced) => s.advanceTo phase rq announced

def cancelRace (le : Ident U → Ident U → Bool) : Machine (System U C W D) (Action U W D) where
  next := System.next le

def System.built (b : Blueprint U C) : System U C W D where
  rq := b.built
  worker := fun _ => .idle
  dispatcher := fun _ => .idle
  locks := []
  canceller := .idle
  entries := []
  started := []

end Machine

end IsardVDI.ChangeHandler
