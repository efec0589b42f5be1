import Mathlib.Tactic.Common

/-!
# `models/task.py` — job statuses

The statuses of an RQ job, the groups of them the code asks for, and `global_status`, which
reads the statuses of several tasks by priority. Reading a status is a Redis command of its own
and may raise.
-/

namespace IsardVDI

inductive JobStatus where
  | created
  | queued
  | finished
  | failed
  | started
  | deferred
  | scheduled
  | stopped
  | canceled
  deriving DecidableEq, Repr

inductive RqError where
  | noSuchJob
  | invalidJobOperation
  | other
  deriving DecidableEq, Repr

namespace JobStatus

def terminal : JobStatus → Bool
  | .finished | .failed | .stopped | .canceled => true
  | .created | .queued | .started | .deferred | .scheduled => false

/-- `active` of `Task.pending` and `Task.chain_pending`: a worker has the job or will take it. -/
def active : JobStatus → Bool
  | .started | .scheduled | .queued => true
  | .created | .finished | .failed | .deferred | .stopped | .canceled => false

/-- A status a deferred job may legitimately wait for. -/
def unsettled (status : JobStatus) : Bool := status.active || status = .deferred

end JobStatus

def statusPriority : List JobStatus :=
  [.canceled, .failed, .started, .scheduled, .stopped, .queued, .deferred, .finished]

/-- The inner loop of `global_status`: some task has this status. -/
def anyHasStatus (status : JobStatus) : List (Except RqError JobStatus) → Except RqError Bool
  | [] => .ok false
  | read :: reads => do
    if (← read) = status then return true
    anyHasStatus status reads

/-- The outer loop of `global_status`. `none` is `"unknown"`. -/
def firstStatus (reads : List (Except RqError JobStatus)) :
    List JobStatus → Except RqError (Option JobStatus)
  | [] => .ok none
  | status :: rest => do
    if ← anyHasStatus status reads then return some status
    firstStatus reads rest

def globalStatus (reads : List (Except RqError JobStatus)) : Except RqError (Option JobStatus) :=
  firstStatus reads statusPriority

variable {reads : List (Except RqError JobStatus)} {status : JobStatus}

theorem anyHasStatus_true (h : anyHasStatus status reads = .ok true) : .ok status ∈ reads := by
  induction reads with
  | nil => cases h
  | cons read reads ih =>
    cases read with
    | error e => cases h
    | ok st =>
      by_cases hst : st = status
      · rw [hst]
        exact .head _
      · refine .tail _ (ih ?_)
        simpa [anyHasStatus, hst, bind, Except.bind] using h

theorem globalStatus_mem (h : globalStatus reads = .ok (some status)) : .ok status ∈ reads := by
  unfold globalStatus at h
  generalize statusPriority = priority at h
  induction priority with
  | nil => cases h
  | cons p rest ih =>
    cases hp : anyHasStatus p reads with
    | error e => simp [firstStatus, hp, bind, Except.bind] at h
    | ok found =>
      cases found with
      | false => exact ih (by simpa [firstStatus, hp, bind, Except.bind] using h)
      | true =>
        have heq : p = status := by
          simpa [firstStatus, hp, bind, Except.bind, pure, Except.pure] using h
        rw [← heq]
        exact anyHasStatus_true hp

end IsardVDI
