import IsardVDI.Lib.Machine
import Mathlib.Tactic.SplitIfs

/-!
# The guard of a domain with an unanswered call

`domain_guard` and the actions of the hypervisor workers on one domain. A libvirt call that times
out goes on running; the worker remembers it as its call in flight and holds the domain, and no
worker starts a domain that is held. The guard has one entry for the domain, which any worker
overwrites; a worker releases it if the entry is its own.
-/

namespace IsardVDI.Engine.Guard

open List Function Option

inductive Kind
  | create
  | destroy
  | lookup
deriving DecidableEq

/-- A call that timed out; its answer, once there is one, is whether it raised nothing. -/
structure Call (W : Type) where
  worker : W
  kind : Kind
  answer : Option Bool
deriving DecidableEq

structure Entry (W : Type) where
  hypId : W
  operation : Kind
deriving DecidableEq

/-- What a worker remembers of the domain; a call is its place among those that timed out. -/
structure Worker where
  inflight : Option (Kind × Nat)
  stopRetry : Option Nat
  /-- the `reconcile_late_create` actions that wait for their call -/
  late : List Nat
  /-- a start has passed the check of the guard -/
  creating : Bool

structure State (W : Type) where
  guard : Option (Entry W)
  calls : List (Call W)
  workers : W → Worker

section Model

variable {W : Type} [DecidableEq W]

namespace State

variable (s : State W) (w : W)

def hold (operation : Kind) : State W :=
  { s with guard := some ⟨w, operation⟩ }

def release : State W :=
  { s with guard := s.guard.filter fun entry => entry.hypId ≠ w }

def setWorker (worker : Worker) : State W :=
  { s with workers := update s.workers w worker }

def timeOut (kind : Kind) : State W :=
  { s with calls := s.calls ++ [⟨w, kind, none⟩] }

def done (call : Nat) : Bool :=
  (s.calls[call]?.bind (·.answer)).isSome

def succeeded (call : Nat) : Bool :=
  s.calls[call]?.bind (·.answer) = some true

/-! ## The actions -/

/-- `_refuse_start_while_held`; `createXML` is called next. -/
def start : State W :=
  match s.guard with
  | some _ => s
  | none => s.setWorker w { s.workers w with creating := true }

end State

inductive Created
  | answered
  | timedOut
  /-- `createXML` with 4K pages, after an error of the first -/
  | fallbackTimedOut
  /-- the destroy that ends the test of a paused domain -/
  | pausedDestroyTimedOut
deriving DecidableEq

/-- The end of a start; a `createXML` that times out is tracked by `_track_late_create`. -/
def State.create (s : State W) (w : W) : Created → State W
  | .answered => s.setWorker w { s.workers w with creating := false }
  | .timedOut =>
    ((s.timeOut w .create).hold w .create).setWorker w
      { s.workers w with
        creating := false
        inflight := some (.create, s.calls.length)
        late := (s.workers w).late ++ [s.calls.length] }
  | .fallbackTimedOut =>
    (s.timeOut w .create).setWorker w { s.workers w with creating := false }
  | .pausedDestroyTimedOut =>
    (s.timeOut w .destroy).setWorker w { s.workers w with creating := false }

inductive Stopped
  | lookupTimedOut
  | lookupFailed
  /-- `VIR_ERR_NO_DOMAIN` of either call -/
  | noDomain
  | destroyed
  | destroyTimedOut
  | destroyFailed
deriving DecidableEq

inductive StopEffect
  /-- its token is not the one of the retry -/
  | settled
  /-- a call is in flight: retry later -/
  | wait
  /-- `_finalize_domain_stop` -/
  | finalize
  /-- a call timed out: retry when it answers, or later -/
  | retry (kind : Kind)
  | failed
deriving DecidableEq

def Stopped.effect : Stopped → StopEffect
  | .lookupTimedOut => .retry .lookup
  | .noDomain | .destroyed => .finalize
  | .destroyTimedOut => .retry .destroy
  | .lookupFailed | .destroyFailed => .failed

variable (s : State W)

/-- The decisions of `_handle_stop_domain`. -/
def State.stopEffect (w : W) (token : Option Nat) (stopped : Stopped) : StopEffect :=
  -- a retry whose stop has been resolved, or has another retry, does nothing
  if token.isSome ∧ (s.workers w).stopRetry ≠ token then .settled
  else
    match (s.workers w).inflight with
    | none => stopped.effect
    | some (kind, call) =>
      if ¬s.done call then .wait
      -- the destroy that had timed out went through
      else if kind = .destroy ∧ s.succeeded call then .finalize
      else stopped.effect

/-- `_handle_stop_domain`; `fresh` is the token of a first retry. -/
def State.stop (w : W) (token : Option Nat) (fresh : Nat) (stopped : Stopped) : State W :=
  match s.stopEffect w token stopped with
  | .settled => s
  | .wait =>
    (s.hold w .destroy).setWorker w { s.workers w with stopRetry := some (token.getD fresh) }
  | .finalize =>
    (s.release w).setWorker w { s.workers w with stopRetry := none, inflight := none }
  | .retry kind =>
    ((s.timeOut w kind).hold w .destroy).setWorker w
      { s.workers w with
        stopRetry := some (token.getD fresh)
        inflight := some (kind, s.calls.length) }
  | .failed => s.setWorker w { s.workers w with inflight := none }

/-- `_handle_reconcile_late_create`: the create failed, or its domain is adopted or destroyed. -/
def State.reconcile (w : W) (call : Nat) (destroyTimedOut : Bool) : State W :=
  let released := (s.release w).setWorker w
    { s.workers w with
      inflight := (s.workers w).inflight.filter fun entry => entry.2 ≠ call
      late := (s.workers w).late.erase call }
  if s.succeeded call ∧ destroyTimedOut then released.timeOut w .destroy else released

def State.answer (s : State W) (call : Nat) (success : Bool) : State W :=
  { s with calls := s.calls.modify call ({ · with answer := some success }) }

inductive Event (W : Type)
  | start (w : W)
  | create (w : W) (created : Created)
  | stop (w : W) (token : Option Nat) (fresh : Nat) (stopped : Stopped)
  | reconcile (w : W) (call : Nat) (destroyTimedOut : Bool)
  | answer (call : Nat) (success : Bool)

/-- The actions of all workers, each worker with one at a time. A late create is queued when its
call answers. -/
def workers : Machine (State W) (Event W) where
  next s
    | .start w => if (s.workers w).creating then none else some (s.start w)
    | .create w created => if (s.workers w).creating then some (s.create w created) else none
    | .stop w token fresh stopped =>
      if (s.workers w).creating then none else some (s.stop w token fresh stopped)
    | .reconcile w call destroyTimedOut =>
      if ¬(s.workers w).creating ∧ call ∈ (s.workers w).late ∧ s.done call then
        some (s.reconcile w call destroyTimedOut)
      else none
    | .answer call success =>
      if call < s.calls.length ∧ ¬s.done call then some (s.answer call success) else none

def initial : State W where
  guard := none
  calls := []
  workers _ := { inflight := none, stopRetry := none, late := [], creating := false }

/-! ## Held while unanswered -/

/-- A create or destroy that timed out and has not answered. -/
def Call.Open (call : Call W) : Prop :=
  call.kind ≠ .lookup ∧ call.answer = none

instance (call : Call W) : Decidable call.Open :=
  inferInstanceAs (Decidable (_ ∧ _))

def State.Unanswered : Prop :=
  ∃ call ∈ s.calls, call.Open

def State.Idle (w : W) : Prop :=
  ∀ call ∈ s.calls, call.worker = w → ¬call.Open

def State.Own (w : W) : Prop :=
  ∀ entry ∈ s.guard, entry.hypId = w

instance (s : State W) (w : W) : Decidable (s.Idle w) :=
  inferInstanceAs (Decidable (∀ _ ∈ s.calls, _ → _))

instance (s : State W) (w : W) : Decidable (s.Own w) :=
  inferInstanceAs (Decidable (∀ _ ∈ s.guard, _))

def StopEffect.Holds : StopEffect → Prop
  | .wait | .retry _ => True
  | _ => False

instance : ∀ effect : StopEffect, Decidable effect.Holds
  | .wait | .retry _ => isTrue trivial
  | .settled | .finalize | .failed => isFalse nofun

/-- **What an action has to find.** A worker holds the domain only while no other one does; a late
create is reconciled while its worker has no create or destroy open; and the calls that are not
tracked answer in time: `createXML` with 4K pages, the destroy after the test of a paused domain and
the destroy of a late create. -/
def Event.Careful : Event W → Prop
  | .create w .timedOut => s.Own w
  | .create _ .fallbackTimedOut | .create _ .pausedDestroyTimedOut => False
  | .stop w token _ stopped => (s.stopEffect w token stopped).Holds → s.Own w
  | .reconcile w call destroyTimedOut => ¬(s.succeeded call ∧ destroyTimedOut) ∧ s.Idle w
  | _ => True

instance (s : State W) : ∀ event : Event W, Decidable (event.Careful s)
  | .create w .timedOut => inferInstanceAs (Decidable (s.Own w))
  | .create _ .fallbackTimedOut | .create _ .pausedDestroyTimedOut => isFalse nofun
  | .create _ .answered | .start _ | .answer _ _ => isTrue trivial
  | .stop _ _ _ _ => inferInstanceAs (Decidable (_ → _))
  | .reconcile _ _ _ => inferInstanceAs (Decidable (¬(_ ∧ _) ∧ _))

end Model

variable {W : Type}

/-- An open call is its worker's call in flight, its worker has the entry of the guard and is not in
a start. -/
structure Inv (s : State W) : Prop where
  tracked : ∀ i call, s.calls[i]? = some call → call.Open →
    (s.workers call.worker).inflight.map Prod.snd = some i
  held : ∀ call ∈ s.calls, call.Open → s.guard.map Entry.hypId = some call.worker
  waiting : ∀ call ∈ s.calls, call.Open → (s.workers call.worker).creating = false

theorem inv_initial : Inv (initial : State W) where
  tracked _ _ h := by simp [initial] at h
  held := nofun
  waiting := nofun

namespace Inv

variable {s : State W} {w : W} {operation kind : Kind} {worker : Worker} {token : Option Nat}
  {stopped : Stopped} (h : Inv s)

include h

theorem guard_ne_none (hopen : s.Unanswered) : s.guard ≠ none := by
  obtain ⟨call, hmem, hcall⟩ := hopen
  intro hnone
  have hheld := h.held call hmem hcall
  rw [hnone] at hheld
  cases hheld

theorem idle_of_done (hdone : ∀ entry ∈ (s.workers w).inflight, s.done entry.2) : s.Idle w := by
  rintro call hmem rfl hopen
  obtain ⟨i, hi⟩ := mem_iff_getElem?.mp hmem
  obtain ⟨entry, hentry, rfl⟩ := map_eq_some_iff.mp (h.tracked i call hi hopen)
  have hanswer : (s.calls[entry.2]?.bind (·.answer)).isSome := hdone entry hentry
  rw [hi, bind_some, hopen.2] at hanswer
  cases hanswer

theorem idle_of_stopEffect (hsettled : s.stopEffect w token stopped ≠ .settled)
    (hwait : s.stopEffect w token stopped ≠ .wait) : s.Idle w := by
  apply h.idle_of_done
  rintro ⟨kind, call⟩ hentry
  -- with a call in flight that has not answered, the stop would wait
  by_contra hdone
  unfold State.stopEffect at hsettled hwait
  split_ifs at hsettled hwait
  · exact hsettled rfl
  · rw [show (s.workers w).inflight = some (kind, call) from hentry] at hwait
    exact hwait (if_pos hdone)

theorem idle_of_creating (hcreating : (s.workers w).creating) : s.Idle w := by
  rintro call hmem rfl hopen
  have hwaiting := h.waiting call hmem hopen
  rw [hcreating] at hwaiting
  cases hwaiting

theorem worker_eq_of_own (hown : s.Own w) {call : Call W} (hmem : call ∈ s.calls)
    (hopen : call.Open) : call.worker = w := by
  obtain ⟨entry, hentry, hhyp⟩ := map_eq_some_iff.mp (h.held call hmem hopen)
  rw [← hhyp]
  exact hown entry hentry

theorem hold (hown : s.Own w) : Inv (s.hold w operation) where
  tracked := h.tracked
  waiting := h.waiting
  held _ hmem hopen := congrArg some (h.worker_eq_of_own hown hmem hopen).symm

theorem answer {i : Nat} {success : Bool} : Inv (s.answer i success) := by
  have hopen_of (j : Nat) (call : Call W) (hj : (s.answer i success).calls[j]? = some call)
      (hopen : call.Open) : s.calls[j]? = some call := by
    change (s.calls.modify i _)[j]? = some call at hj
    rw [getElem?_modify] at hj
    obtain ⟨call', hcall', rfl⟩ := map_eq_some_iff.mp hj
    split_ifs at hopen ⊢
    · cases hopen.2
    · exact hcall'
  have hmem_of (call : Call W) (hmem : call ∈ (s.answer i success).calls) (hopen : call.Open) :
      call ∈ s.calls := by
    obtain ⟨j, hj⟩ := mem_iff_getElem?.mp hmem
    exact mem_of_getElem? (hopen_of j call hj hopen)
  exact
    { tracked := fun j call hj hopen => h.tracked j call (hopen_of j call hj hopen) hopen
      held := fun call hmem hopen => h.held call (hmem_of call hmem hopen) hopen
      waiting := fun call hmem hopen => h.waiting call (hmem_of call hmem hopen) hopen }

variable [DecidableEq W]

theorem setWorker_of (hkept : ∀ call ∈ s.calls, call.Open →
      (update s.workers w worker call.worker).inflight = (s.workers call.worker).inflight
        ∧ (update s.workers w worker call.worker).creating
          = (s.workers call.worker).creating) : Inv (s.setWorker w worker) := by
  refine ⟨fun i call hi hopen => ?_, h.held, fun call hmem hopen => ?_⟩
  · show (update s.workers w worker call.worker).inflight.map Prod.snd = some i
    rw [(hkept call (mem_of_getElem? hi) hopen).1]
    exact h.tracked i call hi hopen
  · show (update s.workers w worker call.worker).creating = false
    rw [(hkept call hmem hopen).2]
    exact h.waiting call hmem hopen

theorem setWorker (hidle : s.Idle w) (worker : Worker) : Inv (s.setWorker w worker) := by
  refine h.setWorker_of fun call hmem hopen => ?_
  rw [update_of_ne fun heq => hidle call hmem heq hopen]
  exact ⟨rfl, rfl⟩

theorem remember (hinflight : worker.inflight = (s.workers w).inflight)
    (hcreating : worker.creating = (s.workers w).creating) : Inv (s.setWorker w worker) := by
  refine h.setWorker_of fun call _ _ => ?_
  by_cases heq : call.worker = w
  · rw [heq, update_self]
    exact ⟨hinflight, hcreating⟩
  · rw [update_of_ne heq]
    exact ⟨rfl, rfl⟩

theorem release (hidle : s.Idle w) : Inv (s.release w) where
  tracked := h.tracked
  waiting := h.waiting
  held call hmem hopen := by
    obtain ⟨entry, hentry, hhyp⟩ := map_eq_some_iff.mp (h.held call hmem hopen)
    have hne : entry.hypId ≠ w := fun heq => hidle call hmem (hhyp.symm.trans heq) hopen
    show (s.guard.filter fun entry => entry.hypId ≠ w).map Entry.hypId = some call.worker
    rw [hentry, filter_some, if_pos (by simpa using hne), map_some, hhyp]

theorem track (hidle : s.Idle w) (hown : s.Own w)
    (hinflight : worker.inflight = some (kind, s.calls.length))
    (hwaiting : worker.creating = false) :
    Inv (((s.timeOut w kind).hold w operation).setWorker w worker) := by
  -- no other worker has a call open, and this one has only the new one
  have hclosed (call : Call W) (hmem : call ∈ s.calls) : ¬call.Open := fun hopen =>
    hidle call hmem (h.worker_eq_of_own hown hmem hopen) hopen
  have hnew (call : Call W) (hmem : call ∈ s.calls ++ [⟨w, kind, none⟩]) (hopen : call.Open) :
      call.worker = w := by
    rcases mem_append.mp hmem with hold | hlast
    · exact absurd hopen (hclosed call hold)
    · rw [mem_singleton.mp hlast]
  have hself : update s.workers w worker w = worker := update_self ..
  refine ⟨fun i call hi hopen => ?_, fun call hmem hopen => ?_, fun call hmem hopen => ?_⟩
  · show (update s.workers w worker call.worker).inflight.map Prod.snd = some i
    change (s.calls ++ [⟨w, kind, none⟩])[i]? = some call at hi
    rw [hnew call (mem_of_getElem? hi) hopen, hself, hinflight]
    -- the place of the new call is the last one
    rcases Nat.lt_trichotomy i s.calls.length with hlt | rfl | hgt
    · rw [getElem?_append_left hlt] at hi
      exact absurd hopen (hclosed call (mem_of_getElem? hi))
    · rfl
    · rw [getElem?_eq_none (by simp; omega)] at hi
      cases hi
  · exact congrArg some (hnew call hmem hopen).symm
  · show (update s.workers w worker call.worker).creating = false
    rw [hnew call hmem hopen, hself, hwaiting]

/-! ## The actions keep the invariant -/

theorem start : Inv (s.start w) := by
  unfold State.start
  split
  case h_1 => exact h
  case h_2 hnone =>
    -- the guard is empty, so nobody has a call open
    refine h.setWorker (fun call hmem _ hopen => ?_) _
    exact h.guard_ne_none ⟨call, hmem, hopen⟩ hnone

theorem create {created : Created} (hcreating : (s.workers w).creating)
    (hcareful : (Event.create w created).Careful s) : Inv (s.create w created) := by
  have hidle : s.Idle w := h.idle_of_creating hcreating
  cases created with
  | answered => exact h.setWorker hidle _
  | timedOut => exact h.track hidle hcareful rfl rfl
  | fallbackTimedOut | pausedDestroyTimedOut => exact hcareful.elim

theorem stop {fresh : Nat} (hcreating : ¬(s.workers w).creating)
    (hcareful : (Event.stop w token fresh stopped).Careful s) :
    Inv (s.stop w token fresh stopped) := by
  have hidle : s.stopEffect w token stopped ≠ .settled → s.stopEffect w token stopped ≠ .wait →
      s.Idle w := h.idle_of_stopEffect
  change (s.stopEffect w token stopped).Holds → s.Own w at hcareful
  unfold State.stop
  cases heffect : s.stopEffect w token stopped with
  | settled => exact h
  | wait =>
    rw [heffect] at hcareful
    exact (h.hold (hcareful trivial)).remember rfl rfl
  | finalize =>
    have hidle : s.Idle w := hidle (by simp [heffect]) (by simp [heffect])
    exact (h.release hidle).setWorker hidle _
  | retry kind =>
    rw [heffect] at hcareful
    have hidle : s.Idle w := hidle (by simp [heffect]) (by simp [heffect])
    exact h.track hidle (hcareful trivial) rfl (eq_false_of_ne_true hcreating)
  | failed => exact h.setWorker (hidle (by simp [heffect]) (by simp [heffect])) _

theorem reconcile {call : Nat} {destroyTimedOut : Bool}
    (hcareful : (Event.reconcile w call destroyTimedOut).Careful s) :
    Inv (s.reconcile w call destroyTimedOut) := by
  obtain ⟨hanswers, hidle⟩ := hcareful
  unfold State.reconcile
  rw [if_neg hanswers]
  exact (h.release hidle).setWorker hidle _

theorem next {event : Event W} {s' : State W} (hcareful : event.Careful s)
    (hnext : workers.next s event = some s') : Inv s' := by
  cases event with
  | start w =>
    obtain ⟨-, ⟨⟩⟩ := ite_none_left_eq_some.mp hnext
    exact h.start
  | create w created =>
    obtain ⟨hcreating, ⟨⟩⟩ := ite_none_right_eq_some.mp hnext
    exact h.create hcreating hcareful
  | stop w token fresh stopped =>
    obtain ⟨hcreating, ⟨⟩⟩ := ite_none_left_eq_some.mp hnext
    exact h.stop hcreating hcareful
  | reconcile w call destroyTimedOut =>
    obtain ⟨-, ⟨⟩⟩ := ite_none_right_eq_some.mp hnext
    exact h.reconcile hcareful
  | answer call success =>
    obtain ⟨-, ⟨⟩⟩ := ite_none_right_eq_some.mp hnext
    exact h.answer

end Inv

/-! ## Every run -/

/-- **The domain is held while a call is unanswered.** Where every action finds what it has to find,
a create or destroy without an answer means an entry of the guard, and then no worker starts the
domain. -/
theorem held_while_unanswered [DecidableEq W] {s : State W} {events : List (Event W)}
    (hcareful : workers.Meets (fun s event => event.Careful s) initial events)
    (hrun : workers.run initial events = some s) (hopen : s.Unanswered) :
    s.guard ≠ none ∧ ∀ w, s.start w = s := by
  have hinv : Inv s := workers.run_invariant (fun s event => event.Careful s) Inv
    (fun _ _ _ h hcareful hnext => h.next hcareful hnext) inv_initial hcareful hrun
  have hheld : s.guard ≠ none := hinv.guard_ne_none hopen
  refine ⟨hheld, fun w => ?_⟩
  unfold State.start
  split
  · rfl
  · contradiction

/-- The create on hypervisor 0 times out; hypervisor 1 is refused, and a stop on 0 waits. -/
def createUnanswered : List (Event Nat) :=
  [.start 0, .create 0 .timedOut, .start 1, .stop 0 none 7 .destroyed]

theorem createUnanswered_held :
    ∃ s, workers.run initial createUnanswered = some s ∧ s.Unanswered
      ∧ s.guard ≠ none ∧ ∀ w, s.start w = s := by
  have hcareful : workers.Meets (fun s event => event.Careful s) initial createUnanswered := by
    decide +kernel
  exact ⟨_, rfl, ⟨⟨0, .create, none⟩, by decide, by decide⟩,
    held_while_unanswered hcareful rfl ⟨⟨0, .create, none⟩, by decide, by decide⟩⟩

/-- During a create on 0 that has timed out, a stop on 1 holds the domain for a lookup. The lookup
answers, and the retry finds no domain on 1. -/
def heldOver : List (Event Nat) :=
  [.start 0, .create 0 .timedOut, .stop 1 none 7 .lookupTimedOut, .answer 1 true,
    .stop 1 (some 7) 8 .noDomain]

/-- The stop on 1 has taken the entry of 0 and releases it: the create on 0 is open, the guard is
empty and the domain is started on 1. -/
theorem released_while_unanswered :
    ∃ s, workers.run initial heldOver = some s ∧ s.Unanswered ∧ s.guard = none
      ∧ ((s.start 1).workers 1).creating :=
  ⟨_, rfl, ⟨⟨0, .create, none⟩, by decide, by decide⟩, rfl, rfl⟩

end IsardVDI.Engine.Guard
