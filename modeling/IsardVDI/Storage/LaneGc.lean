import IsardVDI.Lib.Machine
import Mathlib

/-!
# `lib/governed_worker.py` — discovery of per-category lanes and their GC

Workers find the per-category lanes among the members of `rq:queues`. RQ adds a lane there when
it enqueues or schedules a job on it, in one transaction with the push, and never takes one out;
the governor does, with a script that checks that the lane's list and its started, deferred and
scheduled registries are all empty.

A popped job is in none of them until it is admitted and registered as started, or pushed back.
`_push_back` adds the lane to `rq:queues` again. An admission does not.

A GC between the pop and the admission leaves the started job on a lane nobody finds
(`admission_hides_lane`).
-/

namespace IsardVDI.Storage

open Function

/-- A lane's list and registries, and whether it is a member of `rq:queues`. -/
structure Lane (J : Type) where
  list : List J
  started : Finset J
  deferred : Finset J
  scheduled : Finset J
  registered : Bool

/-- The four keys the GC script looks at are empty. -/
def Lane.drained {J : Type} (lane : Lane J) : Prop :=
  lane.list = [] ∧ lane.started = ∅ ∧ lane.deferred = ∅ ∧ lane.scheduled = ∅

inductive Taken (L J : Type) where
  | idle
  | popped (l : L) (j : J)
  /-- Denied and pushed to the front again; the lane is about to be added to `rq:queues`. -/
  | pushed (l : L)
  /-- Admitted, about to be registered as started. -/
  | admitted (l : L) (j : J)
  | running (l : L) (j : J)
  deriving DecidableEq

inductive Ending where
  | done
  /-- Enqueued again at once. -/
  | retried
  /-- Scheduled to be enqueued later. -/
  | retriedLater
  deriving DecidableEq

structure Broker (L J W : Type) where
  lane : L → Lane J
  worker : W → Taken L J

inductive LaneCommand (L J W : Type) where
  /-- `SADD rq:queues` and the push, in one transaction. -/
  | enqueue (l : L) (j : J)
  /-- `SADD rq:queues` and the scheduled registry, in one transaction. -/
  | schedule (l : L) (j : J)
  /-- A scheduled or deferred job is due: it leaves its registry and is enqueued. -/
  | promote (l : L) (j : J)
  | pop (w : W) (l : L)
  /-- `_reserve_fair` or `_reserve_heavy` granted the slot. -/
  | grant (w : W)
  | register (w : W)
  | pushBack (w : W)
  | readdLane (w : W)
  | finish (w : W) (ending : Ending)
  | gcLane (l : L)

section Machine

variable {L J W : Type} [DecidableEq L] [DecidableEq J] [DecidableEq W]

instance Lane.decidableDrained (lane : Lane J) : Decidable lane.drained :=
  inferInstanceAs (Decidable (_ ∧ _ ∧ _ ∧ _))

namespace Lane

variable (lane : Lane J)

def enqueue (j : J) : Lane J :=
  { lane with list := lane.list ++ [j], registered := true }

def schedule (j : J) : Lane J :=
  { lane with scheduled := insert j lane.scheduled, registered := true }

def promote (j : J) : Lane J :=
  { lane with scheduled := lane.scheduled.erase j, deferred := lane.deferred.erase j }.enqueue j

def gc : Lane J :=
  if lane.drained then { lane with registered := false } else lane

def finish (j : J) : Ending → Lane J
  | .done => { lane with started := lane.started.erase j }
  | .retried => { lane with started := lane.started.erase j }.enqueue j
  | .retriedLater => { lane with started := lane.started.erase j }.schedule j

end Lane

namespace Broker

def setLane (s : Broker L J W) (l : L) (lane : Lane J) : Broker L J W :=
  { s with lane := update s.lane l lane }

def setWorker (s : Broker L J W) (w : W) (taken : Taken L J) : Broker L J W :=
  { s with worker := update s.worker w taken }

end Broker

def lanes : Machine (Broker L J W) (LaneCommand L J W) where
  next s
    | .enqueue l j => some (s.setLane l ((s.lane l).enqueue j))
    | .schedule l j => some (s.setLane l ((s.lane l).schedule j))
    | .promote l j =>
      if j ∈ (s.lane l).scheduled ∪ (s.lane l).deferred then
        some (s.setLane l ((s.lane l).promote j))
      else none
    | .pop w l =>
      match s.worker w, (s.lane l).list with
      | .idle, j :: rest =>
        some ((s.setLane l { s.lane l with list := rest }).setWorker w (.popped l j))
      | _, _ => none
    | .grant w =>
      match s.worker w with
      | .popped l j => some (s.setWorker w (.admitted l j))
      | _ => none
    | .register w =>
      match s.worker w with
      | .admitted l j =>
        some ((s.setLane l { s.lane l with started := insert j (s.lane l).started }).setWorker w
          (.running l j))
      | _ => none
    | .pushBack w =>
      match s.worker w with
      | .popped l j =>
        some ((s.setLane l { s.lane l with list := j :: (s.lane l).list }).setWorker w
          (.pushed l))
      | _ => none
    | .readdLane w =>
      match s.worker w with
      | .pushed l =>
        some ((s.setLane l { s.lane l with registered := true }).setWorker w .idle)
      | _ => none
    | .finish w ending =>
      match s.worker w with
      | .running l j => some ((s.setLane l ((s.lane l).finish j ending)).setWorker w .idle)
      | _ => none
    | .gcLane l => some (s.setLane l (s.lane l).gc)

/-! ## What is claimed of a lane -/

/-- An operation on the lane is in progress: a job popped from it is neither registered nor
back on a registered lane. A job that is running is registered. -/
def Taken.busyOn (l : L) : Taken L J → Bool
  | .popped l' _ | .pushed l' | .admitted l' _ => l' = l
  | .idle | .running _ _ => false

variable (s : Broker L J W)

def Broker.Quiet (l : L) : Prop := ∀ w, (s.worker w).busyOn l = false

/-- A lane that holds a job and on which nothing is in progress can be discovered. -/
def Broker.Discoverable : Prop :=
  ∀ l, s.Quiet l → ¬ (s.lane l).drained → (s.lane l).registered = true

def Broker.AtRest : Prop := ∀ w, s.worker w = .idle

/-- A job is admitted while its lane is a member of `rq:queues`, and the GC does not run on a
lane whose admitted job is not registered yet. -/
def Broker.AdmitsDiscoverable : LaneCommand L J W → Prop
  | .grant w => ∀ l j, s.worker w = .popped l j → (s.lane l).registered = true
  | .gcLane l => ∀ w j, s.worker w ≠ .admitted l j
  | _ => True

instance Broker.decidableAdmitsDiscoverable [Fintype L] [Fintype J] [Fintype W]
    (s : Broker L J W) : ∀ c, Decidable (s.AdmitsDiscoverable c)
  | .grant _ => inferInstanceAs (Decidable (∀ _ _, _ → _ = true))
  | .gcLane _ => inferInstanceAs (Decidable (∀ _ _, _ ≠ _))
  | .enqueue .. | .schedule .. | .promote .. | .pop .. | .register .. | .pushBack ..
  | .readdLane .. | .finish .. => isTrue trivial

end Machine

/-! ## The invariant

A lane that is not a member of `rq:queues` has empty registries and no admitted job under way.
Its list may hold a job that was pushed back, and then the worker that pushed it is about to
add the lane again. -/

section Discovery

variable {L J W : Type} {s s' : Broker L J W} {l : L} {w : W} {j : J} {lane : Lane J}
  {taken : Taken L J}

namespace Broker

structure Hidden (s : Broker L J W) (l : L) : Prop where
  started : (s.lane l).started = ∅
  deferred : (s.lane l).deferred = ∅
  scheduled : (s.lane l).scheduled = ∅
  admitted : ∀ w j, s.worker w ≠ .admitted l j
  list : (s.lane l).list ≠ [] → ∃ w, s.worker w = .pushed l

def LaneInv (s : Broker L J W) : Prop :=
  ∀ l, (s.lane l).registered = false → s.Hidden l

theorem Hidden.mono (h : s.Hidden l) (hlane : s'.lane l = s.lane l)
    (hadmitted : ∀ w j, s'.worker w = .admitted l j → s.worker w = .admitted l j)
    (hpushed : ∀ w, s.worker w = .pushed l → s'.worker w = .pushed l) : s'.Hidden l where
  started := by rw [hlane, h.started]
  deferred := by rw [hlane, h.deferred]
  scheduled := by rw [hlane, h.scheduled]
  admitted := fun w j hw => h.admitted w j (hadmitted w j hw)
  list := by
    intro hne
    rw [hlane] at hne
    obtain ⟨w, hw⟩ := h.list hne
    exact ⟨w, hpushed w hw⟩

variable [DecidableEq L]

theorem setLane_lane_self (s : Broker L J W) (l : L) (lane : Lane J) :
    (s.setLane l lane).lane l = lane := update_self _ _ _

theorem hidden_setLane (hstarted : lane.started = ∅) (hdeferred : lane.deferred = ∅)
    (hscheduled : lane.scheduled = ∅) (hadmitted : ∀ w j, s.worker w ≠ .admitted l j)
    (hlist : lane.list ≠ [] → ∃ w, s.worker w = .pushed l) : (s.setLane l lane).Hidden l := by
  have hlane := s.setLane_lane_self l lane
  exact ⟨by rwa [hlane], by rwa [hlane], by rwa [hlane], hadmitted, by rwa [hlane]⟩

namespace LaneInv

variable (h : s.LaneInv)

include h

theorem discoverable : s.Discoverable := by
  intro l hquiet hheld
  by_contra hreg
  have hhidden := h l (by simpa using hreg)
  refine hheld ⟨?_, hhidden.started, hhidden.deferred, hhidden.scheduled⟩
  by_contra hlist
  obtain ⟨w, hw⟩ := hhidden.list hlist
  have hbusy := hquiet w
  simp [hw, Taken.busyOn] at hbusy

theorem setLane (hl : lane.registered = false → (s.setLane l lane).Hidden l) :
    (s.setLane l lane).LaneInv := by
  intro l' hreg
  by_cases hll : l' = l
  · subst hll
    exact hl (by simpa [Broker.setLane] using hreg)
  · have hsame : (s.setLane l lane).lane l' = s.lane l' := update_of_ne hll _ _
    rw [hsame] at hreg
    exact (h l' hreg).mono hsame (fun _ _ hw => hw) (fun _ hw => hw)

theorem setLane_registered (hreg : lane.registered = true) :
    (s.setLane l lane).LaneInv :=
  h.setLane fun hfalse => by simp [hreg] at hfalse

theorem gcLane [DecidableEq J] (hadmitted : ∀ w j, s.worker w ≠ .admitted l j) :
    (s.setLane l (s.lane l).gc).LaneInv := by
  unfold Lane.gc
  split
  · rename_i hdrained
    obtain ⟨hlist, hstarted, hdeferred, hscheduled⟩ := hdrained
    exact h.setLane fun _ => hidden_setLane hstarted hdeferred hscheduled hadmitted
      fun hne => absurd hlist hne
  · refine h.setLane fun hreg => ?_
    exact (h l hreg).mono (setLane_lane_self _ _ _) (fun _ _ hw => hw) (fun _ hw => hw)

variable [DecidableEq W]

theorem setWorker
    (hadmitted : ∀ l j, taken = .admitted l j → (s.lane l).registered = true)
    (hpushed : ∀ l, s.worker w = .pushed l → taken ≠ .pushed l → (s.lane l).registered = true) :
    (s.setWorker w taken).LaneInv := by
  intro l hreg
  have hreg' : (s.lane l).registered = false := hreg
  refine (h l hreg').mono rfl ?_ ?_
  · intro w' j hw'
    by_cases hww : w' = w
    · subst hww
      have htaken : taken = .admitted l j := by simpa [Broker.setWorker] using hw'
      simp [hadmitted l j htaken] at hreg'
    · simpa [Broker.setWorker, update_of_ne hww] using hw'
  · intro w' hw'
    by_cases hww : w' = w
    · subst hww
      by_cases htaken : taken = .pushed l
      · simp [Broker.setWorker, htaken]
      · simp [hpushed l hw' htaken] at hreg'
    · simpa [Broker.setWorker, update_of_ne hww] using hw'

theorem setWorker_of_ne (hold : ∀ l, s.worker w ≠ .pushed l)
    (hnew : ∀ l j, taken ≠ .admitted l j) : (s.setWorker w taken).LaneInv :=
  h.setWorker (fun l j heq => absurd heq (hnew l j)) fun l heq => absurd heq (hold l)

theorem pop {rest : List J} (hw : s.worker w = .idle)
    (hlist : (s.lane l).list = j :: rest) :
    ((s.setLane l { s.lane l with list := rest }).setWorker w (.popped l j)).LaneInv := by
  have hlane : (s.setLane l { s.lane l with list := rest }).LaneInv := by
    refine h.setLane fun hreg => ?_
    obtain ⟨hstarted, hdeferred, hscheduled, hadmitted, hpushed⟩ := h l hreg
    exact hidden_setLane hstarted hdeferred hscheduled hadmitted
      fun _ => hpushed (by simp [hlist])
  exact hlane.setWorker_of_ne (fun l' => by simp [Broker.setLane, hw]) nofun

theorem grant (hw : s.worker w = .popped l j) (hreg : (s.lane l).registered = true) :
    (s.setWorker w (.admitted l j)).LaneInv := by
  refine h.setWorker ?_ fun l' hpushed => ?_
  · rintro l' j' ⟨⟩
    exact hreg
  · simp [hw] at hpushed

theorem pushBack (hw : s.worker w = .popped l j) :
    ((s.setLane l { s.lane l with list := j :: (s.lane l).list }).setWorker w
      (.pushed l)).LaneInv := by
  have hworker : (s.setWorker w (.pushed l)).LaneInv :=
    h.setWorker_of_ne (fun l' => by simp [hw]) nofun
  refine hworker.setLane fun hreg => ?_
  -- the job is on the list again, and this worker will add the lane
  obtain ⟨hstarted, hdeferred, hscheduled, hadmitted, -⟩ := hworker l hreg
  exact hidden_setLane hstarted hdeferred hscheduled hadmitted
    fun _ => ⟨w, update_self ..⟩

theorem readdLane (hw : s.worker w = .pushed l) :
    ((s.setLane l { s.lane l with registered := true }).setWorker w .idle).LaneInv := by
  refine (h.setLane_registered rfl).setWorker (fun _ _ h => by simp at h) ?_
  intro l' hpushed _
  have heq : s.worker w = .pushed l' := hpushed
  obtain rfl : l = l' := by simpa [hw] using heq
  rw [Broker.setLane_lane_self]

variable [DecidableEq J]

theorem register (hw : s.worker w = .admitted l j) :
    ((s.setLane l { s.lane l with started := insert j (s.lane l).started }).setWorker w
      (.running l j)).LaneInv := by
  -- an admitted job is on a lane that can be discovered
  have hreg : (s.lane l).registered = true := by
    by_contra hfalse
    exact (h l (by simpa using hfalse)).admitted w j hw
  have hlane : (s.setLane l { s.lane l with
      started := insert j (s.lane l).started }).LaneInv := h.setLane_registered hreg
  exact hlane.setWorker_of_ne (fun l' => by simp [Broker.setLane, hw]) nofun

theorem finish (hw : s.worker w = .running l j) (ending : Ending) :
    ((s.setLane l ((s.lane l).finish j ending)).setWorker w .idle).LaneInv := by
  have hlane : (s.setLane l ((s.lane l).finish j ending)).LaneInv := by
    refine h.setLane fun hreg => ?_
    cases ending with
    | retried | retriedLater => cases hreg
    | done =>
      obtain ⟨hstarted, hdeferred, hscheduled, hadmitted, hpushed⟩ := h l hreg
      exact hidden_setLane (by simp [Lane.finish, hstarted]) hdeferred hscheduled hadmitted
        hpushed
  exact hlane.setWorker_of_ne (fun l' => by simp [Broker.setLane, hw]) nofun

theorem next {c : LaneCommand L J W} (hcond : s.AdmitsDiscoverable c)
    (hstep : lanes.next s c = some s') : s'.LaneInv := by
  cases c with
  | enqueue l j =>
    cases hstep
    exact h.setLane_registered rfl
  | schedule l j =>
    cases hstep
    exact h.setLane_registered rfl
  | promote l j =>
    simp only [lanes] at hstep
    split at hstep
    · cases hstep
      exact h.setLane_registered rfl
    · cases hstep
  | pop w l =>
    cases hw : s.worker w <;> cases hlist : (s.lane l).list <;>
      simp only [lanes, hw, hlist] at hstep <;> cases hstep
    exact h.pop hw hlist
  | grant w =>
    cases hw : s.worker w <;> simp only [lanes, hw] at hstep <;> cases hstep
    exact h.grant hw (hcond _ _ hw)
  | register w =>
    cases hw : s.worker w <;> simp only [lanes, hw] at hstep <;> cases hstep
    exact h.register hw
  | pushBack w =>
    cases hw : s.worker w <;> simp only [lanes, hw] at hstep <;> cases hstep
    exact h.pushBack hw
  | readdLane w =>
    cases hw : s.worker w <;> simp only [lanes, hw] at hstep <;> cases hstep
    exact h.readdLane hw
  | finish w ending =>
    cases hw : s.worker w <;> simp only [lanes, hw] at hstep <;> cases hstep
    exact h.finish hw ending
  | gcLane l =>
    cases hstep
    exact h.gcLane hcond

end LaneInv

variable [DecidableEq J]

theorem laneInv_of_atRest (hrest : s.AtRest) (h : s.Discoverable) : s.LaneInv := by
  intro l hreg
  have hquiet : s.Quiet l := fun w => by rw [hrest w]; rfl
  have hdrained : (s.lane l).drained := by
    by_contra hheld
    simp [h l hquiet hheld] at hreg
  obtain ⟨hlist, hstarted, hdeferred, hscheduled⟩ := hdrained
  exact
    { started := hstarted, deferred := hdeferred, scheduled := hscheduled
      admitted := fun w j => by simp [hrest w], list := fun hne => absurd hlist hne }

end Broker

/-- **No job is lost to discovery.** From workers at rest on discoverable lanes, in every run
whose admissions find their lane registered and keep it so, a lane that holds a job and on which
no operation is in progress is a member of `rq:queues`. -/
theorem lane_discoverable [DecidableEq L] [DecidableEq J] [DecidableEq W]
    {commands : List (LaneCommand L J W)} (hrest : s.AtRest)
    (hfound : s.Discoverable) (hmeets : lanes.Meets Broker.AdmitsDiscoverable s commands)
    (hrun : lanes.run s commands = some s') : s'.Discoverable := by
  have hinv := lanes.run_invariant Broker.AdmitsDiscoverable Broker.LaneInv
    (fun _ _ _ h hcond hstep => h.next hcond hstep) (Broker.laneInv_of_atRest hrest hfound)
    hmeets hrun
  exact hinv.discoverable

end Discovery

/-! ## A GC between pop and admission -/

def emptyBroker : Broker (Fin 1) (Fin 1) Bool where
  lane := fun _ => ⟨[], ∅, ∅, ∅, false⟩
  worker := fun _ => .idle

/-- One worker pops the only job of the lane, the other worker's GC runs, the job is admitted. -/
def gcUnderPop : List (LaneCommand (Fin 1) (Fin 1) Bool) :=
  [.enqueue 0 0, .pop true 0, .gcLane 0, .grant true, .register true]

/-- The job is started, no operation is in progress, and the lane is not in `rq:queues`. -/
theorem admission_hides_lane :
    ∃ s, lanes.run emptyBroker gcUnderPop = some s
      ∧ (∀ w, (s.worker w).busyOn 0 = false)
      ∧ (s.lane 0).started = {0} ∧ (s.lane 0).registered = false :=
  ⟨_, rfl, by decide, rfl, rfl⟩

/-- The same GC under a pop that ends in a denial: `_push_back` adds the lane again. -/
def gcUnderDenial : List (LaneCommand (Fin 1) (Fin 1) Bool) :=
  [.enqueue 0 0, .pop true 0, .gcLane 0, .pushBack true, .readdLane true]

/-- The lane after it. -/
theorem denied_job_discoverable :
    lanes.Meets Broker.AdmitsDiscoverable emptyBroker gcUnderDenial
      ∧ ∃ s, lanes.run emptyBroker gcUnderDenial = some s ∧ (s.lane 0).list = [0]
        ∧ s.Discoverable := by
  have hmeets : lanes.Meets Broker.AdmitsDiscoverable emptyBroker gcUnderDenial := by decide
  have hrest : emptyBroker.AtRest := fun _ => rfl
  have hfound : emptyBroker.Discoverable := fun _ _ hheld => absurd ⟨rfl, rfl, rfl, rfl⟩ hheld
  exact ⟨hmeets, _, rfl, rfl, lane_discoverable hrest hfound hmeets rfl⟩

end IsardVDI.Storage
