import Mathlib.Data.List.Nodup
import Mathlib.Data.List.Pairwise

/-!
# Orchestrator — hypervisors, decisions and hourly limits

What the directors of the orchestrator share.

* **`Fleet`** — the hypervisors of the installation, with unique ids, and the two calls of
  the API that change their flags, `set_hyper_deadrow_time` and `set_hyper_only_forced`.
* **`NeedToScaleHypervisorsResult`** — what a director decides in one cycle.
* **`getCurrentHourlyLimit`** — the limit in force at an hour of the week. The lookup panics
  if the table or the day it lands on is empty, so a `HourlyLimit` has entries by
  construction and the lookup is total on it.
-/

namespace IsardVDI.Orchestrator

open List

/-! ## The fleet -/

inductive HypervisorStatus where
  | online
  | offline
  | error
  | deleting
  deriving DecidableEq, Repr

structure Resource where
  total : Int
  free : Int
  deriving DecidableEq, Repr

/-- The fields of `OrchestratorHypervisor` the directors read. RAM is in MB; `destroyTime` is
`none` when it is not set or zero. -/
structure Hypervisor where
  id : String
  status : HypervisorStatus
  bufferingHyper : Bool
  gpuOnly : Bool
  onlyForced : Bool
  orchestratorManaged : Bool
  destroyTime : Option Int
  desktopsStarted : Int
  cpu : Resource
  ram : Resource
  minFreeMemGB : Int
  deriving DecidableEq, Repr

structure Fleet where
  hypers : List Hypervisor
  idsNodup : (hypers.map Hypervisor.id).Nodup

variable (fleet : Fleet)

namespace Fleet

def update (fleet : Fleet) (f : Hypervisor → Hypervisor) (hf : ∀ h, (f h).id = h.id) :
    Fleet where
  hypers := fleet.hypers.map f
  idsNodup := by
    rw [List.map_map, show Hypervisor.id ∘ f = Hypervisor.id from funext hf]
    exact fleet.idsNodup

theorem eq_of_id {g h : Hypervisor} (hg : g ∈ fleet.hypers) (hh : h ∈ fleet.hypers)
    (hid : g.id = h.id) : g = h :=
  inj_on_of_nodup_map fleet.idsNodup hg hh hid

def get? (fleet : Fleet) (hyperId : String) : Option Hypervisor :=
  fleet.hypers.find? fun h => decide (h.id = hyperId)

theorem get?_eq {h : Hypervisor} (hh : h ∈ fleet.hypers) : fleet.get? h.id = some h := by
  unfold get?
  cases hfind : fleet.hypers.find? fun g => decide (g.id = h.id) with
  | none => simpa using find?_eq_none.mp hfind h hh
  | some g =>
    have hid : g.id = h.id := by simpa using find?_some hfind
    rw [fleet.eq_of_id (mem_of_find?_eq_some hfind) hh hid]

end Fleet

/-! ## The API -/

inductive ApiError where
  | notFound (message : String)
  | preconditionRequired (message : String)
  deriving DecidableEq, Repr

def writeDeadRow (hyperId : String) (onlyForced : Bool) (destroyTime : Option Int)
    (h : Hypervisor) : Hypervisor :=
  if h.id = hyperId then { h with onlyForced := onlyForced, destroyTime := destroyTime } else h

variable (hyperId : String) (onlyForced : Bool)

theorem writeDeadRow_id (destroyTime : Option Int) (h : Hypervisor) :
    (writeDeadRow hyperId onlyForced destroyTime h).id = h.id := by
  unfold writeDeadRow
  split <;> rfl

def Fleet.writeDeadRow (fleet : Fleet) (hyperId : String) (onlyForced : Bool)
    (destroyTime : Option Int) : Fleet :=
  fleet.update (Orchestrator.writeDeadRow hyperId onlyForced destroyTime)
    (writeDeadRow_id hyperId onlyForced destroyTime)

/-- `set_hyper_deadrow_time`. The destroy time `dtz` comes from the scheduled shutdowns of the
desktops of the hypervisor. -/
def Fleet.setHyperDeadrowTime (fleet : Fleet) (hyperId : String) (reset : Bool) (dtz : Int) :
    Except ApiError Fleet :=
  match fleet.get? hyperId with
  | none => .error (.notFound ("Hypervisor with ID " ++ hyperId ++ " does not exist."))
  | some h =>
    if !h.orchestratorManaged then
      .error (.preconditionRequired
        ("Hypervisor with ID " ++ hyperId ++ " is not managed by orchestrator."))
    else if reset then
      if h.onlyForced && h.destroyTime.isSome then .ok (fleet.writeDeadRow hyperId false none)
      else
        .error (.preconditionRequired ("Hypervisor with ID " ++ hyperId ++ " not in dead row."))
    else if h.onlyForced && h.destroyTime.isSome then .ok fleet
    else .ok (fleet.writeDeadRow hyperId true (some dtz))

def writeOnlyForced (hyperId : String) (onlyForced : Bool) (h : Hypervisor) : Hypervisor :=
  if h.id = hyperId then { h with onlyForced := onlyForced } else h

theorem writeOnlyForced_id (h : Hypervisor) : (writeOnlyForced hyperId onlyForced h).id = h.id := by
  unfold writeOnlyForced
  split <;> rfl

def Fleet.writeOnlyForced (fleet : Fleet) (hyperId : String) (onlyForced : Bool) : Fleet :=
  fleet.update (Orchestrator.writeOnlyForced hyperId onlyForced)
    (writeOnlyForced_id hyperId onlyForced)

def Fleet.setHyperOnlyForced (fleet : Fleet) (hyperId : String) (onlyForced : Bool) :
    Except ApiError Fleet :=
  match fleet.get? hyperId with
  | none => .error (.notFound ("Hypervisor with ID " ++ hyperId ++ " does not exist."))
  | some _ => .ok (fleet.writeOnlyForced hyperId onlyForced)

theorem Fleet.get?_writeOnlyForced (id : String) :
    (fleet.writeOnlyForced hyperId onlyForced).get? id
      = (fleet.get? id).map (Orchestrator.writeOnlyForced hyperId onlyForced) := by
  show (fleet.hypers.map _).find? _ = _
  rw [find?_map]
  congr 1
  show fleet.hypers.find? (fun h => decide ((Orchestrator.writeOnlyForced _ _ h).id = id)) = _
  simp only [writeOnlyForced_id]
  rfl

/-! ## Decisions -/

inductive HypervisorState where
  | unspecified
  | unknown
  | availableToCreate
  | availableToDestroy
  deriving DecidableEq, Repr

/-- `operationsv1.ListHypervisorsResponseHypervisor`; `ram` is an `int32`. -/
structure OperationsHypervisor where
  id : String
  state : HypervisorState
  ram : Int
  deriving DecidableEq, Repr

structure NeedToScaleHypervisorsResult where
  create : Option (List String)
  destroy : Option (List String)
  hypersToRemoveFromDeadRow : List String
  hypersToAddToDeadRow : List String
  hypersToRemoveFromOnlyForced : List String
  deriving DecidableEq, Repr

def NeedToScaleHypervisorsResult.empty : NeedToScaleHypervisorsResult :=
  ⟨none, none, [], [], []⟩

inductive DirectorError where
  | noHypervisorAvailable
  deriving DecidableEq, Repr

/-! ## Hourly limits -/

/-- The part of the clock the hourly limits depend on: the day of the week and the minute of
the day. -/
structure Hour where
  weekday : Nat
  minute : Nat
  deriving DecidableEq, Repr

abbrev DayLimits := List (Nat × Int)

/-- `map[time.Weekday]map[time.Time]int`, with the keys in the order the lookup sorts them. -/
structure HourlyLimit where
  days : List (Nat × DayLimits)
  daysSorted : days.Pairwise fun d e => d.1 < e.1
  timesSorted : ∀ d ∈ days, d.2.Pairwise fun s t => s.1 < t.1
  days_ne_nil : days ≠ []
  times_ne_nil : ∀ d ∈ days, d.2 ≠ []

/-- The loop over the weekdays, with the last day passed so far; before the first one, the
last day of the week counts. -/
def weekdayLoop (today : Nat) (last : Option (Nat × DayLimits)) :
    Option (Nat × DayLimits) → List (Nat × DayLimits) → Option (Nat × DayLimits)
  | weekday, [] => weekday
  | weekday, d :: days =>
    if d.1 = today then some d
    else if today < d.1 then weekday.or last
    else weekdayLoop today last (some d) days

def timesLoop (minute : Nat) : Option Int → DayLimits → Option Int
  | active, [] => active
  | active, t :: times =>
    if minute < t.1 then active.or (some t.2) else timesLoop minute (some t.2) times

theorem weekdayLoop_mem {all : List (Nat × DayLimits)} (hall : all ≠ []) (today : Nat)
    (weekday : Option (Nat × DayLimits)) (days : List (Nat × DayLimits))
    (hweekday : ∀ d, weekday = some d → d ∈ all) (hdays : ∀ d ∈ days, d ∈ all)
    (hsome : weekday = none → days ≠ []) :
    ∃ d ∈ all, weekdayLoop today all.getLast? weekday days = some d := by
  induction days generalizing weekday with
  | nil =>
    cases weekday with
    | none => exact absurd rfl (hsome rfl)
    | some d => exact ⟨d, hweekday d rfl, rfl⟩
  | cons d days ih =>
    have hd : d ∈ all := hdays d (.head _)
    unfold weekdayLoop
    split
    · exact ⟨d, hd, rfl⟩
    · split
      · cases weekday with
        | none =>
          rw [getLast?_eq_getLast_of_ne_nil hall]
          exact ⟨_, getLast_mem hall, rfl⟩
        | some e => exact ⟨e, hweekday e rfl, rfl⟩
      · refine ih (some d) ?_ (fun e he => hdays e (.tail _ he)) nofun
        intro e he
        cases he
        exact hd

theorem timesLoop_isSome (minute : Nat) (active : Option Int) (times : DayLimits)
    (hsome : active.isSome = true ∨ times ≠ []) :
    (timesLoop minute active times).isSome = true := by
  induction times generalizing active with
  | nil => exact hsome.resolve_right fun hne => hne rfl
  | cons t times ih =>
    unfold timesLoop
    split
    · simp
    · exact ih (some t.2) (.inl rfl)

/-- `getCurrentHourlyLimit`; `none` is its panic. -/
def hourlyLimit? (limit : HourlyLimit) (now : Hour) : Option Int :=
  (weekdayLoop now.weekday limit.days.getLast? none limit.days).bind fun d =>
    timesLoop now.minute none d.2

variable (limit : HourlyLimit) (now : Hour)

theorem hourlyLimit?_isSome : (hourlyLimit? limit now).isSome = true := by
  obtain ⟨d, hd, hloop⟩ := weekdayLoop_mem limit.days_ne_nil now.weekday none limit.days nofun
    (fun _ hd => hd) fun _ => limit.days_ne_nil
  unfold hourlyLimit?
  rw [hloop]
  exact timesLoop_isSome now.minute none d.2 (.inr (limit.times_ne_nil d hd))

def getCurrentHourlyLimit (limit : HourlyLimit) (now : Hour) : Int :=
  (hourlyLimit? limit now).get (hourlyLimit?_isSome limit now)

end IsardVDI.Orchestrator
