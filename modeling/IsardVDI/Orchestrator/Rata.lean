import IsardVDI.Lib.GoSlice
import IsardVDI.Orchestrator.Director
import Mathlib

/-!
# Orchestrator — the director `Rata`

Rata keeps some resources free in the pool of hypervisors: `NeedToScaleHypervisors` decides
each cycle on at most one change, and `ExtraOperations` limits single hypervisors that run
short (`only_forced`) and lifts the limit again.

One cycle reads the clock once here. `int(math.Round((float64(p) / 100.0) * float64(x)))` is
the parameter `roundPercent`, so results hold for any rounding.
-/

namespace IsardVDI.Orchestrator

open IsardVDI.GoSlice

/-! ## Limits of the pool -/

structure DirectorRata where
  minCPU : Int
  minRAM : Int
  minCPUHourly : Option HourlyLimit
  minRAMHourly : Option HourlyLimit
  minRAMLimitPercent : Int
  minRAMLimitPercentHourly : Option HourlyLimit
  minRAMLimitMargin : Int
  minRAMLimitMarginHourly : Option HourlyLimit
  maxRAM : Int
  maxRAMHourly : Option HourlyLimit
  maxRAMLimitPercent : Int
  maxRAMLimitPercentHourly : Option HourlyLimit
  maxRAMLimitMargin : Int
  maxRAMLimitMarginHourly : Option HourlyLimit
  deadRowRAMMargin : Int
  hyperMinCPU : Int
  hyperMinRAM : Int
  hyperMaxCPU : Int
  hyperMaxRAM : Int

section Limits

variable (roundPercent : Int → Int → Int) (cfg : DirectorRata) (hour : Hour)

def minCPU : Int :=
  match cfg.minCPUHourly with
  | none => cfg.minCPU
  | some limit => getCurrentHourlyLimit limit hour

def hyperMinRAM (h : Hypervisor) : Int := cfg.hyperMinRAM + h.minFreeMemGB * 1024

def hyperMaxRAM (h : Hypervisor) : Int := cfg.hyperMaxRAM + h.minFreeMemGB * 1024

/-- The common body of `minRAM` and `maxRAM`: an hourly limit, a fixed one, or a percentage
of what the hypervisors need plus a margin. -/
def poolRAM (hourly : Option HourlyLimit) (fixed percent : Int)
    (percentHourly : Option HourlyLimit) (margin : Int)
    (marginHourly : Option HourlyLimit) (hyperRAM : Hypervisor → Int)
    (hypers : List Hypervisor) : Int :=
  match hourly with
  | some limit => getCurrentHourlyLimit limit hour
  | none =>
    if fixed ≠ 0 then fixed
    else
      let limitPercent := match percentHourly with
        | some limit => getCurrentHourlyLimit limit hour
        | none => percent
      if limitPercent ≠ 0 then
        let margin := match marginHourly with
          | some limit => getCurrentHourlyLimit limit hour
          | none => margin
        roundPercent limitPercent (hypers.map hyperRAM).sum + margin
      else 0

def minRAM (hypers : List Hypervisor) : Int :=
  poolRAM roundPercent hour cfg.minRAMHourly cfg.minRAM cfg.minRAMLimitPercent
    cfg.minRAMLimitPercentHourly cfg.minRAMLimitMargin cfg.minRAMLimitMarginHourly
    (hyperMinRAM cfg) hypers

def maxRAM (hypers : List Hypervisor) : Int :=
  poolRAM roundPercent hour cfg.maxRAMHourly cfg.maxRAM cfg.maxRAMLimitPercent
    cfg.maxRAMLimitPercentHourly cfg.maxRAMLimitMargin cfg.maxRAMLimitMarginHourly
    (hyperMaxRAM cfg) hypers

def needToLimitHypervisor (h : Hypervisor) : Bool :=
  (decide (cfg.hyperMinCPU ≠ 0) && decide (h.cpu.free ≤ cfg.hyperMinCPU))
    || (decide (cfg.hyperMinRAM ≠ 0) && decide (h.ram.free ≤ hyperMinRAM cfg h))

end Limits

/-! ## `classifyHypervisors` -/

def Hypervisor.inPool (h : Hypervisor) : Bool :=
  decide (h.status = .online) && !h.bufferingHyper && !h.gpuOnly

variable (hypers : List Hypervisor)

def hypersToAcknowledge : List Hypervisor :=
  hypers.filter fun h => h.inPool && !h.onlyForced

def hypersToHandle : List Hypervisor :=
  hypers.filter fun h => h.inPool && h.orchestratorManaged

def hypersOnDeadRow : List Hypervisor :=
  (hypersToHandle hypers).filter fun h => h.destroyTime.isSome

def hypersLimited : List Hypervisor :=
  (hypersToHandle hypers).filter fun h => h.destroyTime.isNone && h.onlyForced

def cpuAvail : Int :=
  ((hypersToAcknowledge hypers).map fun h => h.cpu.free).sum

def ramAvail : Int :=
  ((hypersToAcknowledge hypers).map fun h => h.ram.free).sum

/-! ## `NeedToScaleHypervisors` -/

section Scale

variable (roundPercent : Int → Int → Int) (cfg : DirectorRata) (hour : Hour)

/-- What is missing to the minimum, if the pool has less than it; Go's `/` truncates. -/
def reqHypers (minimum avail : Int) : Int :=
  if 0 < minimum then
    if avail.tdiv minimum = 0 then minimum - avail else 0
  else 0

def reqHypersCPU (hypers : List Hypervisor) : Int :=
  reqHypers (minCPU cfg hour) (cpuAvail hypers)

def reqHypersRAM (hypers : List Hypervisor) : Int :=
  reqHypers (minRAM roundPercent cfg hour (hypersToAcknowledge hypers)) (ramAvail hypers)

def toInt32 (x : Int) : Int := x.bmod (2 ^ 32)

/-- The smallest available hypervisor that is big enough, or else the biggest. -/
def bestHyperToCreate (hypersAvail : List OperationsHypervisor) (minRAM : Int) :
    Option OperationsHypervisor :=
  let available := fun (h : OperationsHypervisor) => decide (h.state = .availableToCreate)
  let biggest := pickBest available (fun h b => decide (h.ram > b.ram)) hypersAvail
  let best := pickBest (fun h => available h && decide (h.ram > toInt32 minRAM))
    (fun h b => decide (h.ram < b.ram)) hypersAvail
  best.or biggest

/-- The one on the dead row with the furthest destroy time that suffices, or else the
biggest that is not short of resources. -/
def bestHyperToPardon (onDeadRow : List Hypervisor) (ramAvail minRAM : Int) :
    Option Hypervisor :=
  let biggest := pickBest (fun h => !needToLimitHypervisor cfg h)
    (fun h b => decide (h.ram.free > b.ram.free)) onDeadRow
  let toPardon := pickBest (fun h => decide (ramAvail + h.ram.free > minRAM))
    (fun h b => decide (h.destroyTime.getD 0 > b.destroyTime.getD 0)) onDeadRow
  toPardon.or biggest

def bestHyperToUnlimit (limited : List Hypervisor) (ramAvail minRAM : Int) :
    Option Hypervisor :=
  pickBest
    (fun h => !needToLimitHypervisor cfg h
      && (decide (h.desktopsStarted = 0) || decide (ramAvail + h.ram.free > minRAM)))
    (fun h b => decide (h.ram.free > b.ram.free)) limited

/-- The first whose time has come or that is empty, unless it is still in use. -/
def bestHyperToDestroy (now : Int) (toHandle : List Hypervisor) : Option Hypervisor :=
  toHandle.find? fun h =>
    match h.destroyTime with
    | some t => (decide (t < now) || decide (h.desktopsStarted = 0)) && h.onlyForced
    | none => false

/-- `canBeSentenced`, with the limits as if the hypervisor was removed. -/
def canBeSentenced (toAcknowledge : List Hypervisor) (ramAvail : Int) (h : Hypervisor) : Bool :=
  let reduced := removeWhileRanging (fun hyp => decide (h.id = hyp.id)) toAcknowledge
  let minRAM := minRAM roundPercent cfg hour reduced
  let maxRAM := maxRAM roundPercent cfg hour reduced
  h.destroyTime.isNone
    && ((h.onlyForced && decide (0 < maxRAM) && decide (ramAvail > maxRAM))
      || (decide (0 < maxRAM) && decide (ramAvail > maxRAM)
        && decide (ramAvail - h.ram.free > minRAM + cfg.deadRowRAMMargin)))

def bestHyperToMoveInDeadRow (toAcknowledge toHandle : List Hypervisor) (ramAvail : Int) :
    Option Hypervisor :=
  pickBest (canBeSentenced roundPercent cfg hour toAcknowledge ramAvail)
    (fun h b => decide (h.ram.total > b.ram.total)) toHandle

def scaleUp (operationsHypersAvail : List OperationsHypervisor) (hypers : List Hypervisor) :
    Except DirectorError NeedToScaleHypervisorsResult :=
  let minRAM := minRAM roundPercent cfg hour (hypersToAcknowledge hypers)
  match bestHyperToPardon cfg (hypersOnDeadRow hypers) (ramAvail hypers) minRAM with
  | some h => .ok { NeedToScaleHypervisorsResult.empty with hypersToRemoveFromDeadRow := [h.id] }
  | none =>
    match bestHyperToUnlimit cfg (hypersLimited hypers) (ramAvail hypers) minRAM with
    | some h =>
      .ok { NeedToScaleHypervisorsResult.empty with hypersToRemoveFromOnlyForced := [h.id] }
    | none =>
      match bestHyperToCreate operationsHypersAvail
          (reqHypersRAM roundPercent cfg hour hypers) with
      | some h => .ok { NeedToScaleHypervisorsResult.empty with create := some [h.id] }
      | none => .error .noHypervisorAvailable

/-- The scale-down half: destroy, else sentence. -/
def scaleDown (now : Int) (hypers : List Hypervisor) : NeedToScaleHypervisorsResult :=
  match bestHyperToDestroy now (hypersToHandle hypers) with
  | some h => { NeedToScaleHypervisorsResult.empty with destroy := some [h.id] }
  | none =>
    match bestHyperToMoveInDeadRow roundPercent cfg hour (hypersToAcknowledge hypers)
        (hypersToHandle hypers) (ramAvail hypers) with
    | some h => { NeedToScaleHypervisorsResult.empty with hypersToAddToDeadRow := [h.id] }
    | none => .empty

def needToScaleHypervisors (now : Int) (operationsHypers : List OperationsHypervisor)
    (hypers : List Hypervisor) : Except DirectorError NeedToScaleHypervisorsResult :=
  let operationsHypersAvail := operationsHypers.filter fun h =>
    !hypers.any fun hyp => h.id = hyp.id
  if reqHypersCPU cfg hour hypers ≠ 0 ∨ reqHypersRAM roundPercent cfg hour hypers ≠ 0 then
    scaleUp roundPercent cfg hour operationsHypersAvail hypers
  else .ok (scaleDown roundPercent cfg hour now hypers)

end Scale

/-! ## `ExtraOperations` -/

variable (cfg : DirectorRata)

def hasAvailableResources (h : Hypervisor) : Bool :=
  (decide (cfg.hyperMaxCPU ≠ 0) && decide (h.cpu.free > cfg.hyperMaxCPU))
    || (decide (cfg.hyperMaxRAM ≠ 0) && decide (h.ram.free > hyperMaxRAM cfg h))

/-- The flag a cycle sets on a hypervisor, if any. Those on the dead row are left alone, and a
limited one without desktops is probably going to be killed. -/
def wantedOnlyForced (h : Hypervisor) : Option Bool :=
  if h.destroyTime.isSome then none
  else
    match h.onlyForced with
    | false => if needToLimitHypervisor cfg h then some true else none
    | true =>
      if decide (h.desktopsStarted ≠ 0) && hasAvailableResources cfg h then some false else none

/-- How a call of the API goes: the API answers, or the call fails on the way and the flag may
have been set all the same. -/
inductive ApiOutcome where
  | answered
  | failed (applied : Bool)
  deriving DecidableEq, Repr

/-- `AdminOrchestratorOnlyForcedSet`: the fleet it leaves, and the error `ExtraOperations`
returns for it. -/
def adminOrchestratorOnlyForcedSet (api : String → ApiOutcome) (fleet : Fleet)
    (hyperId : String) (flag : Bool) : Fleet × Option String :=
  let err := some ("set hypervisor '" ++ hyperId ++ "' to only_forced")
  match api hyperId with
  | .answered =>
    match fleet.setHyperOnlyForced hyperId flag with
    | .ok next => (next, none)
    | .error _ => (fleet, err)
  | .failed true => (fleet.writeOnlyForced hyperId flag, err)
  | .failed false => (fleet, err)

/-- The loop of `ExtraOperations` over the listed hypervisors; an error ends it. -/
def extraOperationsLoop (cfg : DirectorRata) (dryRun : Bool) (api : String → ApiOutcome) :
    Fleet → List Hypervisor → Fleet × Option String
  | fleet, [] => (fleet, none)
  | fleet, h :: hypers =>
    match wantedOnlyForced cfg h with
    | none => extraOperationsLoop cfg dryRun api fleet hypers
    | some flag =>
      if dryRun then extraOperationsLoop cfg dryRun api fleet hypers
      else
        match adminOrchestratorOnlyForcedSet api fleet h.id flag with
        | (next, none) => extraOperationsLoop cfg dryRun api next hypers
        | (next, some err) => (next, some err)

/-- One cycle of `ExtraOperations` on a fleet whose readings do not change. -/
def extraOperations (dryRun : Bool) (api : String → ApiOutcome)
    (fleet : Fleet) : Fleet × Option String :=
  extraOperationsLoop cfg dryRun api fleet (hypersToHandle fleet.hypers)

end IsardVDI.Orchestrator
