import Mathlib

/-!
# The memory backing of a desktop

`memory_placement`: whether a host has room for a desktop without GPU, in regular memory or in
hugepages, given the last figures of the host and the starts that are not in them yet. All amounts
are in KiB.
-/

namespace IsardVDI.Engine.Memory

def gibKb : Nat := 1048576

inductive Backing
  | regular
  | hugepages
deriving DecidableEq

inductive PageSize
  | oneG
  | twoM
deriving DecidableEq

def PageSize.kb : PageSize → Nat
  | .oneG => 1048576
  | .twoM => 2048

def hugepageSizes : List PageSize :=
  [.oneG, .twoM]

structure HugepagesInfo where
  mounted : Bool
  /-- `none`: absent on hypervisors that predate it -/
  mountSizes : Option (List PageSize)
  /-- the pages of a size; 0 without an entry -/
  total : PageSize → Nat

structure MemStats where
  /-- `none`: no stats sampled yet -/
  available : Option Int
  total : Int
  hugepagesTotal : Int
  hugepagesUsed : Int
  hugepagesFree : Int
  guests : Option Int

def HugepagesInfo.poolKb (info : HugepagesInfo) (size : PageSize) : Nat :=
  info.total size * size.kb

/-- The largest mounted size that divides the memory and has enough free. -/
def pickHugepageSize (memoryKb : Nat) (info : HugepagesInfo) (freeKb : Int) : Option PageSize :=
  hugepageSizes.find? fun size =>
    info.poolKb size ≠ 0 ∧ memoryKb % size.kb = 0
      ∧ (∀ usable ∈ info.mountSizes, size ∈ usable)
      -- the free figure is of all sizes: the other pools may be all free
      ∧ (memoryKb : Int) ≤ freeKb - ((hugepageSizes.filter (· ≠ size)).map info.poolKb).sum

variable (memStats : MemStats)

/-- What the running guests can claim of the regular memory, if known. -/
def committedRegularKb : Option Int :=
  memStats.guests.map fun guests => max 0 (guests - memStats.hugepagesUsed)

/-- What a new guest can still take of the regular memory: measured, and by what the guests can
claim. -/
def regularRoomKb (minFreeKb pendingRegularKb : Nat) : Int × Option Int :=
  (memStats.available.getD 0 - pendingRegularKb - minFreeKb,
    (committedRegularKb memStats).map fun committed =>
      memStats.total - memStats.hugepagesTotal - minFreeKb - committed - pendingRegularKb)

/-- Regular memory, hugepages, or `none` if the host has no room. -/
def planMemoryBacking (info : HugepagesInfo)
    (minFreeMemGb domainMemoryKb pendingRegularKb pendingHugepagesKb : Nat) : Option Backing :=
  let minFreeKb := minFreeMemGb * gibKb
  let (measured, committed) := regularRoomKb memStats minFreeKb pendingRegularKb
  let fitsMeasured : Prop := domainMemoryKb ≤ measured
  let fitsCommitted : Prop := ∀ room ∈ committed, domainMemoryKb ≤ room
  if ¬info.mounted ∧ minFreeKb = 0 then some .regular
  -- nothing to decide on
  else if memStats.available = none then some .regular
  else if fitsMeasured ∧ fitsCommitted then some .regular
  else if ¬(info.mounted ∧ ∃ size ∈ hugepageSizes, info.total size ≠ 0) then
    -- without a pool the reserve is the only cap
    if fitsMeasured ∧ minFreeKb = 0 then some .regular else none
  else if (pickHugepageSize domainMemoryKb info
      (memStats.hugepagesFree - pendingHugepagesKb)).isSome then some .hugepages
  else if fitsMeasured then some .regular
  else none

section Plan

variable {memStats : MemStats} {info : HugepagesInfo}
  {minFreeMemGb domainMemoryKb pendingRegularKb pendingHugepagesKb : Nat} {available : Int}

theorem regular_fits (havailable : memStats.available = some available)
    (hdecides : info.mounted ∨ 0 < minFreeMemGb)
    (hplan : planMemoryBacking memStats info minFreeMemGb domainMemoryKb pendingRegularKb
      pendingHugepagesKb = some .regular) :
    domainMemoryKb + pendingRegularKb + minFreeMemGb * gibKb ≤ available := by
  have hmin : ¬(¬info.mounted ∧ minFreeMemGb * gibKb = 0) := by
    rintro ⟨hmounted, hzero⟩
    rcases hdecides with h | h
    · exact hmounted h
    · unfold gibKb at hzero
      omega
  -- past the first two answers, regular memory is answered for what fits the measured room
  have hfits : (domainMemoryKb : Int)
      ≤ (regularRoomKb memStats (minFreeMemGb * gibKb) pendingRegularKb).1 := by
    by_contra hno
    simp only [planMemoryBacking, hmin, hno, havailable, false_and, if_false, reduceCtorEq] at hplan
    split_ifs at hplan
    cases hplan
  simp only [regularRoomKb, havailable, Option.getD_some] at hfits
  omega

theorem hugepages_fit
    (hplan : planMemoryBacking memStats info minFreeMemGb domainMemoryKb pendingRegularKb
      pendingHugepagesKb = some .hugepages) :
    domainMemoryKb + pendingHugepagesKb ≤ memStats.hugepagesFree := by
  have hpick : (pickHugepageSize domainMemoryKb info
      (memStats.hugepagesFree - pendingHugepagesKb)).isSome := by
    by_contra hnone
    simp only [planMemoryBacking, hnone, if_false] at hplan
    split_ifs at hplan <;> cases hplan
  obtain ⟨size, hsize⟩ := Option.isSome_iff_exists.mp hpick
  have hsome := List.find?_some hsize
  obtain ⟨-, -, -, hroom⟩ := of_decide_eq_true hsome
  omega

end Plan

end IsardVDI.Engine.Memory
