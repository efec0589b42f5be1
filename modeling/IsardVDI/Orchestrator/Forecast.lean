import IsardVDI.Bookings.PlannerCompute
import IsardVDI.Lib.Fallible
import IsardVDI.Orchestrator.Chamaleon

/-!
# Orchestrator — the forecast of the GPU bookings

`get_booking_profile_count_within_one_hour` is where the rows Chamaleon reads come from: for every
profile booked within the next hour, the most units booked at once now, in 30 and in 60 minutes.

* **`bookedUnits_le_toDestroy`** — a row covers the bookings of its profile at every instant of
  the hour.

The clock is read once here; `in30` and `in60` are the ends of the two windows.
-/

namespace IsardVDI.Orchestrator.Chamaleon

open IsardVDI.Bookings
open List Option

/-! ## Names of profiles -/

def splitDash : Nat → List Char → List (List Char)
  | 0, s => [s]
  | n + 1, s =>
    match s.dropWhile (· != '-') with
    | [] => [s]
    | _ :: rest => s.takeWhile (· != '-') :: splitDash n rest

/-- The brand, the model and the suffix of a name; a name without them is left whole. -/
def vgpuOfName (name : String) : Vgpu :=
  match splitDash 2 name.toList with
  | [brand, model, suffix] => ⟨String.ofList brand, String.ofList model, String.ofList suffix⟩
  | _ => ⟨name, "", ""⟩

/-- The suffix keeps its own dashes. -/
example : vgpuOfName "NVIDIA-A100-1-2Q" = ⟨"NVIDIA", "A100", "1-2Q"⟩ := by decide

/-! ## The rows -/

section Forecast

variable {T : Type} [LinearOrder T]

def withinWindow (now until_ : T) (b : Booking T) : Bool :=
  decide (b.start ≤ until_) && decide (now ≤ b.end_)

variable (bookings : List (Booking T))

/-- The group of a profile: a booking is in it once for each time it names the profile. -/
def profileGroup (now until_ : T) (profile : String) : List (Segment T) :=
  (bookings.filter (withinWindow now until_)).flatMap fun b =>
    (b.vgpus.filter fun p => p = profile).map fun _ => ⟨⟨b.units, b.id⟩, b.start, b.end_⟩

variable (P : Portion T)

/-- `bookings_max_units`; `none` is the error of `max` on an empty list. -/
def bookingsMaxUnits (bookings : List (Segment T)) : Option Int :=
  if bookings.isEmpty then some 0
  else ((P.items (intersectPlans P bookings)).map fun item => item.2.unitsBooked).max?

def forecastRow (bookings : List (Booking T)) (now in30 in60 : T)
    (profile : String) : Option GpuForecastProfile := do
  let atNow ← bookingsMaxUnits P (profileGroup bookings now now profile)
  let toCreate ← bookingsMaxUnits P (profileGroup bookings now in30 profile)
  let toDestroy ← bookingsMaxUnits P (profileGroup bookings now in60 profile)
  let v := vgpuOfName profile
  return ⟨v.brand, v.model, v.profile, atNow, toCreate, toDestroy⟩

/-- The full list of profiles is the one of the largest forecast. -/
def getBookingProfileCountWithinOneHour (bookings : List (Booking T))
    (now in30 in60 : T) : Option (List GpuForecastProfile) :=
  ((bookings.filter (withinWindow now in60)).flatMap fun b => b.vgpus).dedup.mapM
    (forecastRow P bookings now in30 in60)

/-! ## The rows cover the bookings -/

def bookedUnits (profile : String) (t : T) : Int :=
  (bookings.map fun b =>
    if b.start ≤ t ∧ t ≤ b.end_ then (b.vgpus.count profile : Int) * b.units else 0).sum

theorem bookedAt_profileGroup {now until_ t : T} (hnow : now ≤ t)
    (huntil : t ≤ until_) (profile : String) :
    bookedAt (profileGroup bookings now until_ profile) t = bookedUnits bookings profile t := by
  induction bookings with
  | nil => rfl
  | cons b bookings ih =>
    have hmem : t ∈ Interval.closed b.start b.end_ ↔ b.start ≤ t ∧ t ≤ b.end_ :=
      Interval.mem_closed
    show _ = (if b.start ≤ t ∧ t ≤ b.end_ then (b.vgpus.count profile : Int) * b.units else 0)
      + bookedUnits bookings profile t
    rw [← ih, profileGroup, filter_cons]
    by_cases hin : withinWindow now until_ b = true
    · rw [if_pos hin, flatMap_cons, bookedAt_append, filter_eq, map_replicate]
      congr 1
      rw [bookedAt, map_replicate, sum_replicate, nsmul_eq_mul]
      simp only [hmem, mul_ite, mul_zero]
    · -- a booking outside the window does not hold at an instant of it
      have hnot : ¬ (b.start ≤ t ∧ t ≤ b.end_) := fun hholds =>
        hin (by simp [withinWindow, hholds.1.trans huntil, hnow.trans hholds.2])
      rw [if_neg hin, if_neg hnot, zero_add]
      rfl

theorem bookedAt_le_bookingsMaxUnits {segments : List (Segment T)} {units : Int}
    (hmax : bookingsMaxUnits P segments = some units)
    (hnn : ∀ s ∈ segments, 0 ≤ s.units.unitsBooked) (t : T) : bookedAt segments t ≤ units := by
  unfold bookingsMaxUnits at hmax
  split at hmax
  · next hempty =>
    cases hmax
    rw [List.isEmpty_iff.mp hempty]
    exact le_refl 0
  · -- the order of the pieces does not matter to the maximum
    have hsorted : ((sortedAtomicItems P (intersectPlans P segments)).map
        fun item => item.2.unitsBooked).max? = some units := by
      rw [max?_eq_some_iff] at hmax ⊢
      simpa [sortedAtomicItems] using hmax
    have hunits : maxUnits P segments = units := by
      rw [maxUnits, hsorted, getD_some]
    exact (bookedAt_le_maxUnits P hnn t).trans_eq hunits

section Covered

variable {P : Portion T} {bookings : List (Booking T)} {now in30 in60 t : T}
  {rows : List GpuForecastProfile} {profile : String}

theorem toDestroy_forecastRow {row : GpuForecastProfile}
    (hrow : forecastRow P bookings now in30 in60 profile = some row) :
    rowVgpu row = vgpuOfName profile
      ∧ bookingsMaxUnits P (profileGroup bookings now in60 profile) = some row.toDestroy := by
  obtain ⟨atNow, _, hrow⟩ := bind_eq_some_iff.mp hrow
  obtain ⟨toCreate, _, hrow⟩ := bind_eq_some_iff.mp hrow
  obtain ⟨toDestroy, hmax, hrow⟩ := bind_eq_some_iff.mp hrow
  cases hrow
  exact ⟨rfl, hmax⟩

theorem mem_vgpus_of_mem_profileGroup {until_ : T} {s : Segment T}
    (hs : s ∈ profileGroup bookings now until_ profile) :
    profile ∈ (bookings.filter (withinWindow now until_)).flatMap fun b => b.vgpus := by
  obtain ⟨b, hb, hs⟩ := mem_flatMap.mp hs
  obtain ⟨p, hp, _⟩ := mem_map.mp hs
  obtain ⟨hp, hprofile⟩ := mem_filter.mp hp
  rw [decide_eq_true_eq] at hprofile
  exact mem_flatMap.mpr ⟨b, hb, hprofile ▸ hp⟩

variable (hrows : getBookingProfileCountWithinOneHour P bookings now in30 in60 = some rows)
  (hnn : ∀ b ∈ bookings, 0 ≤ b.units)

include hrows hnn

theorem bookedUnits_le_toDestroy (hnow : now ≤ t) (ht : t ≤ in60)
    (hbooked : 0 < bookedUnits bookings profile t) :
    ∃ row ∈ rows, rowVgpu row = vgpuOfName profile
      ∧ bookedUnits bookings profile t ≤ row.toDestroy := by
  rw [← bookedAt_profileGroup bookings hnow ht] at hbooked ⊢
  have hmem : profile
      ∈ ((bookings.filter (withinWindow now in60)).flatMap fun b => b.vgpus).dedup := by
    cases hgroup : profileGroup bookings now in60 profile with
    | nil =>
      rw [hgroup] at hbooked
      exact absurd hbooked (lt_irrefl 0)
    | cons s group =>
      exact mem_dedup.mpr (mem_vgpus_of_mem_profileGroup (hgroup ▸ mem_cons_self))
  obtain ⟨row, hrow, hforecast⟩ := exists_of_mapM hrows hmem
  obtain ⟨hname, hmax⟩ := toDestroy_forecastRow hforecast
  refine ⟨row, hrow, hname, bookedAt_le_bookingsMaxUnits P hmax ?_ t⟩
  intro s hs
  obtain ⟨b, hb, hs⟩ := mem_flatMap.mp hs
  obtain ⟨_, _, rfl⟩ := mem_map.mp hs
  exact hnn b (mem_of_mem_filter hb)

/-- **What the scaling is for.** The fleet a cycle leaves outside the dead row has the units of
every profile that are booked at any instant of the next hour. -/
theorem booked_units_stay {E : Type} {comb : Combinations} {clock : Int}
    {operationsHypers : List GpuOperationsHypervisor} {fleet : GpuFleet} {K : Set Vgpu}
    {res : NeedToScaleHypervisorsResult} (hK : Set.InjOn Vgpu.profile K)
    (hof : OfCatalogue K rows fleet)
    (hres : needToScaleHypervisors comb clock (.ok rows : Except E _) operationsHypers fleet.hypers
      = .ok res) (hdead : res.hypersToAddToDeadRow ≠ []) (hnow : now ≤ t) (ht : t ≤ in60)
    (hbooked : 0 < bookedUnits bookings profile t) :
    bookedUnits bookings profile t
      ≤ vgpuUnits (outside fleet res.hypersToAddToDeadRow) (vgpuOfName profile) := by
  obtain ⟨row, hrow, hname, hunits⟩ := bookedUnits_le_toDestroy hrows hnn hnow ht hbooked
  have hkept := keepsBooked_of_injOn E comb clock operationsHypers hK hof res hres hdead row hrow
  rw [hname] at hkept
  exact (hunits.trans (le_max_right _ _)).trans hkept

end Covered

end Forecast

/-- A desktop holds a unit of the A10, and a deployment books three. -/
def hourBookings : List (Booking ℚ) :=
  [⟨"b1", .desktop, "d1", 1, ["NVIDIA-A10-4Q"], 0, 40, "", "user", []⟩,
    ⟨"b2", .deployment, "d2", 3, ["NVIDIA-A10-4Q"], 20, 90, "", "user", []⟩]

def twoA10 : GpuFleet where
  hypers := [oneCard "hyper-1" true 0 (a10 "4Q") 6, oneCard "hyper-2" true 0 (a10 "4Q") 6]
  idsNodup := by decide

theorem hourBookings_stay : ∃ rows res,
    getBookingProfileCountWithinOneHour (Portion.pieces ℚ) hourBookings 10 40 70 = some rows
      ∧ needToScaleHypervisors .byMask 0 (.ok rows : Except Unit _) [] twoA10.hypers = .ok res
      ∧ res.hypersToAddToDeadRow = ["hyper-1"]
      ∧ bookedUnits hourBookings "NVIDIA-A10-4Q" 30
        ≤ vgpuUnits (outside twoA10 res.hypersToAddToDeadRow) (vgpuOfName "NVIDIA-A10-4Q") := by
  have hrows : getBookingProfileCountWithinOneHour (Portion.pieces ℚ) hourBookings 10 40 70
      = some [⟨"NVIDIA", "A10", "4Q", 1, 4, 4⟩] := by decide +kernel
  obtain ⟨res, hres, hdead⟩ : ∃ res, needToScaleHypervisors .byMask 0
      (.ok [⟨"NVIDIA", "A10", "4Q", 1, 4, 4⟩] : Except Unit _) [] twoA10.hypers = .ok res
      ∧ res.hypersToAddToDeadRow = ["hyper-1"] := ⟨_, rfl, by decide⟩
  have hof : OfCatalogue {a10 "4Q"} [⟨"NVIDIA", "A10", "4Q", 1, 4, 4⟩] twoA10 := by
    simp [OfCatalogue, twoA10, oneCard, gpuVgpu, rowVgpu, a10]
  exact ⟨_, res, hrows, hres, hdead, booked_units_stay hrows (by decide) (Set.injOn_singleton _ _)
    hof hres (by simp [hdead]) (by norm_num) (by norm_num) (by decide)⟩

end IsardVDI.Orchestrator.Chamaleon
