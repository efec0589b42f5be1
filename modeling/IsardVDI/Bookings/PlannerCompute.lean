import IsardVDI.Bookings.Tables
import IsardVDI.Lib.IntervalDict
import Mathlib.Algebra.Order.BigOperators.Group.List
import Mathlib.Data.List.Dedup
import Mathlib.Data.List.Sort
import Mathlib.Tactic.Linarith

/-!
# Bookings — fitting a booking into the plans

The part of `ReservablesPlannerCompute` and `ReservablesPlannerProccess` that decides on
which plans a new booking is placed.

* **`countNonOverridableBookings`** — the units of a plan that bookings of at least the
  caller's priority hold, as the maximum over the atomic pieces of an interval dictionary.
* **`getSamePlansForBooking`** — the greedy distribution of the units of one profile over
  the plans that contain the window.
* **`newBookingPlans`** — all the profiles of a booking, each on its own cards.

The model takes the table listing and the clock as arguments. The specifications below
speak of the units held at an instant (`heldUnits`) and of the room in front of a plan
(`roomIn`), which is what the invariants of the callers are about.
-/

namespace IsardVDI.Bookings

open List

variable {T : Type} [LinearOrder T]

/-! ## Counting the bookings that may not be displaced -/

structure BookedUnits where
  unitsBooked : Int
  planId : String
  deriving DecidableEq, Repr

def joinPlanOp (x y : BookedUnits) : BookedUnits where
  unitsBooked := x.unitsBooked + y.unitsBooked
  planId := x.planId ++ "/" ++ y.planId

structure Segment (T : Type) where
  units : BookedUnits
  start : T
  end_ : T
  deriving DecidableEq, Repr

/-- The filters of the query: a booking of the profile that meets the window, with an entry
on the plan and an entry of at least the priority. The two `contains` need not be met by
one entry. -/
def isNonOverridable (planId subitemId : String) (priority : Int) (start end_ : T)
    (b : Booking T) : Bool :=
  decide (subitemId ∈ b.vgpus) && decide (b.start ≤ end_) && decide (start ≤ b.end_)
    && b.plans.any (fun p => p.planId = planId)
    && b.plans.any (fun p => priority ≤ p.priority)

/-- The entries of a booking on the plan. Bookings stored before `units_booked` existed
count in full. -/
def segmentsOf (planId : String) (b : Booking T) : List (Segment T) :=
  (b.plans.filter fun p => p.planId = planId).map fun (p : PlanEntry) =>
    { units :=
        { unitsBooked := if p.unitsBooked = 0 then b.units else p.unitsBooked
          planId := p.planId }
      start := b.start
      end_ := b.end_ }

def currentPlans (planId : String) (bookings : List (Booking T)) : List (Segment T) :=
  bookings.flatMap (segmentsOf planId)

variable (P : Portion T) (segments : List (Segment T))

def intersectPlans : P.IntervalDict BookedUnits :=
  segments.foldl
    (fun output s => P.combine output (P.single (.closed s.start s.end_) s.units) joinPlanOp)
    P.empty

def sortedAtomicItems {V : Type} (d : P.IntervalDict V) : List (Interval T × V) :=
  (P.items d).insertionSort fun i j => i.1.lower ≤ j.1.lower

def maxUnits : Int :=
  ((sortedAtomicItems P (intersectPlans P segments)).map
    fun item => item.2.unitsBooked).max?.getD 0

variable (bookings : List (Booking T))

def countNonOverridableBookings
    (planId subitemId : String) (priority : Int) (start end_ : T) : Int :=
  let bookings := bookings.filter (isNonOverridable planId subitemId priority start end_)
  if bookings.isEmpty then 0 else maxUnits P (currentPlans planId bookings)

/-! ## Fitting one profile -/

@[ext] structure ChosenPlan (T : Type) where
  plan : Plan T
  unitsBooked : Int
  deriving DecidableEq, Repr

/-- The loop of the deployment branch: the chosen plans and the units left over. -/
def assignUnits (availInPlan : Plan T → Int) : List (Plan T) → Int → List (ChosenPlan T) × Int
  | [], remaining => ([], remaining)
  | plan :: plans, remaining =>
    if 0 < availInPlan plan then
      if 0 < remaining - availInPlan plan then
        let (chosen, left) := assignUnits availInPlan plans (remaining - availInPlan plan)
        (⟨plan, availInPlan plan⟩ :: chosen, left)
      else ([⟨plan, remaining⟩], 0)
    else assignUnits availInPlan plans remaining

def fittingPlans (plans : List (Plan T)) (bookingStart bookingEnd : T) : List (Plan T) :=
  plans.filter fun p =>
    (Interval.closed p.start p.end_).contains (Interval.closed bookingStart bookingEnd)

def availInPlan (subitemId : String)
    (priority : Int) (bookingStart bookingEnd : T) (plan : Plan T) : Int :=
  plan.units
    - countNonOverridableBookings P bookings plan.id subitemId priority bookingStart bookingEnd

def getSamePlansForBooking (plans : List (Plan T)) (subitemId : String) (priority : Int)
    (bookingStart bookingEnd : T) (units : Int) : List (ChosenPlan T) :=
  let plans := fittingPlans plans bookingStart bookingEnd
  let avail := availInPlan P bookings subitemId priority bookingStart bookingEnd
  if 1 < units then
    let (deploymentPlans, remaining) := assignUnits avail plans units
    if 0 < remaining then [] else deploymentPlans
  else
    match plans.find? fun p =>
        decide (0 ≤ p.units - 1
          - countNonOverridableBookings P bookings p.id subitemId priority bookingStart
              bookingEnd) with
    | some plan => [⟨plan, 1⟩]
    | none => []

/-! ## Fitting a booking -/

variable (planner : List (Plan T))

def getSubitemsPlanning (subitemId : String) (now : T) : List (Plan T) :=
  planner.filter fun p => decide (p.subitemId = subitemId) && decide (now < p.end_)

def plansForSubitem (bookings : List (Booking T))
    (now : T) (priority : String → Int) (start end_ : T) (units : Int) (subitemId : String) :
    List (ChosenPlan T) :=
  getSamePlansForBooking P bookings (getSubitemsPlanning planner subitemId now) subitemId
    (priority subitemId) start end_ units

/-- `new_booking_plans`. The dictionary has one entry per distinct profile; a booking that
names a profile twice never gets as many entries as it requested. -/
def newBookingPlans (bookings : List (Booking T))
    (now : T) (priority : String → Int) (vgpus : List String) (start end_ : T) (units : Int) :
    List (String × List (ChosenPlan T)) :=
  let plans := vgpus.dedup.map fun subitem =>
    (subitem, plansForSubitem P planner bookings now priority start end_ units subitem)
  let nonEmpty := plans.filter fun kv => !kv.2.isEmpty
  if nonEmpty.length ≠ vgpus.length then []
  else
    let chosenItemIds := nonEmpty.flatMap fun kv => kv.2.map fun c => c.plan.itemId
    if chosenItemIds.dedup.length ≠ chosenItemIds.length then [] else nonEmpty

/-! ## The count bounds the units held at every instant

`bookedAt` is the pointwise sum the dictionary stands for. The overlay computes it at every
point of a piece, so the maximum over the pieces is at least the sum at any instant. -/

def bookedAt (t : T) : Int :=
  (segments.map fun s =>
    if t ∈ Interval.closed s.start s.end_ then s.units.unitsBooked else 0).sum

def unitsOf : Option BookedUnits → Int
  | some v => v.unitsBooked
  | none => 0

theorem unitsOf_overlay (v w : Option BookedUnits) :
    unitsOf (overlay joinPlanOp v w) = unitsOf v + unitsOf w := by
  cases v <;> cases w <;> simp [overlay, unitsOf, joinPlanOp]

theorem bookedAt_append (l m : List (Segment T)) (t : T) :
    bookedAt (l ++ m) t = bookedAt l t + bookedAt m t := by
  simp [bookedAt]

theorem bookedAt_nonneg {l : List (Segment T)} (hl : ∀ s ∈ l, 0 ≤ s.units.unitsBooked) (t : T) :
    0 ≤ bookedAt l t := by
  apply sum_nonneg
  intro x hx
  obtain ⟨s, hs, rfl⟩ := mem_map.mp hx
  split
  · exact hl s hs
  · exact le_refl 0

variable (P : Portion T) (segments : List (Segment T))

theorem unitsOf_get_intersectPlans (t : T) :
    unitsOf (P.get (intersectPlans P segments) t) = bookedAt segments t := by
  -- the accumulator of the fold is general, and contributes its own units
  have hloop : ∀ (l : List (Segment T)) (d : P.IntervalDict BookedUnits),
      unitsOf (P.get (l.foldl (fun output s =>
        P.combine output (P.single (.closed s.start s.end_) s.units) joinPlanOp) d) t)
        = unitsOf (P.get d t) + bookedAt l t := by
    intro l
    induction l with
    | nil => simp [bookedAt]
    | cons s l ih =>
      intro d
      have hsingle : unitsOf (P.get (P.single (.closed s.start s.end_) s.units) t)
          = bookedAt [s] t := by
        rw [P.get_single]
        unfold bookedAt
        split
        · next h => simp only [map_cons, map_nil, if_pos h, sum_singleton, unitsOf]
        · next h => simp only [map_cons, map_nil, if_neg h, sum_singleton, unitsOf]
      rw [foldl_cons, ih, P.get_combine, unitsOf_overlay, hsingle,
        show s :: l = [s] ++ l from rfl, bookedAt_append]
      omega
  have h := hloop segments P.empty
  rw [P.get_empty] at h
  simpa [unitsOf, intersectPlans] using h

theorem mem_pieceUnits (u : Int) :
    u ∈ (sortedAtomicItems P (intersectPlans P segments)).map (fun item => item.2.unitsBooked)
      ↔ ∃ x v, P.get (intersectPlans P segments) x = some v ∧ v.unitsBooked = u := by
  simp only [sortedAtomicItems, mem_map, mem_insertionSort]
  constructor
  · rintro ⟨⟨i, v⟩, hi, rfl⟩
    obtain ⟨x, hx⟩ := P.items_nonempty _ i v hi
    exact ⟨x, v, (P.mem_items _ x v).mpr ⟨i, hi, hx⟩, rfl⟩
  · rintro ⟨x, v, hget, rfl⟩
    obtain ⟨i, hi, _⟩ := (P.mem_items _ x v).mp hget
    exact ⟨(i, v), hi, rfl⟩

theorem maxUnits_spec (t : T) :
    (∃ x, bookedAt segments x = maxUnits P segments) ∧ ∀ x v,
      P.get (intersectPlans P segments) x = some v → v.unitsBooked ≤ maxUnits P segments := by
  have hmem := mem_pieceUnits P segments
  have hat := unitsOf_get_intersectPlans P segments
  unfold maxUnits
  cases hmax : ((sortedAtomicItems P (intersectPlans P segments)).map
      fun item => item.2.unitsBooked).max? with
  | some m =>
    obtain ⟨x, v, hx, rfl⟩ := (hmem m).mp (max?_mem hmax)
    refine ⟨⟨x, ?_⟩, fun y w hget => ?_⟩
    · rw [← hat x, hx]
      rfl
    · exact (max?_eq_some_iff.mp hmax).2 _ ((hmem _).mpr ⟨y, w, hget, rfl⟩)
  | none =>
    -- without pieces nothing covers any instant
    have hnone : ∀ x v, P.get (intersectPlans P segments) x ≠ some v := by
      intro x v hget
      have hin := (hmem v.unitsBooked).mpr ⟨x, v, hget, rfl⟩
      rw [max?_eq_none_iff.mp hmax] at hin
      cases hin
    refine ⟨⟨t, ?_⟩, fun x v hget => absurd hget (hnone x v)⟩
    rw [← hat t, Option.eq_none_iff_forall_ne_some.mpr (hnone t)]
    rfl

theorem bookedAt_le_maxUnits {segments : List (Segment T)}
    (hnn : ∀ s ∈ segments, 0 ≤ s.units.unitsBooked) (t : T) :
    bookedAt segments t ≤ maxUnits P segments := by
  obtain ⟨⟨x, hx⟩, hle⟩ := maxUnits_spec P segments t
  rw [← unitsOf_get_intersectPlans P segments t]
  cases hget : P.get (intersectPlans P segments) t with
  | none =>
    -- nothing covers the instant, and no piece has negative units
    rw [← hx]
    exact bookedAt_nonneg hnn x
  | some v => exact hle t v hget

/-- The units a booking holds on a plan through entries of at least the priority. -/
def Booking.heldOn (b : Booking T) (planId : String) (priority : Int) : Int :=
  (b.plans.map fun e =>
    if e.planId = planId ∧ priority ≤ e.priority then e.unitsBooked else 0).sum

/-- The units held on a plan at an instant through entries of at least the priority. -/
def heldUnits (planId : String) (priority : Int) (t : T) : Int :=
  (bookings.map fun b =>
    if b.start ≤ t ∧ t ≤ b.end_ then b.heldOn planId priority else 0).sum

variable {b : Booking T} {planId subitemId : String} {priority units : Int} {t start end_ now : T}
  {bookings : List (Booking T)}

omit [LinearOrder T] in
theorem segmentsOf_nonneg (hpos : ∀ e ∈ b.plans, 1 ≤ e.unitsBooked) :
    ∀ s ∈ segmentsOf planId b, 0 ≤ s.units.unitsBooked := by
  intro s hs
  obtain ⟨e, he, rfl⟩ := mem_map.mp hs
  have h1 := hpos e (mem_of_mem_filter he)
  show 0 ≤ if e.unitsBooked = 0 then b.units else e.unitsBooked
  rw [if_neg (by omega)]
  omega

theorem heldOn_le_bookedAt (hpos : ∀ e ∈ b.plans, 1 ≤ e.unitsBooked) (hstart : b.start ≤ t)
    (hend : t ≤ b.end_) : b.heldOn planId priority ≤ bookedAt (segmentsOf planId b) t := by
  unfold Booking.heldOn segmentsOf
  generalize b.plans = entries at hpos
  induction entries with
  | nil => simp [bookedAt]
  | cons e entries ih =>
    have ih := ih fun e he => hpos e (.tail _ he)
    have he := hpos e (.head _)
    by_cases hplan : e.planId = planId
    · have hne : e.unitsBooked ≠ 0 := by omega
      simp only [bookedAt, map_cons, sum_cons, filter_cons, hplan, hne,
        decide_true, if_true, if_false, true_and, Interval.mem_closed, hstart, hend,
        and_self] at ih ⊢
      split <;> omega
    · simpa [filter_cons, hplan] using ih

theorem heldOn_eq_zero (hstart : start ≤ t) (hend : t ≤ end_) (hcov : b.start ≤ t ∧ t ≤ b.end_)
    (hprofile : ∀ e ∈ b.plans, e.planId = planId → subitemId ∈ b.vgpus)
    (hnot : isNonOverridable planId subitemId priority start end_ b = false) :
    b.heldOn planId priority = 0 := by
  apply sum_eq_zero
  intro x hx
  obtain ⟨e, he, rfl⟩ := mem_map.mp hx
  apply if_neg
  intro ⟨hplan, hprio⟩
  have hyes : isNonOverridable planId subitemId priority start end_ b = true := by
    simp only [isNonOverridable, Bool.and_eq_true, decide_eq_true_eq, any_eq_true]
    exact ⟨⟨⟨⟨hprofile e he hplan, hcov.1.trans hend⟩, hstart.trans hcov.2⟩, e, he, hplan⟩,
      e, he, hprio⟩
  rw [hnot] at hyes
  cases hyes

theorem heldUnits_cons (b : Booking T) (bookings : List (Booking T)) (planId : String)
    (priority : Int) (t : T) :
    heldUnits (b :: bookings) planId priority t
      = (if b.start ≤ t ∧ t ≤ b.end_ then b.heldOn planId priority else 0)
        + heldUnits bookings planId priority t := by
  simp [heldUnits]

theorem heldUnits_le_bookedAt (hpos : ∀ b ∈ bookings, ∀ e ∈ b.plans, 1 ≤ e.unitsBooked)
    (hprofile : ∀ b ∈ bookings, ∀ e ∈ b.plans, e.planId = planId → subitemId ∈ b.vgpus)
    (hstart : start ≤ t) (hend : t ≤ end_) :
    heldUnits bookings planId priority t
      ≤ bookedAt (currentPlans planId
          (bookings.filter (isNonOverridable planId subitemId priority start end_))) t := by
  induction bookings with
  | nil => simp [heldUnits, currentPlans, bookedAt]
  | cons b bookings ih =>
    have ih := ih (fun b hb => hpos b (.tail _ hb))
      (fun b hb => hprofile b (.tail _ hb))
    have hposb := hpos b (.head _)
    rw [heldUnits_cons]
    by_cases hb : isNonOverridable planId subitemId priority start end_ b = true
    · -- a selected booking has its own segments in the sum
      rw [filter_cons_of_pos hb,
        show ∀ l, currentPlans planId (b :: l) = segmentsOf planId b ++ currentPlans planId l
          from fun _ => rfl, bookedAt_append]
      apply add_le_add _ ih
      split
      · next hcov => exact heldOn_le_bookedAt hposb hcov.1 hcov.2
      · exact bookedAt_nonneg (segmentsOf_nonneg hposb) t
    · -- any other one holds nothing that counts
      rw [filter_cons_of_neg hb]
      have hzero : (if b.start ≤ t ∧ t ≤ b.end_ then b.heldOn planId priority else 0) = 0 := by
        split
        · next hcov =>
          exact heldOn_eq_zero hstart hend hcov (hprofile b (.head _))
            (by simpa using hb)
        · rfl
      omega

theorem heldUnits_le_count (hpos : ∀ b ∈ bookings, ∀ e ∈ b.plans, 1 ≤ e.unitsBooked)
    (hprofile : ∀ b ∈ bookings, ∀ e ∈ b.plans, e.planId = planId → subitemId ∈ b.vgpus)
    (hstart : start ≤ t) (hend : t ≤ end_) :
    heldUnits bookings planId priority t
      ≤ countNonOverridableBookings P bookings planId subitemId priority start end_ := by
  set selected := isNonOverridable planId subitemId priority start end_
  have hsum : heldUnits bookings planId priority t
      ≤ bookedAt (currentPlans planId (bookings.filter selected)) t :=
    heldUnits_le_bookedAt hpos hprofile hstart hend
  show _ ≤ if (bookings.filter selected).isEmpty then 0
    else maxUnits P (currentPlans planId (bookings.filter selected))
  split
  · next hempty =>
    rw [List.isEmpty_iff.mp hempty] at hsum
    exact hsum
  · refine hsum.trans (bookedAt_le_maxUnits P ?_ t)
    intro s hs
    obtain ⟨b, hb, hs⟩ := mem_flatMap.mp hs
    exact segmentsOf_nonneg (hpos b (mem_of_mem_filter hb)) s hs

/-! ## What the greedy distribution gives

The desktop branch is the deployment loop for one unit, so both branches are described by
the loop: a plan is chosen when it has room and the plans listed before it do not already
have enough. -/

def roomIn (avail : Plan T → Int) (plans : List (Plan T)) : Int :=
  (plans.map fun p => max 0 (avail p)).sum

section Assign

variable {T : Type} {avail : Plan T → Int} {plan : Plan T} {plans : List (Plan T)}
  {remaining : Int}

theorem roomIn_cons :
    roomIn avail (plan :: plans) = max 0 (avail plan) + roomIn avail plans := by
  simp [roomIn]

theorem roomIn_nonneg (avail : Plan T → Int) (plans : List (Plan T)) :
    0 ≤ roomIn avail plans := by
  apply sum_nonneg
  intro x hx
  obtain ⟨p, _, rfl⟩ := mem_map.mp hx
  exact le_max_left 0 _

theorem assignUnits_left (plans : List (Plan T)) (h : 0 ≤ remaining) :
    (assignUnits avail plans remaining).2 = max 0 (remaining - roomIn avail plans) := by
  fun_induction assignUnits avail plans remaining with
  | case1 => simp [roomIn, h]
  | case2 p plans remaining havail hmore chosen left heq ih =>
    have hroom := roomIn_nonneg avail plans
    rw [heq] at ih
    rw [roomIn_cons, ih (by omega)]
    omega
  | case3 p plans remaining havail hlast =>
    have hroom := roomIn_nonneg avail plans
    rw [roomIn_cons]
    omega
  | case4 p plans remaining hfull ih =>
    rw [roomIn_cons, ih h]
    omega

theorem assignUnits_sum (plans : List (Plan T)) (remaining : Int) :
    ((assignUnits avail plans remaining).1.map ChosenPlan.unitsBooked).sum
      + (assignUnits avail plans remaining).2 = remaining := by
  fun_induction assignUnits avail plans remaining with
  | case1 => simp
  | case2 p plans remaining havail hmore chosen left heq ih =>
    simp only [heq, map_cons, sum_cons] at ih ⊢
    omega
  | case3 => simp
  | case4 _ _ _ _ ih => exact ih

variable {c : ChosenPlan T}

/-- The plan is one of the list, and what the plans before it leave of the units goes to it. -/
abbrev Gets (avail : Plan T → Int) (plans : List (Plan T)) (units : Int) (c : ChosenPlan T) :
    Prop :=
  ∃ before after, plans = before ++ c.plan :: after ∧ 0 < avail c.plan
    ∧ roomIn avail before < units
    ∧ c.unitsBooked = min (avail c.plan) (units - roomIn avail before)

theorem gets_cons (h : 0 < remaining) :
    Gets avail (plan :: plans) remaining c
      ↔ (c.plan = plan ∧ 0 < avail plan ∧ c.unitsBooked = min (avail plan) remaining)
        ∨ Gets avail plans (remaining - max 0 (avail plan)) c := by
  constructor
  · intro ⟨before, after, heq, havail, hroom, hunits⟩
    cases before with
    | nil =>
      obtain ⟨rfl, rfl⟩ := List.cons.inj heq
      exact .inl ⟨rfl, havail, by simpa [roomIn] using hunits⟩
    | cons q before =>
      obtain ⟨rfl, rfl⟩ := List.cons.inj heq
      rw [roomIn_cons] at hroom hunits
      exact .inr ⟨before, after, rfl, havail, by omega, by rw [hunits, sub_sub]⟩
  · rintro (⟨rfl, havail, hunits⟩ | ⟨before, after, rfl, havail, hroom, hunits⟩)
    · exact ⟨[], plans, rfl, havail, by simpa [roomIn] using h, by simpa [roomIn] using hunits⟩
    · refine ⟨plan :: before, after, rfl, havail, ?_, ?_⟩ <;> rw [roomIn_cons] <;> omega

theorem mem_assignUnits (plans : List (Plan T)) (h : 0 < remaining) :
    c ∈ (assignUnits avail plans remaining).1 ↔ Gets avail plans remaining c := by
  fun_induction assignUnits avail plans remaining with
  | case1 => simp
  | case2 p plans remaining havail hmore chosen left heq ih =>
    -- the plan gives all it has, and the rest of the loop sees less to place
    rw [heq] at ih
    rw [gets_cons h, mem_cons, ih hmore, show max 0 (avail p) = avail p by omega,
      show min (avail p) remaining = avail p by omega]
    apply or_congr_left
    constructor
    · rintro rfl
      exact ⟨rfl, havail, rfl⟩
    · intro ⟨hplan, _, hunits⟩
      exact ChosenPlan.ext hplan hunits
  | case3 p plans remaining havail hlast =>
    -- the plan gives what is left; for any later plan there is room enough before it
    rw [gets_cons h, mem_singleton, show min (avail p) remaining = remaining by omega]
    constructor
    · rintro rfl
      exact .inl ⟨rfl, havail, rfl⟩
    · rintro (⟨hplan, _, hunits⟩ | ⟨before, _, _, _, hroom, _⟩)
      · exact ChosenPlan.ext hplan hunits
      · have := roomIn_nonneg avail before
        omega
  | case4 p plans remaining hfull ih =>
    rw [gets_cons h, ih h, show max 0 (avail p) = 0 by omega, sub_zero]
    constructor
    · exact fun hc => .inr hc
    · rintro (⟨_, h, _⟩ | hc)
      · exact absurd h hfull
      · exact hc

end Assign

theorem getSamePlansForBooking_eq (bookings : List (Booking T)) (plans : List (Plan T))
    (subitemId : String) (priority : Int) (start end_ : T) (units : Int) :
    getSamePlansForBooking P bookings plans subitemId priority start end_ units
      = if 0 < (assignUnits (availInPlan P bookings subitemId priority start end_)
          (fittingPlans plans start end_) (max units 1)).2 then []
        else (assignUnits (availInPlan P bookings subitemId priority start end_)
          (fittingPlans plans start end_) (max units 1)).1 := by
  unfold getSamePlansForBooking
  dsimp only
  split
  · next hunits => rw [max_eq_left (by omega)]
  · next hunits =>
    rw [max_eq_right (by omega)]
    -- the search for a first plan with room, against the loop for one unit
    induction fittingPlans plans start end_ with
    | nil => simp [assignUnits]
    | cons p fitting ih =>
      have hroom : (0 ≤ p.units - 1
          - countNonOverridableBookings P bookings p.id subitemId priority start end_)
          ↔ 0 < availInPlan P bookings subitemId priority start end_ p := by
        unfold availInPlan
        omega
      by_cases havail : 0 < availInPlan P bookings subitemId priority start end_ p
      · rw [find?_cons_of_pos (by simpa using hroom.mpr havail), assignUnits, if_pos havail,
          if_neg (not_lt.mpr (sub_nonpos.mpr (show (1 : Int) ≤ _ from havail)))]
        rfl
      · rw [find?_cons_of_neg (by simpa using fun h => havail (hroom.mp h)), assignUnits,
          if_neg havail]
        exact ih

variable {plans : List (Plan T)} {c : ChosenPlan T}

theorem mem_getSamePlansForBooking :
    c ∈ getSamePlansForBooking P bookings plans subitemId priority start end_ units ↔
      max units 1 ≤ roomIn (availInPlan P bookings subitemId priority start end_)
          (fittingPlans plans start end_)
        ∧ Gets (availInPlan P bookings subitemId priority start end_)
          (fittingPlans plans start end_) (max units 1) c := by
  rw [getSamePlansForBooking_eq, assignUnits_left _ (by omega)]
  split
  · next hleft =>
    constructor
    · intro hc
      cases hc
    · intro ⟨hroom, _⟩
      omega
  · next hleft =>
    rw [mem_assignUnits _ (by omega)]
    constructor
    · exact fun hc => ⟨by omega, hc⟩
    · exact fun hc => hc.2

theorem getSamePlansForBooking_sum
    (hne : getSamePlansForBooking P bookings plans subitemId priority start end_ units ≠ []) :
    ((getSamePlansForBooking P bookings plans subitemId priority start end_ units).map
      ChosenPlan.unitsBooked).sum = max units 1 := by
  rw [getSamePlansForBooking_eq] at hne ⊢
  set avail := availInPlan P bookings subitemId priority start end_
  set fitting := fittingPlans plans start end_
  have hsum : ((assignUnits avail fitting (max units 1)).1.map ChosenPlan.unitsBooked).sum
      + (assignUnits avail fitting (max units 1)).2 = max units 1 := assignUnits_sum _ _
  have hleft : (assignUnits avail fitting (max units 1)).2 = max 0 (max units 1 - _) :=
    assignUnits_left _ (by omega)
  split at hne
  · exact absurd rfl hne
  · rw [if_neg ‹_›]
    omega

variable {planner : List (Plan T)}

theorem plan_of_mem_plansForSubitem {priority : String → Int} {s : String}
    (hc : c ∈ plansForSubitem P planner bookings now priority start end_ units s) :
    c.plan ∈ planner ∧ c.plan.subitemId = s := by
  obtain ⟨_, before, after, hsplit, _⟩ := (mem_getSamePlansForBooking P).mp hc
  have hmem : c.plan ∈ fittingPlans (getSubitemsPlanning planner s now) start end_ := by
    rw [hsplit]
    exact mem_append_right _ (.head _)
  have hplanning := mem_filter.mp (mem_of_mem_filter hmem)
  simp only [Bool.and_eq_true, decide_eq_true_eq] at hplanning
  exact ⟨hplanning.1, hplanning.2.1⟩

theorem newBookingPlans_spec {priority : String → Int} {vgpus : List String}
    (hne : newBookingPlans P planner bookings now priority vgpus start end_ units ≠ []) :
    newBookingPlans P planner bookings now priority vgpus start end_ units
        = vgpus.map (fun s =>
            (s, plansForSubitem P planner bookings now priority start end_ units s))
      ∧ vgpus.Nodup
      ∧ (∀ s ∈ vgpus, plansForSubitem P planner bookings now priority start end_ units s ≠ [])
      ∧ ((newBookingPlans P planner bookings now priority vgpus start end_ units).flatMap
          fun kv => kv.2.map fun c => c.plan.itemId).Nodup := by
  set plansOf := plansForSubitem P planner bookings now priority start end_ units
  set plans := vgpus.dedup.map fun s => (s, plansOf s) with hplans
  set nonEmpty := plans.filter fun kv => !kv.2.isEmpty with hnonEmpty
  set itemIds := nonEmpty.flatMap fun kv => kv.2.map fun c => c.plan.itemId with hitemIds
  have heq : newBookingPlans P planner bookings now priority vgpus start end_ units
      = if nonEmpty.length ≠ vgpus.length then []
        else if itemIds.dedup.length ≠ itemIds.length then [] else nonEmpty := rfl
  rw [heq] at hne ⊢
  have hlen : nonEmpty.length = vgpus.length := by
    by_contra h
    rw [if_pos h] at hne
    exact hne rfl
  have hcards : itemIds.dedup.length = itemIds.length := by
    by_contra h
    rw [if_neg (by simpa using hlen), if_pos h] at hne
    exact hne rfl
  rw [if_neg (by simpa using hlen), if_neg (by simpa using hcards)]
  -- nothing was dropped between the requested list and the non-empty entries
  have hle1 : nonEmpty.length ≤ plans.length := length_filter_le _ _
  have hle2 : vgpus.dedup.length ≤ vgpus.length := (dedup_sublist vgpus).length_le
  have hplansLen : plans.length = vgpus.dedup.length := by simp [hplans]
  have hdedup : vgpus.dedup = vgpus :=
    (dedup_sublist vgpus).eq_of_length (by omega)
  have hall : nonEmpty = plans :=
    Sublist.eq_of_length filter_sublist
      (show nonEmpty.length = plans.length by omega)
  refine ⟨by rw [hall, hplans, hdedup], dedup_eq_self.mp hdedup, ?_, ?_⟩
  · intro s hs hnil
    have hmem : (s, plansOf s) ∈ nonEmpty := by
      rw [hall, hplans, hdedup]
      exact mem_map_of_mem hs
    have := (mem_filter.mp hmem).2
    simp [hnil] at this
  · exact dedup_eq_self.mp ((dedup_sublist itemIds).eq_of_length hcards)

end IsardVDI.Bookings
