import IsardVDI.Bookings.PlanWindows
import IsardVDI.Lib.Fallible

/-!
# Bookings — `ReservablesPlannerProccess.update_plan`

`update_plan` deletes bookings and then hands the stored plan, with the window it has, to
`add_plan`. The plan overlaps itself, so this always raises (`addPlan_again`). The bookings it
has deleted by then are those whose window is the new one: the first query asks for bookings that
cover the new window, and those that stick out of it are taken off again.
-/

namespace IsardVDI.Bookings

/-- `r.row["plans"].contains(...)`. -/
def bookingsOnPlan (bookings : List (Booking Int)) (planId : String) : List (Booking Int) :=
  bookings.filter fun b => b.plans.any fun p => p.planId = planId

section

variable (bookings : List (Booking Int)) (planId : String) (start end_ : Int)

def bookingsInActualPlan : List (Booking Int) :=
  (bookingsOnPlan bookings planId).filter fun b =>
    decide (b.start ≤ start) && decide (end_ ≤ b.end_)

def bookingsFailingInNewRange : List (Booking Int) :=
  (bookingsOnPlan bookings planId).filter fun b =>
    decide (b.start < start) || decide (end_ < b.end_)

def bookingsToRemove : List String :=
  if (bookingsInActualPlan bookings planId start end_).length
      = (bookingsFailingInNewRange bookings planId start end_).length then []
  else
    ((bookingsInActualPlan bookings planId start end_).filter fun b =>
      !decide (b ∈ bookingsFailingInNewRange bookings planId start end_)).map Booking.id

inductive UpdatePlanError where
  /-- There is no plan: `add_plan` gets `None`. -/
  | noPlan
  | addPlan (e : PlanError)
  deriving DecidableEq, Repr

/-- The stored plan as the body of `add_plan`. -/
def Plan.again (plan : Plan Int) (userId newId : String) (subitemUnits : Option Int) :
    PlanRequest :=
  ⟨userId, plan.itemType, plan.itemId, plan.subitemId, plan.start, plan.end_, newId, subitemUnits⟩

def updatePlan (table : List (Plan Int)) (userId newId : String) (subitemUnits : Option Int) :
    (List (Plan Int) × List (Booking Int)) × Except UpdatePlanError String :=
  let bookings := bookings.filter fun b =>
    !decide (b.id ∈ bookingsToRemove bookings planId start end_)
  match table.find? fun p => p.id = planId with
  | none => ((table, bookings), .error .noPlan)
  | some plan =>
    match addPlan table (plan.again userId newId subitemUnits) with
    | .error e => ((table, bookings), .error (.addPlan e))
    | .ok (table, id) => ((table, bookings), .ok id)

/-- The update raises and changes nothing, or the plan has the rounded window and the bookings of
the plan that lie inside it, and no others. -/
def UpdatesAtomically (table : List (Plan Int))
    (out : (List (Plan Int) × List (Booking Int)) × Except UpdatePlanError String) : Prop :=
  ((∃ e, out.2 = .error e) ∧ out.1 = (table, bookings))
    ∨ ((∃ id, out.2 = .ok id) ∧ ∃ p ∈ out.1.1, p.id = planId ∧ p.start = ceilDt start
      ∧ p.end_ = ceilDt end_ - second
      ∧ (∀ b ∈ bookingsOnPlan out.1.2 planId, p.start ≤ b.start ∧ b.end_ ≤ p.end_)
      ∧ ∀ b ∈ bookingsOnPlan bookings planId, p.start ≤ b.start → b.end_ ≤ p.end_ → b ∈ out.1.2)

/-- Some booking of the plan has the new window. Where as many bookings cover the new window as
stick out of it, the code takes the two queries to be the same. -/
def RemovesSome : Prop :=
  (∃ b ∈ bookingsOnPlan bookings planId, b.start = start ∧ b.end_ = end_)
    ∧ (bookingsInActualPlan bookings planId start end_).length
      ≠ (bookingsFailingInNewRange bookings planId start end_).length

end

variable {bookings : List (Booking Int)} {planId : String} {start end_ : Int}

theorem mem_bookingsToRemove {id : String} :
    id ∈ bookingsToRemove bookings planId start end_
      ↔ (∃ b ∈ bookingsOnPlan bookings planId, (b.start = start ∧ b.end_ = end_) ∧ b.id = id)
        ∧ (bookingsInActualPlan bookings planId start end_).length
          ≠ (bookingsFailingInNewRange bookings planId start end_).length := by
  unfold bookingsToRemove
  split
  · next heq => simp [heq]
  · next hne =>
    rw [and_iff_left hne, List.mem_map]
    refine exists_congr fun b => ?_
    simp only [bookingsInActualPlan, bookingsFailingInNewRange, List.mem_filter, Bool.and_eq_true,
      Bool.or_eq_true, decide_eq_true_eq, Bool.not_eq_true', decide_eq_false_iff_not]
    by_cases hb : b ∈ bookingsOnPlan bookings planId
    · simp only [hb, true_and]
      refine and_congr_left fun _ => ?_
      omega
    · simp [hb]

variable {table : List (Plan Int)} {plan : Plan Int}

theorem placePlan_checks {r : List (Plan Int) × String} (h : placePlan table plan = .ok r) :
    checkPlanItemIdOverlapped table plan = .ok ()
      ∨ checkPlanSubitemIdOverlapped table plan = .ok () := by
  unfold placePlan at h
  cases htype : plan.itemType with
  | gpus =>
    simp only [htype, planningItemCanOverlap, Bool.not_false, if_true] at h
    obtain ⟨_, hcheck, -⟩ := bind_eq_ok.mp h
    exact .inl hcheck
  | usbs =>
    simp only [htype, planningItemCanOverlap, planningSubitemCanOverlap, Bool.not_true,
      Bool.not_false, Bool.false_eq_true, if_false, if_true] at h
    obtain ⟨_, hcheck, -⟩ := bind_eq_ok.mp h
    exact .inr hcheck

/-- **A stored plan overlaps itself**, whatever its window is: it cannot be added again. -/
theorem addPlan_again (hplan : plan ∈ table) (userId newId : String) (units : Option Int)
    (r : List (Plan Int) × String) : addPlan table (plan.again userId newId units) ≠ .ok r := by
  intro hadd
  unfold addPlan at hadd
  split at hadd
  · cases hadd
  · next hwindow =>
    cases units with
    | none => cases hadd
    | some units =>
      -- neither end of the stored window can be rounded out of the reach of the queries
      have hself : ∀ scope rows, plan ∈ rows →
          checkPlanOverlapped scope rows (newPlan (plan.again userId newId (some units)) units)
            ≠ .ok () := by
        intro scope rows hmem hcheck
        have hapart := checkPlanOverlapped_ok.mp hcheck plan hmem
        simp only [newPlan, Plan.again, ceilDt, roundStep_eq, second_eq] at hapart hwindow
        omega
      rcases placePlan_checks hadd with hcheck | hcheck
      · exact hself _ _ (List.mem_filter.mpr ⟨hplan, by simp [newPlan, Plan.again]⟩) hcheck
      · exact hself _ _ (List.mem_filter.mpr ⟨hplan, by simp [newPlan, Plan.again]⟩) hcheck

/-- **`update_plan` is atomic exactly if no booking has the new window**, or as many bookings cover
it as stick out of it. It always raises, and leaves the planner alone. -/
theorem updatePlan_atomic_iff (table : List (Plan Int)) (bookings : List (Booking Int))
    (planId userId newId : String) (units : Option Int) (start end_ : Int) :
    UpdatesAtomically bookings planId start end_ table
        (updatePlan bookings planId start end_ table userId newId units)
      ↔ ¬ RemovesSome bookings planId start end_ := by
  have hraises : ∃ e, updatePlan bookings planId start end_ table userId newId units
      = ((table, bookings.filter fun b =>
        !decide (b.id ∈ bookingsToRemove bookings planId start end_)), .error e) := by
    unfold updatePlan
    cases hfind : table.find? fun p => p.id = planId with
    | none => exact ⟨_, rfl⟩
    | some plan =>
      dsimp only
      cases hadd : addPlan table (plan.again userId newId units) with
      | error e => exact ⟨_, rfl⟩
      | ok r => exact absurd hadd (addPlan_again (List.mem_of_find?_eq_some hfind) _ _ _ r)
  obtain ⟨e, he⟩ := hraises
  have hkept : UpdatesAtomically bookings planId start end_ table
      (updatePlan bookings planId start end_ table userId newId units)
        ↔ ∀ b ∈ bookings, b.id ∉ bookingsToRemove bookings planId start end_ := by
    simp [UpdatesAtomically, he]
  rw [hkept]
  refine ⟨fun hnone hsome => ?_, fun hnone b _ hb => ?_⟩
  · obtain ⟨⟨b, hb, hwindow⟩, hne⟩ := hsome
    exact hnone b (List.mem_of_mem_filter hb)
      (mem_bookingsToRemove.mpr ⟨⟨b, hb, hwindow, rfl⟩, hne⟩)
  · obtain ⟨⟨c, hc, hwindow, -⟩, hne⟩ := mem_bookingsToRemove.mp hb
    exact hnone ⟨⟨c, hc, hwindow⟩, hne⟩

/-- The plan of an hour is cut to the half hour of its booking: the update raises, and the booking
that fits is gone. -/
theorem updatePlan_deletes_fitting :
    ∃ e, updatePlan [⟨"b", .desktop, "d", 1, ["A40-8Q"], 0, 1800000000, "", "u",
        [⟨"plan", "card", "A40-8Q", 1, 1⟩]⟩] "plan" 0 1800000000
        [⟨"plan", .gpus, "card", "A40-8Q", 2, 0, 3599000000, "admin", "available"⟩] "admin" "new"
        (some 2)
      = (([⟨"plan", .gpus, "card", "A40-8Q", 2, 0, 3599000000, "admin", "available"⟩], []),
        .error e) :=
  ⟨_, rfl⟩

end IsardVDI.Bookings
