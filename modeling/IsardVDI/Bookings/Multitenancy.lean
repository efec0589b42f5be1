import IsardVDI.Bookings.PlannerCompute
import Mathlib.Algebra.Order.Field.Basic

/-!
# Bookings — category delegation of cards

`gpu_multitenancy`: a card may be delegated to a category, and the plans of a card are
shown to the members of that category only (undelegated cards also to the categories that
draw from the global pool). `booking_provisioning` filters what it shows through
`filterGpuPlansByCategory`. `new_booking_plans` does not, so a plan the requester cannot
see may be booked; `newBookingPlans_scoped_iff` says exactly when this does not happen.
-/

namespace IsardVDI.Bookings

/-! ## The helpers -/

/-- A row of `gpus`; `category` is the owner, `none` for an undelegated card. -/
structure Gpu where
  id : String
  category : Option String
  deriving DecidableEq, Repr

structure Category where
  id : String
  gpuUseGlobalPool : Option Bool
  deriving DecidableEq, Repr

inductive Role where
  | admin
  | manager
  | advanced
  | user
  deriving DecidableEq, Repr

structure Payload where
  roleId : Role
  categoryId : Option String
  deriving DecidableEq, Repr

def gpuOwnerCategory (card : Gpu) : Option String := card.category

def categoryUsesGlobalPool (categories : List Category) (categoryId : Option String) : Bool :=
  match categoryId with
  | none => true
  | some id =>
    if id = "" then true
    else
      match categories.find? fun c => c.id = id with
      | none => true
      | some category => category.gpuUseGlobalPool.getD true

def cardVisible (ownerCategory requesterCategory : Option String) (useGlobal : Bool) : Bool :=
  decide (ownerCategory = requesterCategory) || (useGlobal && ownerCategory.isNone)

/-- `none` is "unrestricted". -/
def visibleGpuCardIds (gpus : List Gpu) (categories : List Category) (payload : Option Payload) :
    Option (List String) :=
  match payload with
  | none => none
  | some payload =>
    if payload.roleId = .admin then none
    else
      let useGlobal := categoryUsesGlobalPool categories payload.categoryId
      some ((gpus.filter fun card =>
        cardVisible (gpuOwnerCategory card) payload.categoryId useGlobal).map Gpu.id)

def filterGpuPlansByCategory {T : Type} (gpus : List Gpu) (categories : List Category)
    (plans : List (Plan T)) (payload : Option Payload) : List (Plan T) :=
  match visibleGpuCardIds gpus categories payload with
  | none => plans
  | some visible => plans.filter fun plan =>
    decide (plan.itemType ≠ .gpus) || decide (plan.itemId ∈ visible)

/-! ## Admission against the filter -/

variable {T : Type} [LinearOrder T]

def Hidden (gpus : List Gpu) (categories : List Category) (payload : Option Payload)
    (plan : Plan T) : Prop :=
  plan ∉ filterGpuPlansByCategory gpus categories [plan] payload

/-- Among the listed plans that contain the window, a hidden plan with room comes only
after plans that already have room for all the units. -/
def HiddenComesLast (P : Portion T) (planner : List (Plan T)) (bookings : List (Booking T))
    (now : T) (priority : String → Int) (start end_ : T) (units : Int)
    (hidden : Plan T → Prop) (subitemId : String) : Prop :=
  ∀ before plan after,
    fittingPlans (getSubitemsPlanning planner subitemId now) start end_
        = before ++ plan :: after →
      hidden plan →
      0 < availInPlan P bookings subitemId (priority subitemId) start end_ plan →
      max units 1
        ≤ roomIn (availInPlan P bookings subitemId (priority subitemId) start end_) before

/-- A profile that is placed is placed on visible plans only exactly when no hidden plan
with room is met before the units are covered. -/
theorem plansForSubitem_visible_iff (P : Portion T) {planner : List (Plan T)}
    {bookings : List (Booking T)} {now : T} {priority : String → Int} {start end_ : T}
    {units : Int} {subitemId : String} (hidden : Plan T → Prop)
    (hne : plansForSubitem P planner bookings now priority start end_ units subitemId ≠ []) :
    (∀ c ∈ plansForSubitem P planner bookings now priority start end_ units subitemId,
        ¬ hidden c.plan)
      ↔ HiddenComesLast P planner bookings now priority start end_ units hidden subitemId := by
  obtain ⟨d, hd⟩ := List.exists_mem_of_ne_nil _ hne
  obtain ⟨htotal, _⟩ := (mem_getSamePlansForBooking P).mp hd
  constructor
  · intro hvisible before plan after hsplit hhidden havail
    by_contra hroom
    -- the plan is reached with units still to place, so it is chosen
    let avail := availInPlan P bookings subitemId (priority subitemId) start end_
    let c : ChosenPlan T := ⟨plan, min (avail plan) (max units 1 - roomIn avail before)⟩
    have hchosen : c ∈ plansForSubitem P planner bookings now priority start end_ units
        subitemId :=
      (mem_getSamePlansForBooking P).mpr
        ⟨htotal, before, after, hsplit, havail, not_le.mp hroom, rfl⟩
    exact hvisible c hchosen hhidden
  · intro hlast c hc hhidden
    obtain ⟨_, before, after, hsplit, havail, hroom, _⟩ :=
      (mem_getSamePlansForBooking P).mp hc
    exact absurd (hlast before c.plan after hsplit hhidden havail) (not_le.mpr hroom)

/-- **Admission keeps to the requester's cards exactly when**, for every profile of an
accepted booking, no hidden plan with room is met before the units are covered. -/
theorem newBookingPlans_scoped_iff (P : Portion T) (planner : List (Plan T))
    (bookings : List (Booking T)) (now : T) (priority : String → Int) (vgpus : List String)
    (start end_ : T) (units : Int) (gpus : List Gpu) (categories : List Category)
    (payload : Option Payload)
    (hne : newBookingPlans P planner bookings now priority vgpus start end_ units ≠ []) :
    (∀ kv ∈ newBookingPlans P planner bookings now priority vgpus start end_ units,
        ∀ c ∈ kv.2, c.plan ∈ filterGpuPlansByCategory gpus categories [c.plan] payload)
      ↔ ∀ s ∈ vgpus, HiddenComesLast P planner bookings now priority start end_ units
          (Hidden gpus categories payload) s := by
  obtain ⟨heq, _, hplaced, _⟩ := newBookingPlans_spec P hne
  have hprofiles : (∀ kv ∈ newBookingPlans P planner bookings now priority vgpus start end_ units,
        ∀ c ∈ kv.2, c.plan ∈ filterGpuPlansByCategory gpus categories [c.plan] payload)
      ↔ ∀ s ∈ vgpus,
        ∀ c ∈ plansForSubitem P planner bookings now priority start end_ units s,
          ¬ Hidden gpus categories payload c.plan := by
    rw [heq]
    simp only [List.forall_mem_map, Hidden, not_not]
  rw [hprofiles]
  exact forall₂_congr fun s hs => plansForSubitem_visible_iff P _ (hplaced s hs)

/-- A plan of the profile on a card. -/
def cardPlan (card : String) : Plan ℚ :=
  ⟨"plan-" ++ card, .gpus, card, "A40-8Q", 2, 0, 10, "admin", "available"⟩

def cards : List Gpu := [⟨"card", some "physics"⟩, ⟨"own", some "arts"⟩]

def someone : Option Payload := some ⟨.user, some "arts"⟩

/-- The card of `arts` is listed first and has room, so a user of `arts` gets a plan on it. -/
theorem newBookingPlans_books_own :
    ∃ plans, newBookingPlans (Portion.pieces ℚ) [cardPlan "own", cardPlan "card"] [] 0
        (fun _ => 1) ["A40-8Q"] 1 2 1 = plans
      ∧ plans = [("A40-8Q", [⟨cardPlan "own", 1⟩])]
      ∧ ∀ kv ∈ plans, ∀ c ∈ kv.2, c.plan ∈ filterGpuPlansByCategory cards [] [c.plan] someone := by
  have hplans : newBookingPlans (Portion.pieces ℚ) [cardPlan "own", cardPlan "card"] [] 0
      (fun _ => 1) ["A40-8Q"] 1 2 1 = [("A40-8Q", [⟨cardPlan "own", 1⟩])] := rfl
  refine ⟨_, rfl, hplans, (newBookingPlans_scoped_iff _ _ _ _ _ _ _ _ _ cards [] someone
    (hplans ▸ List.cons_ne_nil _ _)).mpr
    (List.forall_mem_singleton.mpr fun before plan after hsplit hhidden _ => ?_)⟩
  have hlisted : [cardPlan "own", cardPlan "card"] = before ++ plan :: after := hsplit
  simp only [List.cons_eq_append_iff, List.cons.injEq, List.nil_eq, List.append_eq_nil_iff,
    reduceCtorEq, and_false, or_false, exists_const] at hlisted
  rcases hlisted with ⟨rfl, rfl, rfl⟩ | ⟨_, rfl, rfl, rfl, rfl⟩
  · exact absurd (List.mem_singleton_self _) hhidden
  · decide +kernel

/-- A user of the category `arts` gets a plan on the card of `physics`, which the filter
hides from them. -/
theorem newBookingPlans_books_hidden :
    newBookingPlans (Portion.pieces ℚ) [cardPlan "card"] [] 0 (fun _ => 1) ["A40-8Q"] 1 2 1
        = [("A40-8Q", [⟨cardPlan "card", 1⟩])]
      ∧ filterGpuPlansByCategory cards [] [cardPlan "card"] someone = [] := by
  constructor <;> rfl

end IsardVDI.Bookings
