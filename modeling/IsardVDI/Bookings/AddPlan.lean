import IsardVDI.Lib.Machine
import IsardVDI.Bookings.Tables

/-!
# Bookings — `ReservablesPlannerProccess.add_plan`

`add_plan` rounds the requested window, refuses it when it overlaps a plan already in the
table (of the same card for GPUs, of the same profile for USBs), and otherwise joins it to
the neighbouring plans of the same profile or inserts it. The scheduler jobs it moves along
are not part of the table and are left out.
-/

namespace IsardVDI.Bookings

/-! ## Rounding -/

def second : Int := 1000000

def roundMinutes : Int := 5

def roundStep : Int := roundMinutes * (60 * second)

/-- `ceil_dt`: `dt + (datetime.min - dt) % timedelta(minutes=ROUND_MINUTES)`, with
`datetime.min` the origin of the time line. -/
def ceilDt (dt : Int) : Int := dt + (0 - dt) % roundStep

/-! ## Requests, behaviours and errors -/

/-- The arguments of `add_plan` with what it gets from outside the planner table:
`newId` is `str(uuid.uuid4())`, `subitemUnits` the answer of `get_subitem_units`
(`none` when it raises). -/
structure PlanRequest where
  userId : String
  itemType : ItemType
  itemId : String
  subitemId : String
  start : Int
  end_ : Int
  newId : String
  subitemUnits : Option Int
  deriving DecidableEq, Repr

def planningItemCanOverlap : ItemType → Bool
  | .gpus => false
  | .usbs => true

def planningSubitemCanOverlap : ItemType → Bool
  | .gpus => true
  | .usbs => false

def planningSubitemJoinBefore : ItemType → Bool
  | .gpus => true
  | .usbs => true

def planningSubitemJoinAfter : ItemType → Bool
  | .gpus => true
  | .usbs => true

/-- Which of the two overlap checks raised. -/
inductive OverlapScope where
  | item
  | subitem
  deriving DecidableEq, Repr

/-- Which of its three queries found a row. -/
inductive OverlapKind where
  | startingTime
  | endTime
  | completely
  deriving DecidableEq, Repr

/-- The errors of `add_plan`, by description code. A conflict carries the two plans its
text names. -/
inductive PlanError where
  | invalidEndDate
  | incorrectNewPlanBodyData
  | conflict (scope : OverlapScope) (kind : OverlapKind) (plan existing : Plan Int)
  | unableToInsert
  deriving DecidableEq, Repr

/-! ## The overlap checks -/

/-- RethinkDB's `during`, left-closed and right-open. -/
def during (x a b : Int) : Bool := a ≤ x && x < b

/-- The three queries shared by the two checks, on the rows each of them selects. -/
def checkPlanOverlapped (scope : OverlapScope) (rows : List (Plan Int))
    (plan : Plan Int) : Except PlanError Unit :=
  let overlapsStart := rows.filter fun r => during r.start plan.start plan.end_
  let overlapsEnd := rows.filter fun r => during r.end_ plan.start plan.end_
  let overlapsCompletely := rows.filter fun r =>
    decide (r.start ≤ plan.start) && decide (plan.end_ ≤ r.end_)
  match overlapsStart, overlapsEnd, overlapsCompletely with
  | o :: _, _, _ => .error (.conflict scope .startingTime plan o)
  | [], o :: _, _ => .error (.conflict scope .endTime plan o)
  | [], [], o :: _ => .error (.conflict scope .completely plan o)
  | [], [], [] => .ok ()

variable (table : List (Plan Int)) (plan : Plan Int)

/-- `check_plan_item_id_overlapped`: against every plan of the card, whatever its profile. -/
def checkPlanItemIdOverlapped : Except PlanError Unit :=
  checkPlanOverlapped .item (table.filter fun r => r.itemId = plan.itemId) plan

/-- `check_plan_subitem_id_overlapped`: against the plans of the same profile of the card. -/
def checkPlanSubitemIdOverlapped : Except PlanError Unit :=
  checkPlanOverlapped .subitem
    (table.filter fun r =>
      r.itemType = plan.itemType && r.itemId = plan.itemId && r.subitemId = plan.subitemId)
    plan

/-! ## Joining and inserting -/

def updatePlanRow (id : String) (f : Plan Int → Plan Int) : List (Plan Int) :=
  table.map fun r => if r.id = id then f r else r

/-- The row `join_existing_plan_after_new_plan_start` looks for: a plan of the same card
and profile that starts right after the new one. -/
def planStartingAfter : Option (Plan Int) :=
  table.find? fun r =>
    r.itemId = plan.itemId && r.subitemId = plan.subitemId && r.start = plan.end_ + second

/-- The row `join_existing_plan_before_new_plan_end` looks for: a plan of the same card
and profile that ends right before the new one. -/
def planEndingBefore : Option (Plan Int) :=
  table.find? fun r =>
    r.itemId = plan.itemId && r.subitemId = plan.subitemId && r.end_ = plan.start - second

def joinExistingPlanAfterNewPlanStart : List (Plan Int) × Option (Plan Int) :=
  match planStartingAfter table plan with
  | some r => (updatePlanRow table r.id fun p => { p with start := plan.start }, some r)
  | none => (table, none)

def joinExistingPlanBeforeNewPlanEnd : List (Plan Int) × Option (Plan Int) :=
  match planEndingBefore table plan with
  | some r => (updatePlanRow table r.id fun p => { p with end_ := plan.end_ }, some r)
  | none => (table, none)

/-- `ResourcePlanner.insert_plan`: `none` when nothing was inserted because the primary
key is taken. -/
def insertPlan : Option (List (Plan Int)) :=
  if table.any fun r => r.id = plan.id then none else some (table ++ [plan])

/-! ## `add_plan` -/

/-- The plan `add_plan` builds from a request: the start rounded up, the end rounded up
less one second. -/
def newPlan (req : PlanRequest) (units : Int) : Plan Int where
  id := req.newId
  itemType := req.itemType
  itemId := req.itemId
  subitemId := req.subitemId
  units := units
  start := ceilDt req.start
  end_ := ceilDt req.end_ - second
  userId := req.userId
  eventType := "available"

/-- The critical section of `add_plan`: checks, joins, insert. Returns the table and the
id of the plan that now holds the window. -/
def placePlan : Except PlanError (List (Plan Int) × String) := do
  if !planningItemCanOverlap plan.itemType then
    checkPlanItemIdOverlapped table plan
  if !planningSubitemCanOverlap plan.itemType then
    checkPlanSubitemIdOverlapped table plan
  let (table, joinedStart) :=
    if planningSubitemJoinBefore plan.itemType then
      joinExistingPlanAfterNewPlanStart table plan
    else (table, none)
  let (table, joinedEnd) :=
    if planningSubitemJoinAfter plan.itemType then
      joinExistingPlanBeforeNewPlanEnd table plan
    else (table, none)
  -- `replanned` holds the row joined last
  match joinedEnd.or joinedStart with
  | some joined => return (table, joined.id)
  | none =>
    match insertPlan table plan with
    | some table => return (table, plan.id)
    | none => throw .unableToInsert

def addPlan (req : PlanRequest) : Except PlanError (List (Plan Int) × String) :=
  if ceilDt req.end_ - second < ceilDt req.start then
    .error .invalidEndDate
  else
    match req.subitemUnits with
    | none => .error .incorrectNewPlanBodyData
    | some units => placePlan table (newPlan req units)

/-- The planner of the GPU cards: one `add_plan` call for item type `gpus` after another,
as the lock on the card serialises them; a call that raises is no step. -/
def gpuPlanner : Machine (List (Plan Int)) PlanRequest where
  next table req :=
    if req.itemType = .gpus then
      match addPlan table req with
      | .ok (table', _) => some table'
      | .error _ => none
    else none

end IsardVDI.Bookings
