import Mathlib.Data.List.Nodup

/-!
# Bookings — the rows of `resource_planner` and `bookings`

The two tables the booking subsystem reads and writes. Times are a type parameter: the
planner and the booking code only compare instants, so everything that does not round a
date is stated for any linear order. Where dates are rounded (`add_plan`) an instant is an
`Int`, the microseconds since `datetime.min` in UTC (the resolution of Python's `datetime`).

A table is the list of its rows. RethinkDB keeps primary keys unique and returns the rows
of an index query in no promised order; the first is an invariant of the tables
(`IdsNodup`), the second shows up as an explicit listing where a result depends on it.
-/

namespace IsardVDI.Bookings

/-- The reservable item types of `Reservables.reservable`. -/
inductive ItemType where
  | gpus
  | usbs
  deriving DecidableEq, Repr

/-- A row of `resource_planner`: the card `itemId` offers `units` units of the profile
`subitemId` over the closed window `[start, end_]`. -/
structure Plan (T : Type) where
  id : String
  itemType : ItemType
  itemId : String
  subitemId : String
  units : Int
  start : T
  end_ : T
  userId : String
  eventType : String
  deriving DecidableEq, Repr

structure PlanEntry where
  planId : String
  itemId : String
  subitemId : String
  priority : Int
  unitsBooked : Int
  deriving DecidableEq, Repr

inductive BookedItem where
  | desktop
  | deployment
  deriving DecidableEq, Repr

/-- A row of `bookings`. `vgpus` is `reservables.vgpus`; the reservable tables know no
other kind (`payload_priority` reads `reservables_<kind>`, and only `reservables_vgpus`
exists). -/
structure Booking (T : Type) where
  id : String
  itemType : BookedItem
  itemId : String
  units : Int
  vgpus : List String
  start : T
  end_ : T
  title : String
  userId : String
  plans : List PlanEntry
  deriving DecidableEq, Repr

def IdsNodup {T : Type} (rows : List (Plan T)) : Prop := (rows.map Plan.id).Nodup

instance {T : Type} (rows : List (Plan T)) : Decidable (IdsNodup rows) :=
  inferInstanceAs (Decidable (rows.map Plan.id).Nodup)

theorem IdsNodup.eq_of_id {T : Type} {rows : List (Plan T)} (h : IdsNodup rows)
    {p q : Plan T} (hp : p ∈ rows) (hq : q ∈ rows) (hid : p.id = q.id) : p = q :=
  List.inj_on_of_nodup_map h hp hq hid

theorem IdsNodup.filter {T : Type} {rows : List (Plan T)} (h : IdsNodup rows)
    (p : Plan T → Bool) : IdsNodup (rows.filter p) :=
  h.sublist (List.filter_sublist.map Plan.id)

/-- The two tables. Bookings are listed in the order of their admission. -/
structure Db (T : Type) where
  planner : List (Plan T)
  bookings : List (Booking T)
  plannerNodup : IdsNodup planner

namespace Db

variable {T : Type}

def ofPlanner (planner : List (Plan T)) (h : IdsNodup planner) : Db T := ⟨planner, [], h⟩

/-- `r.table("bookings").insert(booking)`, whose result is not looked at: a row whose
primary key is taken is not written. -/
def insertBooking (db : Db T) (b : Booking T) : Db T :=
  if db.bookings.any fun c => c.id = b.id then db
  else { db with bookings := db.bookings ++ [b] }

def deleteBookingRow (db : Db T) (id : String) : Db T :=
  { db with bookings := db.bookings.filter fun b => decide (b.id ≠ id) }

end Db

end IsardVDI.Bookings
