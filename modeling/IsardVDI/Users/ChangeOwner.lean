import Mathlib
import IsardVDI.Bookings.Tables

/-!
# Users — desktops that change owner

`change_owner_desktops` hands desktops to another user: the persistent ones are moved, the
others are torn down by the engine. It deletes bookings through two keys, the old owner's id and
the item of each desktop torn down.

* **`changeOwnerDesktops_bookings`** — what is left of the bookings.
* **`keeps_shared_iff`** — when what stays in its category keeps its permissions.

Renaming, hardware permissions and the ownership of the disks are left out, with the wait for the
desktops to stop: none of them reads or writes a booking or an `allowed`.
-/

namespace IsardVDI.Users

open Bookings (Booking BookedItem)
open List

inductive DesktopStatus where
  | started
  | shuttingDown
  | stopping
  | stopped
  | failed
  | forceDeleting
  deriving DecidableEq, Repr

structure Owner where
  user : String
  username : String
  category : String
  group : String
  deriving DecidableEq, Repr

/-- A row of `domains`; `persistent` is absent in templates and in old rows, and `none` stands for
the `False` of `booking_id` and `jumperurl`. -/
structure Domain where
  owner : Owner
  persistent : Option Bool
  status : DesktopStatus
  bookingId : Option String
  jumperurl : Option String
  deriving DecidableEq, Repr

/-- The tables by their primary keys; of `targets`, the `desktop_id` of each row. -/
structure Db (T : Type) where
  domains : String → Option Domain
  bookings : List (Booking T)
  targets : List String

variable {T : Type}

def updateAll (domains : String → Option Domain) (f : Domain → Domain) (ids : List String) :
    String → Option Domain :=
  fun i => if i ∈ ids then (domains i).map f else domains i

def batches (ids : List String) : List (List String) :=
  (List.range ((ids.length + 99) / 100)).map fun i => (ids.drop (100 * i)).take 100

theorem mem_batches {ids : List String} {i : String} : (∃ b ∈ batches ids, i ∈ b) ↔ i ∈ ids := by
  simp only [batches, mem_map, mem_range, exists_exists_and_eq_and]
  constructor
  · rintro ⟨k, -, hk⟩
    exact mem_of_mem_drop (mem_of_mem_take hk)
  · intro hi
    obtain ⟨n, hn, rfl⟩ := mem_iff_getElem.1 hi
    -- the index falls into the slice `n / 100`, at the place `n % 100`
    refine ⟨n / 100, by omega, mem_take_iff_getElem.2 ⟨n % 100, ?_, ?_⟩⟩
    · rw [length_drop]
      omega
    · rw [getElem_drop]
      congr 1
      omega

def desktopsStop (ids : List String) (domains : String → Option Domain) :
    String → Option Domain :=
  updateAll domains (fun d =>
    if d.status = .shuttingDown ∨ d.status = .started then { d with status := .stopping } else d)
    ids

/-- `Bookings.delete_item_bookings("desktop", id)`: the rows are gone before anything in it can
raise. -/
def deleteItemBookings (bookings : List (Booking T)) (id : String) : List (Booking T) :=
  bookings.filter fun b => decide (¬(b.itemType = .desktop ∧ b.itemId = id))

def domainData (domains : String → Option Domain) (ids : List String) : List (String × Domain) :=
  (batches ids).flatMap fun batch => batch.filterMap fun i => (domains i).map fun d => (i, d)

theorem mem_domainData {domains : String → Option Domain} {ids : List String}
    {row : String × Domain} :
    row ∈ domainData domains ids ↔ row.1 ∈ ids ∧ domains row.1 = some row.2 := by
  rw [← mem_batches]
  simp only [domainData, mem_flatMap, mem_filterMap, Option.map_eq_some_iff]
  constructor
  · rintro ⟨b, hb, i, hi, d, hd, rfl⟩
    exact ⟨⟨b, hb, hi⟩, hd⟩
  · rintro ⟨⟨b, hb, hi⟩, hd⟩
    exact ⟨b, hb, row.1, hi, row.2, hd, rfl⟩

def changeOwnerDomains (db : Db T) (domainIds : List String) (newUser : Owner) : Db T :=
  let data := domainData db.domains domainIds
  let persistentIds := (data.filter fun d => decide (d.2.persistent ≠ some false)).map Prod.fst
  let nonpersistentIds := (data.filter fun d => decide (d.2.persistent = some false)).map Prod.fst
  let moved := (batches persistentIds).foldl (fun domains batch =>
    updateAll domains (fun d => { d with owner := newUser, bookingId := none }) batch) db.domains
  { db with
    bookings := nonpersistentIds.foldl deleteItemBookings db.bookings
    domains := (batches nonpersistentIds).foldl (fun domains batch =>
      updateAll domains (fun d => { d with status := .forceDeleting }) batch) moved }

/-- `change_owner_desktops`, with no quota check configured. -/
def changeOwnerDesktops (db : Db T) (desktopIds : List String) (newUser : Owner)
    (desktopUserId : String) : Db T :=
  let db := { db with domains := desktopsStop desktopIds db.domains }
  let db := { db with bookings := db.bookings.filter fun b => decide (b.userId ≠ desktopUserId) }
  let db := { db with targets := db.targets.filter fun i => decide (i ∉ desktopIds) }
  let db := { db with domains := updateAll db.domains ({ · with jumperurl := none }) desktopIds }
  changeOwnerDomains db desktopIds newUser

/-! ## What becomes of the bookings -/

section Bookings

variable (db : Db T) (ids : List String)

def moved (i : String) : Bool :=
  decide (i ∈ ids) && (db.domains i).any fun d => decide (d.persistent ≠ some false)

def tornDown (i : String) : Bool :=
  decide (i ∈ ids) && (db.domains i).any fun d => decide (d.persistent = some false)

def ofHandledDesktop (b : Booking T) : Bool :=
  decide (b.itemType = .desktop) && (moved db ids b.itemId || tornDown db ids b.itemId)

theorem tornDown_eq_false_of_moved {i : String} (h : moved db ids i = true) :
    tornDown db ids i = false := by
  cases hd : db.domains i <;> simp_all [moved, tornDown]

theorem foldl_deleteItemBookings (bookings : List (Booking T)) :
    ids.foldl deleteItemBookings bookings =
      bookings.filter fun b => decide (¬(b.itemType = .desktop ∧ b.itemId ∈ ids)) := by
  induction ids generalizing bookings with
  | nil => simp
  | cons i ids ih =>
    rw [foldl_cons, ih, deleteItemBookings, filter_filter]
    refine filter_congr fun b _ => ?_
    rw [← Bool.decide_and, decide_eq_decide, mem_cons]
    tauto

theorem mem_nonpersistentIds (i : String) : tornDown db ids i = true ↔
    i ∈ ((domainData (updateAll (desktopsStop ids db.domains) ({ · with jumperurl := none }) ids)
      ids).filter fun d => decide (d.2.persistent = some false)).map Prod.fst := by
  simp only [mem_map, mem_filter, mem_domainData, decide_eq_true_eq, Prod.exists,
    exists_and_right, exists_eq_right]
  by_cases hi : i ∈ ids
  · cases hd : db.domains i with
    | none => simp [tornDown, updateAll, desktopsStop, hi, hd]
    | some d => by_cases hs : d.status = .shuttingDown ∨ d.status = .started <;>
        simp [tornDown, updateAll, desktopsStop, hi, hd, hs]
  · simp [tornDown, hi]

variable (newUser : Owner) (desktopUserId : String)

theorem changeOwnerDesktops_bookings :
    (changeOwnerDesktops db ids newUser desktopUserId).bookings = db.bookings.filter fun b =>
      decide (b.userId ≠ desktopUserId) &&
        !(decide (b.itemType = .desktop) && tornDown db ids b.itemId) := by
  rw [changeOwnerDesktops, changeOwnerDomains, foldl_deleteItemBookings, filter_filter]
  refine filter_congr fun b _ => ?_
  simp only [← mem_nonpersistentIds, Bool.decide_eq_true, Bool.decide_and, decide_not,
    Bool.and_comm]

/-- **The bookings removed are those of the desktops handled** exactly if the old owner has booked
nothing else and every booking of a desktop that moves is theirs. -/
theorem changeOwner_exact_iff :
    (changeOwnerDesktops db ids newUser desktopUserId).bookings =
        db.bookings.filter (fun b => !ofHandledDesktop db ids b) ↔
      ∀ b ∈ db.bookings,
        (b.userId = desktopUserId → ofHandledDesktop db ids b = true) ∧
        (b.itemType = .desktop → moved db ids b.itemId = true → b.userId = desktopUserId) := by
  rw [changeOwnerDesktops_bookings]
  have hrow : ∀ b : Booking T,
      ((decide (b.userId ≠ desktopUserId) &&
          !(decide (b.itemType = .desktop) && tornDown db ids b.itemId)) =
        !ofHandledDesktop db ids b) ↔
      (b.userId = desktopUserId → ofHandledDesktop db ids b = true) ∧
        (b.itemType = .desktop → moved db ids b.itemId = true → b.userId = desktopUserId) := by
    intro b
    have hexcl := tornDown_eq_false_of_moved db ids (i := b.itemId)
    rw [ofHandledDesktop]
    generalize moved db ids b.itemId = m, tornDown db ids b.itemId = t at *
    by_cases hu : b.userId = desktopUserId <;> by_cases hk : b.itemType = .desktop <;>
      cases m <;> cases t <;> simp_all
  constructor
  · intro h b hb
    have hmem := congrArg (b ∈ ·) h
    simp only [mem_filter, hb, true_and, eq_iff_iff, ← Bool.eq_iff_iff] at hmem
    exact (hrow b).1 hmem
  · intro h
    exact filter_congr fun b hb => (hrow b).2 (h b hb)

end Bookings

/-- The desktop `atlas` moves from `ana` to `bea`. -/
def handover : Db Nat where
  domains i := if i = "atlas" then
    some ⟨⟨"ana", "ana", "arts", "staff"⟩, some true, .stopped, some "b1", none⟩ else none
  bookings := [⟨"b1", .desktop, "atlas", 1, ["A40-2Q"], 0, 1, "", "ana", []⟩,
    ⟨"b2", .deployment, "course", 5, ["A40-2Q"], 2, 3, "", "ana", []⟩,
    ⟨"b3", .desktop, "atlas", 1, ["A40-2Q"], 4, 5, "", "admin", []⟩]
  targets := []

/-- The booking of a deployment goes with the desktop's, and the one an administrator made for the
desktop stays. -/
theorem handover_deletes_other :
    ((changeOwnerDesktops handover ["atlas"] ⟨"bea", "bea", "arts", "staff"⟩ "ana").bookings.map
        Booking.id = ["b3"]) ∧
      (handover.bookings.filter fun b => !ofHandledDesktop handover ["atlas"] b).map Booking.id =
        ["b2"] := by
  decide

/-! ## Permissions -/

/-- A string as an object: `is` compares the objects. -/
structure Text where
  value : String
  object : Nat

/-- Each is a list, or `False`. -/
structure Allowed where
  roles : Option (List String)
  categories : Option (List String)
  groups : Option (List String)
  users : Option (List String)
  deriving DecidableEq

def Allowed.denied (allowed : Allowed) : Allowed :=
  { allowed with categories := none, groups := none, users := none }

structure Item where
  category : Text
  persistent : Option Bool
  allowed : Allowed

/-- `new_user`: its `allowed` is absent, or `False` at three keys. -/
structure NewUser where
  category : Text
  denies : Bool

def NewUser.compare (user : NewUser) : List Item → NewUser
  | [] => user
  | first :: _ =>
    if user.category.object ≠ first.category.object then { user with denies := true } else user

def NewUser.allowed (user : NewUser) (item : Item) : Allowed :=
  if user.denies then item.allowed.denied else item.allowed

/-- `migrate_user`: the items of each phase, and those moved with their new `allowed`. -/
def migrateUser : NewUser → List (List Item) → List (Item × Allowed)
  | _, [] => []
  | user, items :: phases =>
    let user := user.compare items
    (items.filter (·.persistent ≠ some false)).map (fun item => (item, user.allowed item))
      ++ migrateUser user phases

section Permissions

variable {user : NewUser} {phases : List (List Item)}
  (hobjects : ∀ item ∈ phases.flatten, user.category.object ≠ item.category.object)

include hobjects

theorem migrateUser_eq :
    migrateUser user phases = (phases.flatten.filter (·.persistent ≠ some false)).map
      fun item => (item, item.allowed.denied) := by
  induction phases generalizing user with
  | nil => rfl
  | cons items phases ih =>
    rw [flatten_cons, forall_mem_append] at hobjects
    cases items with
    | nil => exact ih hobjects.2
    | cons first items =>
      have hdenies : user.compare (first :: items) = { user with denies := true } :=
        if_pos (hobjects.1 first (.head _))
      have hrest : migrateUser { user with denies := true } phases = _ := ih hobjects.2
      rw [migrateUser, hdenies, hrest, flatten_cons, filter_append, map_append]
      rfl

/-- **What stays in its category keeps its permissions** exactly if it had none. -/
theorem keeps_shared_iff :
    (∀ moved ∈ migrateUser user phases, moved.2 =
        if moved.1.category.value = user.category.value then moved.1.allowed
        else moved.1.allowed.denied) ↔
      ∀ item ∈ phases.flatten, item.persistent ≠ some false →
        item.category.value = user.category.value → item.allowed.denied = item.allowed := by
  rw [migrateUser_eq hobjects]
  simp only [forall_mem_map, mem_filter, decide_eq_true_eq, and_imp]
  refine forall₃_congr fun item _ _ => ?_
  by_cases hcategory : item.category.value = user.category.value <;> simp [hcategory]

end Permissions

/-- What `ana` shares with a group of the category. -/
def sharing (category : String) : List Item :=
  [⟨⟨category, 1⟩, some true, ⟨none, none, some ["staff"], none⟩⟩]

/-- A desktop of the new owner's category which is not shared. -/
def unshared : List Item := [⟨⟨"arts", 2⟩, some true, ⟨none, none, none, none⟩⟩]

theorem sharing_kept : (migrateUser ⟨⟨"arts", 0⟩, false⟩ [sharing "law", unshared]).length = 2 ∧
    ∀ moved ∈ migrateUser ⟨⟨"arts", 0⟩, false⟩ [sharing "law", unshared], moved.2 =
      if moved.1.category.value = "arts" then moved.1.allowed else moved.1.allowed.denied :=
  ⟨rfl, (keeps_shared_iff (by decide)).mpr (by decide)⟩

theorem sharing_lost : ¬∀ moved ∈ migrateUser ⟨⟨"arts", 0⟩, false⟩ [sharing "arts"], moved.2 =
    if moved.1.category.value = "arts" then moved.1.allowed else moved.1.allowed.denied := by
  decide

end IsardVDI.Users
