import IsardVDI.Lib.Machine
import Mathlib.Data.Fintype.Basic

/-!
# The vGPU pool

`update_vgpu_uuid_domain_action` and `update_vgpu_info_if_stopped`, one database operation at a
time. The `vgpus` table marks each device as reserved for or started by a domain, and the domain's
row lists the devices bound to it. A reservation is a compare-and-swap; a start and a stop are two
unconditional writes each; a release stops the bindings of a snapshot, and then frees what the pool
still pins to the domain, card by card, again from a snapshot.
-/

namespace IsardVDI.Engine.Vgpu

open List Function

/-- The two flags of an entry of `mdevs`; `none` is `False`. -/
structure Marks (D : Type) where
  reserved : Option D
  started : Option D
deriving DecidableEq

/-- An entry of a domain's `vgpu_info`. -/
structure Binding (U : Type) where
  uuid : U
  started : Bool
  reserved : Bool
deriving DecidableEq

/-- The next operation of a `domain_reserved`. -/
inductive ReservePoint
  | status
  | swap
  | bind
deriving DecidableEq

/-- The next operation of a `domain_started`. -/
inductive StartPoint
  | status
  | unreserve
  | mark
  | bind
deriving DecidableEq

/-- The next operation of a `domain_stopped` whose status was read; `force` is the clean-up of a
device that is not in the pool. -/
inductive StopPoint
  | unreserve
  | unmark
  | unbind
  | force
deriving DecidableEq

inductive Task (D U : Type)
  | idle
  | reserve (dom : D) (uuid : U) (point : ReservePoint)
  | start (dom : D) (uuid : U) (point : StartPoint)
  /-- `update_vgpu_info_if_stopped` between two bindings of its snapshot -/
  | release (dom : D) (rest : List (Binding U))
  | stop (dom : D) (uuid : U) (point : StopPoint) (rest : List (Binding U))
  /-- `_free_stale_vgpu_pool_entries` with the entries it read, by card -/
  | sweep (dom : D) (cards : List (List U))
deriving DecidableEq

/-- The tables, the threads, and the desktops with a reservation of a device that succeeded and for
which they have not begun a `domain_stopped` since. -/
structure State (n : Nat) (D U : Type) where
  pool : U → Marks D
  info : D → List (Binding U)
  tasks : Fin n → Task D U
  held : U → List D

variable {n : Nat} {D U : Type} [DecidableEq D] [DecidableEq U]

def Marks.Free (marks : Marks D) : Prop :=
  marks.reserved = none ∧ marks.started = none

instance (marks : Marks D) : Decidable marks.Free :=
  inferInstanceAs (Decidable (_ ∧ _))

def Marks.Of (marks : Marks D) (dom : D) : Prop :=
  marks.started = some dom ∨ marks.reserved = some dom

instance (marks : Marks D) (dom : D) : Decidable (marks.Of dom) :=
  inferInstanceAs (Decidable (_ ∨ _))

/-! ## Single operations -/

namespace State

variable (s : State n D U)

def setTask (t : Fin n) (task : Task D U) : State n D U :=
  { s with tasks := update s.tasks t task }

def write (uuid : U) (change : Marks D → Marks D) : State n D U :=
  { s with pool := update s.pool uuid (change (s.pool uuid)) }

def rebind (dom : D) (change : List (Binding U) → List (Binding U)) : State n D U :=
  { s with info := update s.info dom (change (s.info dom)) }

/-- The branch of the compare-and-swap that takes the device. -/
def take (dom : D) (uuid : U) : State n D U :=
  { s.write uuid fun _ => ⟨some dom, none⟩ with
    held := update s.held uuid (dom :: s.held uuid) }

def beginStop (dom : D) (uuid : U) : State n D U :=
  { s with held := update s.held uuid ((s.held uuid).filter (· ≠ dom)) }

def free (card : List U) : State n D U :=
  { s with pool := fun uuid => if uuid ∈ card then ⟨none, none⟩ else s.pool uuid }

end State

/-- Filter and append: a stale entry of the uuid is replaced. -/
def appendBinding (uuid : U) (info : List (Binding U)) : List (Binding U) :=
  info.filter (·.uuid ≠ uuid) ++ [⟨uuid, false, true⟩]

def startBinding (uuid : U) (info : List (Binding U)) : List (Binding U) :=
  info.map fun b => if b.uuid = uuid then { b with started := true, reserved := false } else b

def dropBinding (uuid : U) (info : List (Binding U)) : List (Binding U) :=
  info.filter (·.uuid ≠ uuid)

section Bindings

variable {uuid uuid' : U} {info : List (Binding U)}

theorem mem_appendBinding : uuid ∈ (appendBinding uuid' info).map (·.uuid)
    ↔ uuid = uuid' ∨ uuid ∈ info.map (·.uuid) := by
  by_cases heq : uuid = uuid'
  · simp [appendBinding, heq]
  · simp only [appendBinding, map_append, mem_append, mem_map, mem_filter]
    aesop

theorem mem_startBinding : uuid ∈ (startBinding uuid' info).map (·.uuid)
    ↔ uuid ∈ info.map (·.uuid) := by
  have hsame : (startBinding uuid' info).map (·.uuid) = info.map (·.uuid) := by
    rw [startBinding, map_map]
    refine map_congr_left fun b _ => ?_
    show (if b.uuid = uuid' then { b with started := true, reserved := false } else b).uuid = b.uuid
    split_ifs <;> rfl
  rw [hsame]

theorem mem_dropBinding : uuid ∈ (dropBinding uuid' info).map (·.uuid)
    ↔ uuid ≠ uuid' ∧ uuid ∈ info.map (·.uuid) := by
  simp only [dropBinding, mem_map, mem_filter, decide_eq_true_eq]
  constructor
  · rintro ⟨b, ⟨hmem, hne⟩, rfl⟩
    exact ⟨hne, b, hmem, rfl⟩
  · rintro ⟨hne, b, hmem, rfl⟩
    exact ⟨b, ⟨hmem, hne⟩, rfl⟩

end Bindings

/-- `vgpu_pool_frees_for_domain` of every card that has an entry. -/
def pinned (cards : List (List U)) (pool : U → Marks D) (dom : D) : List (List U) :=
  (cards.map fun card => card.filter fun uuid => (pool uuid).Of dom).filter (· ≠ [])

/-! ## Threads -/

section Machine

variable (cards : List (List U))

/-- The next operation of thread `t`. `found` is the answer of a read of the device's status; the
status that begins a `domain_stopped` is read when a binding's turn comes. -/
def State.advance (s : State n D U) (t : Fin n) (found : Bool) : Option (State n D U) :=
  match s.tasks t with
  | .idle => none
  | .reserve dom uuid .status =>
    some (s.setTask t (if found then .reserve dom uuid .swap else .idle))
  -- the one conditional write of the three calls
  | .reserve dom uuid .swap =>
    if (s.pool uuid).Free then some ((s.take dom uuid).setTask t (.reserve dom uuid .bind))
    else some (s.setTask t .idle)
  | .reserve dom uuid .bind => some ((s.rebind dom (appendBinding uuid)).setTask t .idle)
  | .start dom uuid .status =>
    some (s.setTask t (if found then .start dom uuid .unreserve else .idle))
  -- two writes: between them the device has neither mark
  | .start dom uuid .unreserve =>
    some ((s.write uuid ({ · with reserved := none })).setTask t (.start dom uuid .mark))
  | .start dom uuid .mark =>
    some ((s.write uuid ({ · with started := some dom })).setTask t (.start dom uuid .bind))
  | .start dom uuid .bind => some ((s.rebind dom (startBinding uuid)).setTask t .idle)
  -- the binding is of the snapshot, and may be gone by now
  | .release dom (b :: rest) =>
    some ((s.beginStop dom b.uuid).setTask t
      (.stop dom b.uuid (if found then .unreserve else .force) rest))
  | .release dom [] => some (s.setTask t (.sweep dom (pinned cards s.pool dom)))
  | .stop dom uuid .unreserve rest =>
    some ((s.write uuid ({ · with reserved := none })).setTask t (.stop dom uuid .unmark rest))
  | .stop dom uuid .unmark rest =>
    some ((s.write uuid ({ · with started := none })).setTask t (.stop dom uuid .unbind rest))
  | .stop dom uuid .unbind rest =>
    some ((s.rebind dom (dropBinding uuid)).setTask t (.release dom rest))
  | .stop dom uuid .force rest =>
    some ((s.rebind dom (dropBinding uuid)).setTask t (.release dom rest))
  -- clears the entries that were read, whatever they say now
  | .sweep dom (card :: rest) => some ((s.free card).setTask t (.sweep dom rest))
  | .sweep _ [] => some (s.setTask t .idle)

inductive Event (n : Nat) (D U : Type)
  | reserve (t : Fin n) (dom : D) (uuid : U)
  | start (t : Fin n) (dom : D) (uuid : U)
  /-- `update_vgpu_info_if_stopped` reads the bindings -/
  | release (t : Fin n) (dom : D)
  | step (t : Fin n) (found : Bool)

def bindingsToStop (info : List (Binding U)) : List (Binding U) :=
  info.filter fun b => b.started ∨ b.reserved

/-- Any interleaving, on threads that are each at one call. -/
def pool : Machine (State n D U) (Event n D U) where
  next s
    | .reserve t dom uuid =>
      if s.tasks t = .idle then some (s.setTask t (.reserve dom uuid .status)) else none
    | .start t dom uuid =>
      if s.tasks t = .idle then some (s.setTask t (.start dom uuid .status)) else none
    | .release t dom =>
      if s.tasks t = .idle then
        some (s.setTask t (.release dom (bindingsToStop (s.info dom))))
      else none
    | .step t found => s.advance cards t found

end Machine

def empty : State n D U where
  pool _ := ⟨none, none⟩
  info _ := []
  tasks _ := .idle
  held _ := []

end IsardVDI.Engine.Vgpu
