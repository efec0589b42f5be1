import IsardVDI.Lib.Machine
import IsardVDI.Lib.Fallible
import IsardVDI.Usage.Retention

/-!
# Usage credits

`CreditsUsageProcessed`: a credit gives an item a usage limit over an interval of dates, closed, or
open-ended where it has no `end_date`. Before a credit is written, `_cut_existing` trims or deletes
the one other credit of its `(item_id, item_type, grouping_id)` that `check_overlapping` finds.
-/

namespace IsardVDI.Usage.Credits

open List Option

/-! ## Intervals of dates -/

structure Interval where
  start : Int
  /-- `none`: open-ended -/
  stop : Option Int

def Interval.Covers (i : Interval) (date : Int) : Prop :=
  i.start ≤ date ∧ ∀ stop ∈ i.stop, date ≤ stop

def Interval.Meets (i j : Interval) : Prop :=
  ∃ date, i.Covers date ∧ j.Covers date

/-- The end is before the start, as a cut can leave it. -/
def Interval.Emptied (i : Interval) : Prop :=
  ∃ stop ∈ i.stop, stop < i.start

instance (i : Interval) : Decidable i.Emptied :=
  inferInstanceAs (Decidable (∃ _ ∈ i.stop, _))

variable {i j : Interval}

theorem Interval.meets_iff :
    i.Meets j ↔ (∀ stop ∈ i.stop, i.start ≤ stop ∧ j.start ≤ stop)
      ∧ ∀ stop ∈ j.stop, i.start ≤ stop ∧ j.start ≤ stop := by
  constructor
  · rintro ⟨date, ⟨hi, histop⟩, hj, hjstop⟩
    exact ⟨fun stop h => ⟨hi.trans (histop stop h), hj.trans (histop stop h)⟩,
      fun stop h => ⟨hi.trans (hjstop stop h), hj.trans (hjstop stop h)⟩⟩
  · rintro ⟨hi, hj⟩
    refine ⟨max i.start j.start, ⟨le_max_left .., fun stop h => ?_⟩,
      le_max_right .., fun stop h => ?_⟩
    · exact max_le (hi stop h).1 (hi stop h).2
    · exact max_le (hj stop h).1 (hj stop h).2

instance (i j : Interval) : Decidable (i.Meets j) :=
  decidable_of_iff _ Interval.meets_iff.symm

theorem Interval.Meets.symm (h : i.Meets j) : j.Meets i :=
  h.imp fun _ hdate => hdate.symm

def Interval.Within (i j : Interval) : Prop :=
  ∀ date, i.Covers date → j.Covers date

theorem Interval.Within.meets {i' : Interval} (h : i'.Within i) (hmeets : i'.Meets j) : i.Meets j :=
  hmeets.imp fun date hdate => ⟨h date hdate.1, hdate.2⟩

/-! ## The table -/

structure Error where
  kind : String
  description : String
deriving DecidableEq

structure Limits where
  hard : Int
  soft : Int
  expMin : Int
  expMax : Int
deriving DecidableEq

structure UsageLimit where
  id : String
  name : String
  desc : String
  limits : Limits

/-- A row of `usage_credit`. -/
structure Credit where
  id : Nat
  itemId : String
  itemConsumer : String
  itemType : String
  groupingId : String
  startDate : Int
  endDate : Option Int
  limits : Limits
  limitsId : String
  limitsDesc : String
  limitsName : String
deriving DecidableEq

/-- The compound index `item_id-item_type-grouping`. -/
abbrev Key := String × String × String

def Credit.key (c : Credit) : Key :=
  (c.itemId, c.itemType, c.groupingId)

def Credit.interval (c : Credit) : Interval :=
  ⟨c.startDate, c.endDate⟩

/-- `usage_credit`; the generated primary keys are numbered. -/
structure Table where
  credits : List Credit
  nextId : Nat

variable (table : Table)

def Table.get (id : Nat) : Option Credit :=
  table.credits.find? (·.id = id)

def Table.update (id : Nat) (change : Credit → Credit) : Table :=
  { table with credits := table.credits.map fun c => if c.id = id then change c else c }

def Table.delete (id : Nat) : Table :=
  { table with credits := table.credits.filter (·.id ≠ id) }

def Table.insert (row : Nat → Credit) : Table where
  credits := table.credits ++ [row table.nextId]
  nextId := table.nextId + 1

def validateUsageLimits (limits : Limits) : Except Error Unit :=
  if ¬(limits.hard ≥ limits.expMin ∧ limits.hard ≥ limits.expMax ∧ limits.hard ≥ limits.soft) then
    .error ⟨"bad_request",
      "The hard limit must be higher than or equal to all other limit values."⟩
  else if ¬limits.expMax > limits.expMin then
    .error ⟨"bad_request", "Expected maximum must be greater than the expected minimum"⟩
  else if ¬limits.soft > limits.expMin then
    .error ⟨"bad_request", "Expected minimum can not be greater than the soft limit"⟩
  else .ok ()

/-! ## Overlaps -/

inductive Action
  | cut
  | deleted
deriving DecidableEq

structure Overlap where
  creditId : Nat
  action : Action
  startDate : Option Int
  endDate : Option Int

/-- A category of overlap: its name, its credits and what is done with the one found. -/
structure Category where
  name : String
  holds : Credit → Bool
  overlap : Credit → Overlap

variable {table table' : Table} {c : Credit} {id : Nat} {change : Credit → Credit}
  {row : Nat → Credit}

section Categories

variable (startDate endDate : Int)

def outer : Category where
  name := "outer"
  holds c := c.startDate ≤ startDate ∧ c.endDate.all (· ≥ endDate)
  -- a day before the end of the new one, not before its start
  overlap c := ⟨c.id, .cut, none, some (endDate - day)⟩

def before : Category where
  name := "before"
  holds c := c.startDate ≤ startDate ∧ c.endDate.any fun stop => stop ≥ startDate ∧ stop ≤ endDate
  overlap c := ⟨c.id, .cut, none, some (startDate - day)⟩

def inner : Category where
  name := "inner"
  holds c := c.startDate ≥ startDate ∧ c.endDate.any (· ≤ endDate)
  overlap c := ⟨c.id, .deleted, none, none⟩

def after : Category where
  name := "after"
  holds c := c.startDate ≤ endDate ∧ c.endDate.all (· ≥ endDate)
  overlap c := ⟨c.id, .cut, some (endDate + day), none⟩

variable {startDate endDate : Int} {c : Credit}

theorem outer_holds :
    (outer startDate endDate).holds c
      ↔ c.startDate ≤ startDate ∧ ∀ stop ∈ c.endDate, endDate ≤ stop := by
  cases h : c.endDate <;> simp [outer, h]

theorem before_holds :
    (before startDate endDate).holds c
      ↔ c.startDate ≤ startDate ∧ ∃ stop ∈ c.endDate, startDate ≤ stop ∧ stop ≤ endDate := by
  cases h : c.endDate <;> simp [before, h]

theorem inner_holds :
    (inner startDate endDate).holds c
      ↔ startDate ≤ c.startDate ∧ ∃ stop ∈ c.endDate, stop ≤ endDate := by
  cases h : c.endDate <;> simp [inner, h]

theorem after_holds :
    (after endDate).holds c
      ↔ c.startDate ≤ endDate ∧ ∀ stop ∈ c.endDate, endDate ≤ stop := by
  cases h : c.endDate <;> simp [after, h]

end Categories

/-- The first category with a credit, which has to be the only one. -/
def findOverlap (credit : List Credit) : List Category → Except Error (Option Overlap)
  | [] => .ok none
  | category :: rest =>
    match credit.filter category.holds with
    | [] => findOverlap credit rest
    | [c] => .ok (some (category.overlap c))
    | _ => .error ⟨"internal_server",
        "More than one " ++ category.name ++ " credit interval found"⟩

/-- The credits of the triple, without the one that is updated. -/
def Table.others (table : Table) (key : Key) (creditId : Option Nat) : List Credit :=
  table.credits.filter fun c => c.key = key ∧ creditId ≠ some c.id

def checkOverlapping (table : Table) (key : Key) (startDate endDate : Int)
    (creditId : Option Nat) : Except Error (Option Overlap) :=
  findOverlap (table.others key creditId)
    [outer startDate endDate, before startDate endDate, inner startDate endDate,
      after endDate]

def Table.cut (table : Table) (overlap : Overlap) : Table :=
  match overlap.action, overlap.startDate, overlap.endDate with
  | .cut, some date, _ => table.update overlap.creditId ({ · with startDate := date })
  | .cut, none, some date => table.update overlap.creditId ({ · with endDate := some date })
  | .cut, none, none => table.delete overlap.creditId
  | .deleted, _, _ => table.delete overlap.creditId

/-- `_cut_existing`; an open end is taken to be the current time. -/
def cutExisting (table : Table) (key : Key) (startDate : Int) (endDate : Option Int) (now : Int)
    (creditId : Option Nat) : Except Error Table := do
  match ← checkOverlapping table key startDate (endDate.getD now) creditId with
  | none => return table
  | some overlap => return table.cut overlap

/-! ## The calls -/

structure CreateData where
  /-- the items, each with the time of its turn -/
  itemIds : List (String × Int)
  itemConsumer : String
  itemType : String
  groupingId : String
  limitId : String

section Create

variable (data : CreateData) (limits : UsageLimit) (startDate : Int) (endDate : Option Int)

def CreateData.key (itemId : String) : Key :=
  (itemId, data.itemType, data.groupingId)

def CreateData.credit (itemId : String) (id : Nat) : Credit where
  id := id
  itemId := itemId
  itemConsumer := data.itemConsumer
  itemType := data.itemType
  groupingId := data.groupingId
  startDate := startDate
  endDate := endDate
  limits := limits.limits
  limitsId := limits.id
  limitsDesc := limits.desc
  limitsName := limits.name

def createItems (table : Table) : List (String × Int) → Except Error Table
  | [] => .ok table
  | (itemId, now) :: rest => do
    let table ← cutExisting table (data.key itemId) startDate endDate now none
    createItems (table.insert (data.credit limits startDate endDate itemId)) rest

end Create

def create (table : Table) (usageLimit : String → Option UsageLimit) (data : CreateData)
    (startDate : Int) (endDate : Option Int) : Except Error Table :=
  match usageLimit data.limitId with
  | none => .error ⟨"not_found", "Usage limit not found"⟩
  | some limits => createItems data limits startDate endDate table data.itemIds

/-- The body of an update, its dates parsed: an `end_date` of `some none` is `"null"`. -/
structure UpdateData where
  id : Option Nat
  itemId : Option String
  itemType : Option String
  groupingId : Option String
  startDate : Option Int
  endDate : Option (Option Int)
  limits : Option Limits

variable (data : UpdateData)

/-- Whether some field that decides the overlap is truthy. -/
def UpdateData.reconciles : Bool :=
  data.itemId.any (· ≠ "") ∨ data.itemType.any (· ≠ "") ∨ data.groupingId.any (· ≠ "")
    ∨ data.startDate.isSome ∨ data.endDate.any Option.isSome

def UpdateData.apply (c : Credit) : Credit :=
  { c with
    itemId := data.itemId.getD c.itemId
    itemType := data.itemType.getD c.itemType
    groupingId := data.groupingId.getD c.groupingId
    startDate := data.startDate.getD c.startDate
    endDate := data.endDate.getD c.endDate
    limits := data.limits.getD c.limits }

/-- The cut of an update, in the interval and triple the row is to have. -/
def UpdateData.reconcile (table : Table) (credit : Credit) (now : Int) : Except Error Table :=
  if data.reconciles then
    cutExisting table (data.apply credit).key (data.apply credit).startDate
      (data.apply credit).endDate now (some credit.id)
  else .ok table

def UpdateData.validate : Except Error Unit :=
  match data.limits with
  | some limits => validateUsageLimits limits
  | none => .ok ()

/-- The write is refused where it would change the primary key; its result is not read. -/
def update (table : Table) (creditId : Nat) (data : UpdateData) (now : Int) :
    Except Error Table :=
  match table.get creditId with
  | none => .error ⟨"not_found", "Usage credit not found"⟩
  | some credit => do
    let table ← data.reconcile table credit now
    data.validate
    return if data.id.all (· = creditId) then table.update creditId data.apply else table

def delete (table : Table) (creditId : Nat) : Except Error Table :=
  match table.get creditId with
  | none => .error ⟨"not_found", "Credit with ID " ++ toString creditId
      ++ " not found in database"⟩
  | some _ => .ok (table.delete creditId)

inductive Call
  | create (usageLimit : String → Option UsageLimit) (data : CreateData) (startDate : Int)
      (endDate : Option Int)
  | update (creditId : Nat) (data : UpdateData) (now : Int)
  | delete (creditId : Nat)

def calls : Machine Table Call where
  next table
    | .create usageLimit data startDate endDate =>
      (create table usageLimit data startDate endDate).toOption
    | .update creditId data now => (update table creditId data now).toOption
    | .delete creditId => (delete table creditId).toOption

/-! ## What has to be stored -/

/-- No two credits of a triple have a date in common. -/
def Apart (table : Table) : Prop :=
  ∀ c ∈ table.credits, ∀ c' ∈ table.credits, c.id ≠ c'.id → c.key = c'.key →
    ¬c.interval.Meets c'.interval

instance (table : Table) : Decidable (Apart table) :=
  inferInstanceAs (Decidable (∀ _ ∈ table.credits, ∀ _ ∈ table.credits, _ → _ → ¬_))

structure Keyed (table : Table) : Prop where
  nodup : (table.credits.map (·.id)).Nodup
  fresh : ∀ c ∈ table.credits, c.id < table.nextId

/-- No other credit of the triple has a date of the interval. -/
def Clear (table : Table) (key : Key) (interval : Interval) (creditId : Option Nat) : Prop :=
  ∀ c ∈ table.others key creditId, ¬c.interval.Meets interval

instance (table : Table) (key : Key) (interval : Interval) (creditId : Option Nat) :
    Decidable (Clear table key interval creditId) :=
  inferInstanceAs (Decidable (∀ _ ∈ table.others key creditId, ¬_))

theorem mem_others {key : Key} {creditId : Option Nat} :
    c ∈ table.others key creditId
      ↔ c ∈ table.credits ∧ c.key = key ∧ creditId ≠ some c.id := by
  simp [Table.others]

theorem Keyed.eq (h : Keyed table) {c' : Credit} (hc : c ∈ table.credits) (hc' : c' ∈ table.credits)
    (hid : c.id = c'.id) : c = c' :=
  inj_on_of_nodup_map h.nodup hc hc' hid

theorem mem_update :
    c ∈ (table.update id change).credits
      ↔ ∃ old ∈ table.credits, (if old.id = id then change old else old) = c := by
  simp [Table.update]

theorem mem_delete : c ∈ (table.delete id).credits ↔ c ∈ table.credits ∧ c.id ≠ id := by
  simp [Table.delete]

theorem mem_insert : c ∈ (table.insert row).credits ↔ c ∈ table.credits ∨ c = row table.nextId := by
  simp [Table.insert]

theorem Keyed.update (h : Keyed table) (hid : ∀ c, (change c).id = c.id) :
    Keyed (table.update id change) where
  nodup := by
    have hids : (table.update id change).credits.map (·.id) = table.credits.map (·.id) := by
      rw [Table.update, List.map_map]
      refine map_congr_left fun c _ => ?_
      show (if c.id = id then change c else c).id = c.id
      split_ifs
      · exact hid c
      · rfl
    exact hids ▸ h.nodup
  fresh := by
    intro c hc
    obtain ⟨old, hold, rfl⟩ := mem_update.mp hc
    have hfresh := h.fresh old hold
    show _ < table.nextId
    split_ifs
    · exact (hid old).symm ▸ hfresh
    · exact hfresh

theorem Keyed.delete (h : Keyed table) (id : Nat) : Keyed (table.delete id) where
  nodup := h.nodup.sublist (filter_sublist.map _)
  fresh c hc := h.fresh c (mem_delete.mp hc).1

theorem Keyed.insert (h : Keyed table) (hid : ∀ id, (row id).id = id) :
    Keyed (table.insert row) where
  nodup := by
    show ((table.credits ++ [row table.nextId]).map (·.id)).Nodup
    rw [map_append, map_singleton, hid, nodup_append]
    refine ⟨h.nodup, nodup_singleton _, ?_⟩
    intro id hmem other hother
    obtain ⟨c, hc, rfl⟩ := mem_map.mp hmem
    rw [mem_singleton.mp hother]
    exact (h.fresh c hc).ne
  fresh := by
    intro c hc
    show c.id < table.nextId + 1
    rcases mem_insert.mp hc with hold | rfl
    · exact Nat.lt_succ_of_lt (h.fresh c hold)
    · rw [hid]
      exact Nat.lt_succ_self _

theorem Apart.delete (h : Apart table) (id : Nat) : Apart (table.delete id) :=
  fun c hc c' hc' => h c (mem_delete.mp hc).1 c' (mem_delete.mp hc').1

theorem Apart.update (h : Apart table) (hid : ∀ c, (change c).id = c.id)
    (hclear : ∀ c ∈ table.credits, c.id = id →
      Clear table (change c).key (change c).interval (some id)) :
    Apart (table.update id change) := by
  -- the row that is written and one that is not
  have hone : ∀ c ∈ table.credits, ∀ c' ∈ table.credits, c.id = id → c'.id ≠ id →
      (change c).key = c'.key → ¬c'.interval.Meets (change c).interval := by
    intro c hc c' hc' hself hother hkey
    exact hclear c hc hself c' (mem_others.mpr ⟨hc', hkey.symm, by simpa using Ne.symm hother⟩)
  intro c hc c' hc' hne hkey
  obtain ⟨old, hold, rfl⟩ := mem_update.mp hc
  obtain ⟨old', hold', rfl⟩ := mem_update.mp hc'
  by_cases hself : old.id = id
  · rw [if_pos hself] at hne hkey ⊢
    by_cases hself' : old'.id = id
    · rw [if_pos hself', hid, hid, hself, hself'] at hne
      exact absurd rfl hne
    · rw [if_neg hself'] at hkey ⊢
      exact fun hmeets => hone old hold old' hold' hself hself' hkey hmeets.symm
  · rw [if_neg hself] at hne hkey ⊢
    by_cases hself' : old'.id = id
    · rw [if_pos hself'] at hkey ⊢
      exact hone old' hold' old hold hself' hself hkey.symm
    · rw [if_neg hself'] at hne hkey ⊢
      exact h old hold old' hold' hne hkey

theorem Apart.insert (h : Apart table) (hclear : Clear table (row table.nextId).key
      (row table.nextId).interval none) : Apart (table.insert row) := by
  intro c hc c' hc' hne hkey
  rcases mem_insert.mp hc with hold | rfl
  · rcases mem_insert.mp hc' with hold' | rfl
    · exact h c hold c' hold' hne hkey
    · exact hclear c (mem_others.mpr ⟨hold, hkey, nofun⟩)
  · rcases mem_insert.mp hc' with hold' | rfl
    · exact fun hmeets => hclear c' (mem_others.mpr ⟨hold', hkey.symm, nofun⟩) hmeets.symm
    · exact absurd rfl hne

/-! ## The cut -/

/-- The ends of `findOverlap` that are no error. -/
inductive Found (credit : List Credit) : List Category → Option Overlap → Prop
  | none : Found credit [] none
  | here {category : Category} {rest : List Category} {c : Credit} (hmem : c ∈ credit)
      (hholds : category.holds c) (honly : ∀ c' ∈ credit, category.holds c' → c' = c) :
      Found credit (category :: rest) (some (category.overlap c))
  | skip {category : Category} {rest : List Category} {overlap : Option Overlap}
      (hnone : ∀ c ∈ credit, ¬category.holds c) (hrest : Found credit rest overlap) :
      Found credit (category :: rest) overlap

theorem findOverlap_found {credit : List Credit} {categories : List Category}
    {overlap : Option Overlap} (h : findOverlap credit categories = .ok overlap) :
    Found credit categories overlap := by
  induction categories with
  | nil =>
    cases h
    exact .none
  | cons category rest ih =>
    rw [findOverlap] at h
    split at h
    · next hnil =>
      exact .skip (fun c hc hholds => filter_eq_nil_iff.mp hnil c hc hholds) (ih h)
    · next c hone =>
      cases h
      have hmem : c ∈ credit.filter category.holds := hone ▸ mem_singleton_self c
      refine .here (mem_filter.mp hmem).1 (mem_filter.mp hmem).2 fun c' hc' hholds => ?_
      exact mem_singleton.mp (hone ▸ mem_filter.mpr ⟨hc', hholds⟩)
    · cases h

section Cut

/-- What a call is about to write, at a time: a row of the triple with these dates, which is the
row of `creditId` or a new one. -/
structure Wanted where
  key : Key
  startDate : Int
  endDate : Option Int
  now : Int
  creditId : Option Nat

namespace Wanted

variable (w : Wanted)

abbrev interval : Interval := ⟨w.startDate, w.endDate⟩

abbrev stop : Int := w.endDate.getD w.now

abbrev others (table : Table) : List Credit := table.others w.key w.creditId

abbrev outer : Category := Credits.outer w.startDate w.stop

abbrev before : Category := Credits.before w.startDate w.stop

abbrev inner : Category := Credits.inner w.startDate w.stop

abbrev after : Category := Credits.after w.stop

variable {date : Int}

theorem stop_eq (h : w.endDate = some date) : w.stop = date := by
  rw [stop, h]
  rfl

theorem covers (hstart : w.startDate ≤ date) (hstop : date ≤ w.stop) : w.interval.Covers date :=
  ⟨hstart, fun _ h => w.stop_eq h ▸ hstop⟩

end Wanted

variable {table : Table} {w : Wanted} {date : Int}

/-- **What a call has to find.** `w.stop` is the end of the new credit, or the current time. -/
structure Careful (table : Table) (w : Wanted) : Prop where
  one : ∀ c ∈ w.others table, ∀ c' ∈ w.others table,
    c.interval.Meets w.interval → c'.interval.Meets w.interval → c = c'
  /-- one that spans the new one is not there, or the new one is shorter than a day -/
  spanning : ∀ c ∈ w.others table, w.outer.holds c → w.stop < w.startDate + day
  /-- for an open end, none is in the way that starts later, unless it ends within the day -/
  later : w.endDate = none → ∀ c ∈ w.others table, c.interval.Meets w.interval →
    c.startDate ≤ w.startDate ∨ c.startDate ≤ w.now ∧ ∃ stop ∈ c.endDate, stop < w.now + day
  /-- an emptied one inside is not found in the place of one that crosses the end -/
  emptied : ∀ c ∈ w.others table, w.inner.holds c → c.interval.Emptied →
    ∀ c' ∈ w.others table, c'.interval.Meets w.interval →
      c'.startDate ≤ w.startDate ∨ ∃ stop ∈ c'.endDate, stop ≤ w.stop

instance (table : Table) (w : Wanted) : Decidable (Careful table w) :=
  decidable_of_iff (_ ∧ _ ∧ _ ∧ _)
    ⟨fun ⟨one, spanning, later, emptied⟩ => ⟨one, spanning, later, emptied⟩,
      fun ⟨one, spanning, later, emptied⟩ => ⟨one, spanning, later, emptied⟩⟩

variable {c : Credit}

/-- Under the condition every credit that shares a date is found in some category. -/
theorem Careful.category (hcareful : Careful table w) (hc : c ∈ w.others table)
    (hmeets : c.interval.Meets w.interval) :
    w.outer.holds c ∨ w.before.holds c ∨ w.inner.holds c
      ∨ w.after.holds c ∧ w.startDate < c.startDate ∧ ∀ stop ∈ c.endDate, w.stop < stop := by
  rw [outer_holds, before_holds, inner_holds, after_holds]
  obtain ⟨hstops, hends⟩ := Interval.meets_iff.mp hmeets
  by_cases hstart : c.startDate ≤ w.startDate
  · by_cases hspans : ∀ stop ∈ c.endDate, w.stop ≤ stop
    · exact .inl ⟨hstart, hspans⟩
    · push Not at hspans
      obtain ⟨stop, hstop, hlt⟩ := hspans
      exact .inr (.inl ⟨hstart, stop, hstop, (hstops stop hstop).2, hlt.le⟩)
  · by_cases hinside : ∃ stop ∈ c.endDate, stop ≤ w.stop
    · exact .inr (.inr (.inl ⟨by omega, hinside⟩))
    · push Not at hinside
      -- it starts before the end
      have hbegun : c.startDate ≤ w.stop := by
        cases hend : w.endDate with
        | some stop => exact w.stop_eq hend ▸ (hends stop hend).1
        | none =>
          rcases hcareful.later hend c hc hmeets with hle | ⟨hle, -⟩
          · exact absurd hle hstart
          · rwa [Wanted.stop, hend]
      exact .inr (.inr (.inr ⟨⟨hbegun, fun stop hstop => (hinside stop hstop).le⟩, by omega,
        hinside⟩))

theorem within_end (h : ∀ stop ∈ c.endDate, date ≤ stop) :
    ({ c with endDate := some date } : Credit).interval.Within c.interval :=
  fun _ hdate => ⟨hdate.1, fun stop hstop => (hdate.2 date rfl).trans (h stop hstop)⟩

theorem within_start (h : c.startDate ≤ date) :
    ({ c with startDate := date } : Credit).interval.Within c.interval :=
  fun _ hdate => ⟨h.trans hdate.1, hdate.2⟩

/-- What a cut does: it deletes another credit or leaves it a part of its dates, which are none
of the interval. -/
inductive Trimmed (table : Table) (w : Wanted) : Table → Prop
  | kept (hclear : Clear table w.key w.interval w.creditId) : Trimmed table w table
  | deleted {c : Credit} (hmem : c ∈ w.others table)
      (hrest : ∀ c' ∈ w.others table, c' ≠ c → ¬c'.interval.Meets w.interval) :
      Trimmed table w (table.delete c.id)
  | cut {c : Credit} (change : Credit → Credit) (hmem : c ∈ w.others table)
      (hrest : ∀ c' ∈ w.others table, c' ≠ c → ¬c'.interval.Meets w.interval)
      (hid : ∀ c, (change c).id = c.id) (hkey : ∀ c, (change c).key = c.key)
      (hwithin : (change c).interval.Within c.interval)
      (hcut : ¬(change c).interval.Meets w.interval) :
      Trimmed table w (table.update c.id change)

theorem outer_meets (hholds : w.outer.holds c) (hle : w.startDate ≤ w.stop) :
    c.interval.Meets w.interval := by
  obtain ⟨hstart, hstops⟩ := outer_holds.mp hholds
  exact ⟨w.startDate, ⟨hstart, fun stop hstop => hle.trans (hstops stop hstop)⟩,
    w.covers le_rfl hle⟩

theorem before_meets (hholds : w.before.holds c) : c.interval.Meets w.interval := by
  obtain ⟨hstart, stop, hstop, hle, hle'⟩ := before_holds.mp hholds
  exact ⟨w.startDate, ⟨hstart, fun other hother => mem_unique hother hstop ▸ hle⟩,
    w.covers le_rfl (hle.trans hle')⟩

theorem inner_meets (hholds : w.inner.holds c) (hfull : ¬c.interval.Emptied) :
    c.interval.Meets w.interval := by
  obtain ⟨hstart, stop, hstop, hle⟩ := inner_holds.mp hholds
  have hfilled : c.startDate ≤ stop := by
    by_contra hlt
    exact hfull ⟨stop, hstop, not_le.mp hlt⟩
  exact ⟨c.startDate, ⟨le_rfl, fun other hother => mem_unique hother hstop ▸ hfilled⟩,
    w.covers hstart (hfilled.trans hle)⟩

theorem Careful.outer_of_meets (hcareful : Careful table w) (hfuture : w.stop < w.startDate)
    (hc : c ∈ w.others table) (hmeets : c.interval.Meets w.interval) : w.outer.holds c := by
  rcases hcareful.category hc hmeets with houter | hbefore | hinner | ⟨hafter, hlt, -⟩
  · exact houter
  · obtain ⟨-, stop, -, hle, hle'⟩ := before_holds.mp hbefore
    omega
  · obtain ⟨hle, stop, hstop, hle'⟩ := inner_holds.mp hinner
    have : c.startDate ≤ stop := ((Interval.meets_iff.mp hmeets).1 stop hstop).1
    omega
  · have := (after_holds.mp hafter).1
    omega

section Categories

variable (hcareful : Careful table w)
include hcareful

theorem Careful.rest (hc : c ∈ w.others table) (hmeets : c.interval.Meets w.interval) :
    ∀ c' ∈ w.others table, c' ≠ c → ¬c'.interval.Meets w.interval :=
  fun c' hc' hne hmeets' => hne (hcareful.one c' hc' c hc hmeets' hmeets)

theorem Careful.trim_outer (hmem : c ∈ w.others table) (hholds : w.outer.holds c)
    (honly : ∀ c' ∈ w.others table, w.outer.holds c' → c' = c) :
    Trimmed table w (table.cut (w.outer.overlap c)) := by
  obtain ⟨-, hstops⟩ := outer_holds.mp hholds
  refine .cut ({ · with endDate := some (w.stop - day) }) hmem ?_
    (fun _ => rfl) (fun _ => rfl) (within_end fun stop hstop => ?_) fun hmeets => ?_
  · -- an open end can lie before the start, where the current time does
    rcases le_or_gt w.startDate w.stop with hle | hfuture
    · exact hcareful.rest hmem (outer_meets hholds hle)
    · intro c' hc' hne hmeets
      exact hne (honly c' hc' (hcareful.outer_of_meets hfuture hc' hmeets))
  · have := hstops stop hstop
    unfold day
    omega
  · have hshort := hcareful.spanning c hmem hholds
    have hle : w.startDate ≤ w.stop - day := ((Interval.meets_iff.mp hmeets).1 _ rfl).2
    omega

theorem Careful.trim_before (hmem : c ∈ w.others table) (hholds : w.before.holds c) :
    Trimmed table w (table.cut (w.before.overlap c)) := by
  obtain ⟨-, stop, hstop, hle, -⟩ := before_holds.mp hholds
  refine .cut ({ · with endDate := some (w.startDate - day) }) hmem
    (hcareful.rest hmem (before_meets hholds)) (fun _ => rfl) (fun _ => rfl)
    (within_end fun other hother => ?_) fun hmeets => ?_
  · rw [mem_unique hother hstop]
    unfold day
    omega
  · have hle : w.startDate ≤ w.startDate - day := ((Interval.meets_iff.mp hmeets).1 _ rfl).2
    unfold day at hle
    omega

section

variable (houter : ∀ c ∈ w.others table, ¬w.outer.holds c)
  (hbefore : ∀ c ∈ w.others table, ¬w.before.holds c)

include houter hbefore

theorem Careful.trim_inner (hmem : c ∈ w.others table) (hholds : w.inner.holds c)
    (honly : ∀ c' ∈ w.others table, w.inner.holds c' → c' = c) :
    Trimmed table w (table.cut (w.inner.overlap c)) := by
  refine .deleted hmem ?_
  by_cases hemptied : c.interval.Emptied
  · -- the one in the way would be inside too, or cross the end
    intro c' hc' hne hmeets
    rcases hcareful.category hc' hmeets with h | h | h | ⟨-, hstart, hstops⟩
    · exact houter c' hc' h
    · exact hbefore c' hc' h
    · exact hne (honly c' hc' h)
    · rcases hcareful.emptied c hmem hholds hemptied c' hc' hmeets with hle | ⟨stop, hstop, hle⟩
      · omega
      · have := hstops stop hstop
        omega
  · exact hcareful.rest hmem (inner_meets hholds hemptied)

theorem Careful.trim_after (hinner : ∀ c ∈ w.others table, ¬w.inner.holds c)
    (hmem : c ∈ w.others table) (hholds : w.after.holds c)
    (honly : ∀ c' ∈ w.others table, w.after.holds c' → c' = c) :
    Trimmed table w (table.cut (w.after.overlap c)) := by
  obtain ⟨hstart, hreaches⟩ := after_holds.mp hholds
  have hlater : c.startDate ≤ w.stop + day := by
    unfold day
    omega
  refine .cut ({ · with startDate := w.stop + day }) hmem ?_
    (fun _ => rfl) (fun _ => rfl) (within_start hlater) fun hmeets => ?_
  · intro c' hc' hne hmeets
    rcases hcareful.category hc' hmeets with h | h | h | ⟨h, -, -⟩
    · exact houter c' hc' h
    · exact hbefore c' hc' h
    · exact hinner c' hc' h
    · exact hne (honly c' hc' h)
  · obtain ⟨hstops, hends⟩ := Interval.meets_iff.mp hmeets
    cases hend : w.endDate with
    | some stop =>
      have hle : w.stop + day ≤ stop := (hends stop hend).1
      rw [w.stop_eq hend] at hle
      unfold day at hle
      omega
    | none =>
      -- it was in the way before, and not by starting first
      have hwas : c.interval.Meets w.interval := (within_start hlater).meets hmeets
      rcases hcareful.later hend c hmem hwas with hle | ⟨-, stop, hstop, hlt⟩
      · exact houter c hmem (outer_holds.mpr ⟨hle, hreaches⟩)
      · have hle : w.stop + day ≤ stop := (hstops stop hstop).1
        rw [Wanted.stop, hend, getD_none] at hle
        omega

end

/-- **The cut.** Where the call finds what it can repair, no credit stays in the way. -/
theorem Careful.trimmed
    (h : cutExisting table w.key w.startDate w.endDate w.now w.creditId = .ok table') :
    Trimmed table w table' := by
  obtain ⟨overlap, hcheck, hcut⟩ := bind_eq_ok.mp h
  -- the categories in their order: each one is tried where those before it have no credit
  have hfound := findOverlap_found hcheck
  cases hfound with
  | here hmem hholds honly =>
    cases hcut
    exact hcareful.trim_outer hmem hholds honly
  | skip houter hfound =>
  cases hfound with
  | here hmem hholds honly =>
    cases hcut
    exact hcareful.trim_before hmem hholds
  | skip hbefore hfound =>
  cases hfound with
  | here hmem hholds honly =>
    cases hcut
    exact hcareful.trim_inner houter hbefore hmem hholds honly
  | skip hinner hfound =>
  cases hfound with
  | here hmem hholds honly =>
    cases hcut
    exact hcareful.trim_after houter hbefore hinner hmem hholds honly
  | skip hafter hfound =>
    cases hfound
    cases hcut
    refine .kept fun c hc hmeets => ?_
    rcases hcareful.category hc hmeets with h | h | h | ⟨h, -, -⟩
    · exact houter c hc h
    · exact hbefore c hc h
    · exact hinner c hc h
    · exact hafter c hc h

end Categories

section Trimmed

variable {table' : Table} (h : Trimmed table w table')
include h

theorem Trimmed.keyed (hkeyed : Keyed table) : Keyed table' := by
  cases h with
  | kept => exact hkeyed
  | deleted => exact hkeyed.delete _
  | cut change hmem hrest hid => exact hkeyed.update hid

theorem Trimmed.apart (hkeyed : Keyed table) (hapart : Apart table) : Apart table' := by
  cases h with
  | kept => exact hapart
  | deleted => exact hapart.delete _
  | @cut c change hmem hrest hid hkey hwithin hcut =>
    have hc := (mem_others.mp hmem).1
    refine hapart.update hid fun c' hc' hsame other hother hmeets => ?_
    obtain rfl := hkeyed.eq hc' hc hsame
    obtain ⟨hother, hotherkey, hne⟩ := mem_others.mp hother
    exact hapart c' hc' other hother (fun heq => hne (congrArg some heq))
      (hkey c' ▸ hotherkey.symm) (hwithin.meets hmeets.symm)

theorem Trimmed.clear (hkeyed : Keyed table) : Clear table' w.key w.interval w.creditId := by
  cases h with
  | kept hclear => exact hclear
  | @deleted c hmem hrest =>
    intro c' hc'
    obtain ⟨hc', hrow⟩ := mem_others.mp hc'
    obtain ⟨hc', hne⟩ := mem_delete.mp hc'
    exact hrest c' (mem_others.mpr ⟨hc', hrow⟩) fun heq => hne (congrArg Credit.id heq)
  | @cut c change hmem hrest hid hkey hwithin hcut =>
    intro c' hc'
    obtain ⟨hc', hrow⟩ := mem_others.mp hc'
    obtain ⟨old, hold, rfl⟩ := mem_update.mp hc'
    by_cases hsame : old.id = c.id
    · obtain rfl := hkeyed.eq hold (mem_others.mp hmem).1 hsame
      rw [if_pos rfl]
      exact hcut
    · rw [if_neg hsame] at hrow ⊢
      exact hrest old (mem_others.mpr ⟨hold, hrow⟩) fun heq => hsame (congrArg Credit.id heq)

theorem Trimmed.self {id : Nat} (hid : w.creditId = some id) (hc : c ∈ table'.credits)
    (hself : c.id = id) : c ∈ table.credits := by
  cases h with
  | kept => exact hc
  | deleted => exact (mem_delete.mp hc).1
  | @cut cut change hmem hrest hkeep =>
    obtain ⟨old, hold, rfl⟩ := mem_update.mp hc
    by_cases hsame : old.id = cut.id
    · rw [if_pos hsame, hkeep] at hself
      exact absurd (by rw [hid, ← hself, hsame]) (mem_others.mp hmem).2.2
    · rw [if_neg hsame]
      exact hold

end Trimmed

end Cut

/-! ## Sequences of calls -/

def CarefulItems (data : CreateData) (limits : UsageLimit) (startDate : Int)
    (endDate : Option Int) (table : Table) : List (String × Int) → Prop
  | [] => True
  | (itemId, now) :: rest =>
    Careful table ⟨data.key itemId, startDate, endDate, now, none⟩ ∧
      match cutExisting table (data.key itemId) startDate endDate now none with
      | .ok table =>
        CarefulItems data limits startDate endDate
          (table.insert (data.credit limits startDate endDate itemId)) rest
      | .error _ => True

instance (data : CreateData) (limits : UsageLimit) (startDate : Int) (endDate : Option Int) :
    ∀ (table : Table) (items : List (String × Int)),
      Decidable (CarefulItems data limits startDate endDate table items)
  | _, [] => isTrue trivial
  | table, (itemId, now) :: rest =>
    have : Decidable (match cutExisting table (data.key itemId) startDate endDate now none with
        | .ok table => CarefulItems data limits startDate endDate
          (table.insert (data.credit limits startDate endDate itemId)) rest
        | .error _ => True) :=
      match cutExisting table (data.key itemId) startDate endDate now none with
      | .ok _ => instDecidableCarefulItems data limits startDate endDate _ rest
      | .error _ => isTrue trivial
    inferInstanceAs (Decidable (_ ∧ _))

/-- A call that finds what it can repair. An update without a cut leaves the triple, and opens the
end only where nothing is in the way. -/
def Call.Careful (table : Table) : Call → Prop
  | .create usageLimit data startDate endDate =>
    ∀ limits ∈ usageLimit data.limitId,
      CarefulItems data limits startDate endDate table data.itemIds
  | .update creditId data now =>
    ∀ credit ∈ table.get creditId,
      if data.reconciles then
        Credits.Careful table ⟨(data.apply credit).key, (data.apply credit).startDate,
          (data.apply credit).endDate, now, some credit.id⟩
      else
        (data.apply credit).key = credit.key
          ∧ (data.endDate = some none →
            Clear table credit.key ⟨credit.startDate, none⟩ (some credit.id))
  | .delete _ => True

instance (table : Table) : ∀ call : Call, Decidable (call.Careful table)
  | .create usageLimit data _ _ => inferInstanceAs (Decidable (∀ _ ∈ usageLimit data.limitId, _))
  | .update creditId data _ => inferInstanceAs (Decidable
      (∀ _ ∈ table.get creditId, if data.reconciles then _ else _ ∧ (_ → _)))
  | .delete _ => isTrue trivial

theorem createItems_apart {data : CreateData} {limits : UsageLimit} {startDate : Int}
    {endDate : Option Int} {items : List (String × Int)} (hkeyed : Keyed table)
    (hapart : Apart table) (hcareful : CarefulItems data limits startDate endDate table items)
    (h : createItems data limits startDate endDate table items = .ok table') :
    Keyed table' ∧ Apart table' := by
  induction items generalizing table with
  | nil =>
    cases h
    exact ⟨hkeyed, hapart⟩
  | cons item rest ih =>
    obtain ⟨itemId, now⟩ := item
    obtain ⟨trimmed, hcut, hrest⟩ := bind_eq_ok.mp h
    obtain ⟨hitem, hcareful⟩ := hcareful
    rw [hcut] at hcareful
    have htrim := hitem.trimmed hcut
    have hinsert : Apart (trimmed.insert (data.credit limits startDate endDate itemId)) :=
      (htrim.apart hkeyed hapart).insert (htrim.clear hkeyed)
    exact ih ((htrim.keyed hkeyed).insert fun _ => rfl) hinsert hcareful hrest

theorem get_mem (h : table.get id = some c) : c ∈ table.credits ∧ c.id = id :=
  ⟨mem_of_find?_eq_some h, by simpa using find?_some h⟩

/-- An update without a cut needs none. -/
theorem clear_of_not_reconciles {data : UpdateData} {credit : Credit}
    (hreconciles : ¬data.reconciles) (hapart : Apart table) (hmem : credit ∈ table.credits)
    (hkey : (data.apply credit).key = credit.key) (hopen : data.endDate = some none →
      Clear table credit.key ⟨credit.startDate, none⟩ (some credit.id)) :
    Clear table (data.apply credit).key (data.apply credit).interval (some credit.id) := by
  have hfields : data.startDate = none ∧ (data.endDate = none ∨ data.endDate = some none) := by
    simp only [UpdateData.reconciles, decide_eq_true_eq, not_or] at hreconciles
    obtain ⟨-, -, -, hstart, hend⟩ := hreconciles
    refine ⟨by simpa using hstart, ?_⟩
    rcases hdata : data.endDate with _ | _ | stop
    · exact .inl rfl
    · exact .inr rfl
    · rw [hdata] at hend
      exact absurd rfl hend
  obtain ⟨hstart, hend | hend⟩ := hfields
  · have hinterval : (data.apply credit).interval = credit.interval := by
      simp [UpdateData.apply, Credit.interval, hstart, hend]
    rw [hinterval, hkey]
    intro c hc hmeets
    obtain ⟨hc, hckey, hne⟩ := mem_others.mp hc
    exact hapart credit hmem c hc (fun heq => hne (congrArg some heq)) hckey.symm hmeets.symm
  · have hinterval : (data.apply credit).interval = ⟨credit.startDate, none⟩ := by
      simp [UpdateData.apply, Credit.interval, hstart, hend]
    rw [hinterval, hkey]
    exact hopen hend

/-- A careful update keeps the credits apart. -/
theorem update_apart {data : UpdateData} {creditId : Nat} {now : Int} (hkeyed : Keyed table)
    (hapart : Apart table) (hcareful : Call.Careful table (.update creditId data now))
    (h : update table creditId data now = .ok table') : Keyed table' ∧ Apart table' := by
  unfold update at h
  cases hget : table.get creditId with
  | none =>
    rw [hget] at h
    cases h
  | some credit =>
    rw [hget] at h
    obtain ⟨hmem, rfl⟩ := get_mem hget
    have hcareful := hcareful credit hget
    obtain ⟨trimmed, hcut, h⟩ := bind_eq_ok.mp h
    obtain ⟨_, -, h⟩ := bind_eq_ok.mp h
    -- the table after the cut: sound, the row as it was, and room for it
    obtain ⟨hkeyed', hapart', hself, hclear⟩ : Keyed trimmed ∧ Apart trimmed
        ∧ (∀ c ∈ trimmed.credits, c.id = credit.id → c = credit)
        ∧ Clear trimmed (data.apply credit).key (data.apply credit).interval (some credit.id) := by
      unfold UpdateData.reconcile at hcut
      split_ifs at hcut hcareful with hreconciles
      · have htrim := hcareful.trimmed hcut
        exact ⟨htrim.keyed hkeyed, htrim.apart hkeyed hapart,
          fun c hc hself => hkeyed.eq (htrim.self rfl hc hself) hmem hself, htrim.clear hkeyed⟩
      · cases hcut
        exact ⟨hkeyed, hapart, fun c hc hself => hkeyed.eq hc hmem hself,
          clear_of_not_reconciles hreconciles hapart hmem hcareful.1 hcareful.2⟩
    cases h
    split_ifs
    · exact ⟨hkeyed'.update fun _ => rfl,
        hapart'.update (fun _ => rfl) fun c hc hid => hself c hc hid ▸ hclear⟩
    · exact ⟨hkeyed', hapart'⟩

/-- One call keeps the credits apart. -/
theorem apart_next {call : Call} (h : Keyed table ∧ Apart table) (hcareful : call.Careful table)
    (hnext : calls.next table call = some table') : Keyed table' ∧ Apart table' := by
  obtain ⟨hkeyed, hapart⟩ := h
  cases call with
  | create usageLimit data startDate endDate =>
    have h := toOption_eq_some.mp hnext
    unfold create at h
    cases hlimit : usageLimit data.limitId with
    | none =>
      rw [hlimit] at h
      cases h
    | some limits =>
      rw [hlimit] at h
      exact createItems_apart hkeyed hapart (hcareful limits hlimit) h
  | update creditId data now =>
    exact update_apart hkeyed hapart hcareful (toOption_eq_some.mp hnext)
  | delete creditId =>
    have h := toOption_eq_some.mp hnext
    unfold delete at h
    split at h
    · cases h
    · cases h
      exact ⟨hkeyed.delete creditId, hapart.delete creditId⟩

/-- **Credits.** From every table without overlaps, in every sequence of successful calls that each
find what they can repair, no two credits of a triple have a date in common. -/
theorem credits_apart (table : Table) (hkeyed : Keyed table) (hapart : Apart table)
    (sequence : List Call) (hcareful : calls.Meets (fun table call => call.Careful table) table
      sequence) (table' : Table) (hrun : calls.run table sequence = some table') : Apart table' :=
  (calls.run_invariant (fun table call => call.Careful table)
    (fun table => Keyed table ∧ Apart table) (fun _ _ _ hinv hP hnext => apart_next hinv hP hnext)
    ⟨hkeyed, hapart⟩ hcareful hrun).2

def grant (startDay : Int) (endDay : Option Int) (now : Int) : Call :=
  .create
    (fun id => if id = "basic" then
      some ⟨"basic", "Basic", "", { hard := 10, soft := 8, expMin := 1, expMax := 5 }⟩ else none)
    { itemIds := [("default", now)], itemConsumer := "category", itemType := "desktop",
      groupingId := "all", limitId := "basic" }
    (startDay * day) (endDay.map (· * day))

def keepOpen (creditId : Nat) : Call :=
  .update creditId
    { id := some creditId, itemId := none, itemType := none, groupingId := none,
      startDate := none, endDate := some none, limits := none } 0

/-- Thirty days, cut by twenty that start within them, and then kept open. -/
theorem granted_apart :
    ∃ table, calls.run ⟨[], 0⟩ [grant 0 (some 30) 0, grant 20 (some 40) 0, keepOpen 1] = some table
      ∧ table.credits.map (·.interval.stop) = [some (19 * day), none] ∧ Apart table := by
  have hcareful : calls.Meets (fun table call => call.Careful table) ⟨[], 0⟩
      [grant 0 (some 30) 0, grant 20 (some 40) 0, keepOpen 1] := by decide +kernel
  have hkeyed : Keyed ⟨[], 0⟩ := ⟨nodup_nil, by simp⟩
  have hapart : Apart ⟨[], 0⟩ := by simp [Apart]
  exact ⟨_, rfl, by decide +kernel, credits_apart _ hkeyed hapart _ hcareful _ rfl⟩

/-- Thirty days and ten within them: the first is cut a day before the end of the second. -/
theorem granted_within_overlap :
    ∃ table, calls.run ⟨[], 0⟩ [grant 0 (some 30) 0, grant 10 (some 20) 0] = some table
      ∧ table.credits.map (fun c => (c.startDate, c.endDate))
        = [(0, some (19 * day)), (10 * day, some (20 * day))]
      ∧ ¬Apart table := by
  exact ⟨_, rfl, by decide +kernel, by decide +kernel⟩

end IsardVDI.Usage.Credits
