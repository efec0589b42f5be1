import IsardVDI.Usage.Rollup

/-!
# The daily consolidation of `usage_consumption`

`consolidate.py`: the day's data of one kind is grouped by item once for every consumer, and each
group becomes one row with the day's increment and the absolute consumption up to that day. Kinds
read from logs measure the increment and add it to the absolute value of the row before; kinds read
from the current tables measure the absolute value and take the increment from the row before.
Arithmetic is exact: `round` is left out.
-/

namespace IsardVDI.Usage

open List Option

/-- A dictionary of numbers: a key that is missing reads `none`. -/
abbrev Params := String → Option ℚ

def addDicts (dict1 dict2 : Params) : Params := fun key =>
  match dict1 key, dict2 key with
  | some a, some b => some (a + b)
  | some a, none => some a
  | none, value => value

def substractDicts (dict1 dict2 : Params) : Params := fun key =>
  match dict1 key, dict2 key with
  | some a, some b => some (a - b)
  | some a, none => some a
  | none, value => value

/-! ## The kinds and what they measure -/

inductive Kind
  | desktop
  | user
  | storage
  | media
  deriving DecidableEq, Repr

/-- The name `ConsolidateConsumption` is given. -/
def Kind.name : Kind → String
  | desktop => "desktop"
  | user => "user"
  | storage => "storage"
  | media => "media"

def Kind.incremental : Kind → Bool
  | desktop => true
  | user => true
  | storage => false
  | media => false

inductive Consumer
  | user
  | group
  | category
  | desktop
  | deployment
  | template
  | hypervisor
  deriving DecidableEq, Repr

def Consumer.name : Consumer → String
  | user => "user"
  | group => "group"
  | category => "category"
  | desktop => "desktop"
  | deployment => "deployment"
  | template => "template"
  | hypervisor => "hypervisor"

/-- `CONSUMERS` of each module, in its order. -/
def Kind.consumerItems : Kind → List Consumer
  | desktop => [.user, .group, .category, .desktop, .deployment, .template, .hypervisor]
  | user => [.user, .group, .category]
  | storage => [.user, .group, .category]
  | media => [.user, .group, .category]

/-- A row of `day_data`. Each kind sets the fields its consumers and its `_process_consumption`
read; `some ""` stands for a value that is there and false. -/
structure DayLog where
  ownerUserId : String
  ownerUserName : String
  ownerGroupId : String
  ownerGroupName : String
  ownerCategoryId : String
  ownerCategoryName : String
  desktopId : String
  desktopName : String
  deploymentId : Option String
  deploymentName : String
  hypStarted : Option String
  desktopTemplateHierarchy : List String
  startedTime : Int
  stoppedTime : Int
  hardwareVcpus : Nat
  hardwareMemory : ℚ
  /-- the leading number of each profile's suffix -/
  vgpusMemory : List Nat
  size : ℚ

/-- A custom parameter: `securize_eval` of its formula reads the parameters set before it. -/
structure CustomParam where
  id : String
  formula : Params → ℚ

def withCustom (custom : List CustomParam) (params : Params) : Params :=
  custom.foldl (fun params param => Function.update params param.id (some (param.formula params)))
    params

def minutes (start stop : Int) : ℚ :=
  (stop - start : Int) / 60000000

/-- The parameters each kind computes itself, in the order of the source. -/
def Kind.calculateConsumption (log : DayLog) : Kind → List (String × ℚ)
  | desktop =>
    let interval : ℚ := 1 / 60
    let minutes := minutes log.startedTime log.stoppedTime
    let gpuMem : ℚ := (log.vgpusMemory.sum : Nat)
    let memory := log.hardwareMemory / 1048576
    [("dsk_starts", 1), ("dsk_hours", minutes / 60), ("dsk_gpu_mem", gpuMem * interval * minutes),
      ("dsk_gpu_hours", if gpuMem = 0 then 0 else minutes / 60),
      ("dsk_vcpus", log.hardwareVcpus * interval * minutes),
      ("dsk_mem", memory * interval * minutes)]
  | user => [("usr_active", 1), ("usr_hours", minutes log.startedTime log.stoppedTime / 60)]
  | storage => [("str_created", 1), ("str_size", log.size / 1073741824)]
  | media => [("mda_created", 1), ("mda_size", log.size / 1073741824)]

def Kind.processConsumption (kind : Kind) (custom : List CustomParam) (log : DayLog) : Params :=
  withCustom custom fun key => (kind.calculateConsumption log).lookup key

variable {key : String} {kind : Kind}

theorem isSome_withCustom {custom : List CustomParam} {params : Params} (h : (params key).isSome) :
    (withCustom custom params key).isSome := by
  induction custom generalizing params with
  | nil => exact h
  | cons param custom ih =>
    apply ih
    by_cases hkey : key = param.id
    · subst hkey
      simp
    · show (Function.update params param.id _ key).isSome
      rwa [Function.update_of_ne hkey]

theorem isSome_processConsumption {log : DayLog}
    (h : ((kind.calculateConsumption log).lookup key).isSome) (custom : List CustomParam) :
    (kind.processConsumption custom log key).isSome :=
  isSome_withCustom h

/-! ## The items of a day -/

/-- What the consolidator knows of a desktop's or a template's domain. -/
structure Domain where
  name : String
  tag : Option String
  tagName : String

/-- One call of `ConsolidateConsumption`: what it is given and what it reads. -/
structure Consolidation where
  kind : Kind
  /-- days since 1 January 1970 -/
  dayNumber : Int
  custom : List CustomParam
  domains : String → Option Domain
  dayData : List DayLog

variable (c : Consolidation)

def Consolidation.consolidationDay : Int :=
  c.dayNumber * day

def Consumer.itemKey (log : DayLog) : Consumer → Option String
  | user => some log.ownerUserId
  | group => some log.ownerGroupId
  | category => some log.ownerCategoryId
  | desktop => some log.desktopId
  | deployment => log.deploymentId
  | template => log.desktopTemplateHierarchy.getLast?
  | hypervisor => log.hypStarted

variable (consumer : Consumer)

/-- A log without a hierarchy cannot be computed to any template. -/
def groupDayDataByItem (dayData : List DayLog) : List (List DayLog) :=
  let computed := match consumer with
    | .template => dayData.filter (·.desktopTemplateHierarchy ≠ [])
    | _ => dayData
  (Grouping.group (Consumer.itemKey · consumer) computed).map Prod.snd

structure BaseData where
  item : Item
  date : Int
  itemConsumerCategoryId : String
  itemName : String

variable (domains : String → Option Domain)

def getDeployment (desktopId : String) : Domain :=
  (domains desktopId).getD { name := "[DELETED]", tag := some "[DELETED]", tagName := "[DELETED]" }

def getTemplateName (templateId : String) : String :=
  ((domains templateId).map (·.name)).getD "[DELETED]"

def itemIdName (log : DayLog) : Consumer → Option (String × String)
  | .user => some (log.ownerUserId, log.ownerUserName)
  | .group => some (log.ownerGroupId, log.ownerGroupName)
  | .category => some (log.ownerCategoryId, log.ownerCategoryName)
  | .desktop => some (log.desktopId, log.desktopName)
  | .deployment =>
    match log.deploymentId with
    | none => none
    | some "" =>
      let deployment := getDeployment domains log.desktopId
      match deployment.tag with
      | none => none
      | some "" => none
      | some tag => some (tag, deployment.tagName)
    | some deploymentId => some (deploymentId, log.deploymentName)
  | .template =>
    match log.desktopTemplateHierarchy.getLast? with
    | none => none
    | some "" => none
    | some templateId => some (templateId, getTemplateName domains templateId)
  | .hypervisor =>
    match log.hypStarted with
    | none => none
    | some "" => none
    | some hypStarted => some (hypStarted, hypStarted)

def Consolidation.itemBaseData (log : DayLog) : Option BaseData :=
  (itemIdName c.domains log consumer).map fun (itemId, itemName) =>
    { item := { itemId, itemType := c.kind.name, itemConsumer := consumer.name }
      date := c.consolidationDay
      itemConsumerCategoryId := log.ownerCategoryId
      itemName }

/-- `item_day_data_added`: the loop over the logs of one item. -/
def Consolidation.added (c : Consolidation) (logs : List DayLog) : Params :=
  logs.foldl (fun added log => addDicts added (c.kind.processConsumption c.custom log))
    fun _ => none

def Consolidation.groupItem (logs : List DayLog) : Option (BaseData × Params) :=
  logs.head?.bind fun first => (c.itemBaseData consumer first).map (·, c.added logs)

def Consolidation.dayItems : List (BaseData × Params) :=
  c.kind.consumerItems.flatMap fun consumer =>
    (groupDayDataByItem consumer c.dayData).filterMap (c.groupItem consumer)

/-! ## The rows of a day -/

abbrev ConsumptionRow := Row String (Option ℚ) Params

abbrev ConsumptionTable := Table String (Option ℚ) Params

def consumptionKey (itemId consumer : String) : String :=
  itemId ++ "##" ++ consumer

/-- The last row up to the date of every item of the type, under its composite key. -/
def getAbsConsumptions (itemType : String) (date : Int) (table : ConsumptionTable) :
    List (String × ConsumptionRow) :=
  let rows := table.rows.filter fun row => row.item.itemType = itemType ∧ row.date ≤ date
  (Grouping.group (fun row => (row.item.itemId, row.item.itemConsumer)) rows).filterMap fun
    | (_, []) => none
    | ((itemId, consumer), first :: rest) =>
      some (consumptionKey itemId consumer, latest first rest)

def previousAbs (previous : List (String × ConsumptionRow)) (item : Item) : Params :=
  match previous.find? (·.1 = consumptionKey item.itemId item.itemConsumer) with
  | some (_, row) => row.abs
  | none => fun _ => none

/-- The increment and the absolute consumption of `get_item_consumption_for_consumer`. -/
def Kind.consumption (kind : Kind) (previous added : Params) : Params × Params :=
  if kind.incremental then (added, addDicts previous added)
  -- the day before less the day itself
  else (substractDicts previous added, added)

def getItemConsumptionForConsumer (kind : Kind) (previous : List (String × ConsumptionRow)) :
    BaseData × Params → ConsumptionRow
  | (base, added) =>
    let consumption := kind.consumption (previousAbs previous base.item) added
    { item := base.item
      date := base.date
      itemConsumerCategoryId := some base.itemConsumerCategoryId
      itemName := some base.itemName
      inc := consumption.1
      abs := consumption.2
      granularity := none }

/-- An update merges the dictionaries and leaves the fields it does not name. -/
def Row.merge (old row : ConsumptionRow) : ConsumptionRow :=
  { row with
    inc := fun key => (row.inc key).or (old.inc key)
    abs := fun key => (row.abs key).or (old.abs key)
    granularity := row.granularity.or old.granularity }

variable (table : ConsumptionTable)

def Table.insertUpdate (row : ConsumptionRow) : ConsumptionTable :=
  match table.rows.find? (·.pk = row.pk) with
  | some old => table.replace (old.merge row)
  | none => table.replace row

def insertConsumptionBatch (data : List ConsumptionRow) : ConsumptionTable :=
  data.foldl Table.insertUpdate table

/-- The previous rows are read once, before the consumers in turn. A day without data is skipped. -/
def consolidate (c : Consolidation) : ConsumptionTable :=
  if c.dayData = [] then table
  else
    let previous := getAbsConsumptions c.kind.name (c.consolidationDay - day) table
    insertConsumptionBatch table (c.dayItems.map (getItemConsumptionForConsumer c.kind previous))

def ConsumptionTable.empty : ConsumptionTable where
  rows := []
  nodup := List.nodup_nil

variable (runs : List Consolidation)

def consolidated : ConsumptionTable :=
  runs.foldl consolidate .empty

theorem consolidated_concat (c : Consolidation) :
    consolidated (runs ++ [c]) = consolidate (consolidated runs) c :=
  foldl_concat ..

def Daily : Prop :=
  runs.Pairwise fun a b => a.kind = b.kind → a.dayNumber < b.dayNumber

/-! ## The rows of one item

Rows are inserted at the end of the table. A batch has at most one row to add to those of an item;
where it has the item twice, the later one is merged into the earlier. -/

def itemRows (item : Item) : List ConsumptionRow :=
  table.rows.filter (·.item = item)

variable {table : ConsumptionTable} {item : Item} {row old : ConsumptionRow}
  {data rows : List ConsumptionRow} {consumer : Consumer} {c : Consolidation}

theorem mem_itemRows : row ∈ itemRows table item ↔ row ∈ table.rows ∧ row.item = item := by
  rw [itemRows, mem_filter, decide_eq_true_eq]

theorem rows_insertUpdate_new (h : ∀ old ∈ table.rows, old.pk ≠ row.pk) :
    (table.insertUpdate row).rows = table.rows ++ [row] := by
  have hfind : table.rows.find? (·.pk = row.pk) = none := by
    simpa using h
  have hany : table.rows.any (·.pk = row.pk) = false := by
    simpa using h
  rw [Table.insertUpdate, hfind]
  show Keyed.upsert Row.pk table.rows row = table.rows ++ [row]
  rw [Keyed.upsert, hany]
  rfl

theorem rows_insertUpdate_old (hold : old ∈ table.rows) (hpk : old.pk = row.pk) :
    (table.insertUpdate row).rows
      = table.rows.map fun other => if other.pk = row.pk then old.merge row else other := by
  have hfind : table.rows.find? (·.pk = row.pk) = some old := by
    cases hsome : table.rows.find? (·.pk = row.pk) with
    | none => exact absurd hpk (by simpa using find?_eq_none.mp hsome old hold)
    | some found =>
      have hfound : found.pk = row.pk := by simpa using find?_some hsome
      rw [inj_on_of_nodup_map table.nodup (mem_of_find?_eq_some hsome) hold (hfound.trans hpk.symm)]
  have hany : table.rows.any (·.pk = row.pk) = true :=
    any_eq_true.mpr ⟨old, hold, by simpa using hpk⟩
  rw [Table.insertUpdate, hfind]
  show Keyed.upsert Row.pk table.rows (old.merge row) = _
  rw [Keyed.upsert, show (old.merge row).pk = row.pk from rfl, hany]
  rfl

theorem itemRows_insertUpdate_old (hold : old ∈ table.rows) (hpk : old.pk = row.pk) (item : Item) :
    itemRows (table.insertUpdate row) item
      = (itemRows table item).map fun other =>
        if other.pk = row.pk then old.merge row else other := by
  -- a row and the one that replaces it are of the same item
  have hsame : ((fun x : ConsumptionRow => decide (x.item = item)) ∘ fun other =>
      if other.pk = row.pk then old.merge row else other)
      = fun other => decide (other.item = item) := by
    funext other
    show decide ((if other.pk = row.pk then old.merge row else other).item = item) = _
    split_ifs with hother
    · rw [show other.item = row.item from congrArg Prod.fst hother]
      rfl
    · rfl
  rw [itemRows, rows_insertUpdate_old hold hpk, List.filter_map, hsame]
  rfl

theorem itemRows_insertUpdate_of_ne (hne : row.item ≠ item) :
    itemRows (table.insertUpdate row) item = itemRows table item := by
  by_cases hold : ∃ old ∈ table.rows, old.pk = row.pk
  · obtain ⟨old, hold, hpk⟩ := hold
    rw [itemRows_insertUpdate_old hold hpk]
    refine (map_congr_left fun other hmem => if_neg fun hother => hne ?_).trans (map_id _)
    rw [← show other.item = row.item from congrArg Prod.fst hother]
    exact (mem_itemRows.mp hmem).2
  · rw [itemRows, rows_insertUpdate_new fun old hmem hpk => hold ⟨old, hmem, hpk⟩,
      filter_append, filter_singleton]
    simp [hne, itemRows]

def Row.at (key : String) (row : ConsumptionRow) : Int × Option ℚ × Option ℚ :=
  (row.date, row.inc key, row.abs key)

theorem Row.at_merge (hinc : (row.inc key).isSome) (habs : (row.abs key).isSome) :
    (old.merge row).at key = row.at key := by
  obtain ⟨inc, hinc⟩ := isSome_iff_exists.mp hinc
  obtain ⟨abs, habs⟩ := isSome_iff_exists.mp habs
  simp [Row.at, Row.merge, hinc, habs]

variable {date : Int}

/-- A batch appends at most one row to those of an item. -/
theorem itemRows_insertConsumptionBatch (hdate : ∀ row ∈ data, row.date = date)
    (hdata : ∀ row ∈ data, row.item = item → (∀ old ∈ itemRows table item, old.date ≠ date)
      ∧ (row.inc key).isSome ∧ (row.abs key).isSome) :
    ∃ tail, itemRows (insertConsumptionBatch table data) item = itemRows table item ++ tail
      ∧ tail.map (Row.at key)
        = ((data.filter (·.item = item)).getLast?.map (Row.at key)).toList := by
  induction data using reverseRecOn with
  | nil => exact ⟨[], by simp [insertConsumptionBatch]⟩
  | append_singleton data row ih =>
    obtain ⟨tail, hrows, htail⟩ := ih (fun row hrow => hdate row (by simp [hrow]))
      fun row hrow => hdata row (by simp [hrow])
    have hconcat : insertConsumptionBatch table (data ++ [row])
        = (insertConsumptionBatch table data).insertUpdate row := foldl_concat ..
    rw [hconcat, filter_append, filter_singleton]
    by_cases hitem : row.item = item
    · obtain ⟨hbefore, hinc, habs⟩ := hdata row (by simp) hitem
      have hrowdate : row.date = date := hdate row (by simp)
      have hpk {old : ConsumptionRow} :
          old.pk = row.pk ↔ old.item = item ∧ old.date = date := by
        rw [show row.pk = (item, date) from Prod.ext hitem hrowdate]
        exact Prod.ext_iff
      simp only [hitem, decide_true, cond_true, getLast?_append, getLast?_singleton,
        some_or, map_some, toList_some]
      cases tail with
      | nil =>
        -- the first of the batch: a new row
        refine ⟨[row], ?_, by simp⟩
        rw [append_nil] at hrows
        rw [itemRows, rows_insertUpdate_new, filter_append, filter_singleton]
        · simp only [hitem, decide_true, cond_true]
          exact congrArg (· ++ [row]) hrows
        · intro old hold hsame
          obtain ⟨holditem, holddate⟩ := hpk.mp hsame
          exact hbefore old (hrows ▸ mem_itemRows.mpr ⟨hold, holditem⟩) holddate
      | cons old rest =>
        -- the batch has had the item before: the row is merged into that one
        cases hlast : (data.filter (·.item = item)).getLast? with
        | none => simp [hlast] at htail
        | some first =>
          simp only [hlast, map_some, toList_some, map_cons, List.cons.injEq,
            map_eq_nil_iff] at htail
          obtain ⟨hat, rfl⟩ := htail
          have holddate : old.date = date := by
            have hfirst : first ∈ data := (mem_filter.mp (mem_of_getLast? hlast)).1
            rw [show old.date = first.date from congrArg Prod.fst hat]
            exact hdate first (by simp [hfirst])
          have hold : old ∈ itemRows (insertConsumptionBatch table data) item := by simp [hrows]
          obtain ⟨holdmem, holditem⟩ := mem_itemRows.mp hold
          refine ⟨[old.merge row], ?_, by rw [map_singleton, Row.at_merge hinc habs]⟩
          have hsame := hpk.mpr ⟨holditem, holddate⟩
          rw [itemRows_insertUpdate_old holdmem hsame, hrows, map_append, map_singleton,
            if_pos hsame]
          congr 1
          refine (map_congr_left fun other hother => if_neg fun hsame => ?_).trans
            (map_id _)
          exact hbefore other hother (hpk.mp hsame).2
    · rw [itemRows_insertUpdate_of_ne hitem]
      exact ⟨tail, hrows, by simpa [hitem] using htail⟩

/-! ## The row before

No consumer's name has a `#`, so the composite key can be read from its end. -/

theorem takeWhile_consumptionKey (itemId : String) (consumer : Consumer) :
    (consumptionKey itemId consumer.name).toList.reverse.takeWhile (· ≠ '#')
      = consumer.name.toList.reverse := by
  have hname : ∀ x ∈ consumer.name.toList.reverse, decide (x ≠ '#') = true := by
    cases consumer <;> simp [Consumer.name]
  have hkey : (consumptionKey itemId consumer.name).toList.reverse
      = consumer.name.toList.reverse ++ '#' :: '#' :: itemId.toList.reverse := by
    simp [consumptionKey, String.toList_append]
  rw [hkey, takeWhile_append_of_pos hname]
  simp

theorem consumptionKey_injective {itemId itemId' : String} {consumer' : Consumer}
    (h : consumptionKey itemId consumer.name = consumptionKey itemId' consumer'.name) :
    itemId = itemId' ∧ consumer.name = consumer'.name := by
  have hconsumer : consumer.name.toList.reverse = consumer'.name.toList.reverse := by
    rw [← takeWhile_consumptionKey itemId, ← takeWhile_consumptionKey itemId', h]
  have hname : consumer.name = consumer'.name :=
    String.toList_injective (reverse_injective hconsumer)
  refine ⟨String.toList_injective ?_, hname⟩
  have hlist : itemId.toList ++ ("##".toList ++ consumer.name.toList)
      = itemId'.toList ++ ("##".toList ++ consumer.name.toList) := by
    have := congrArg String.toList h
    rw [← hname] at this
    simpa [consumptionKey, String.toList_append] using this
  exact append_cancel_right hlist

theorem latest_of_sorted {first : ConsumptionRow} {rest : List ConsumptionRow}
    (h : (first :: rest).Pairwise (·.date < ·.date)) :
    (first :: rest).getLast? = some (latest first rest) := by
  induction rest generalizing first with
  | nil => rfl
  | cons next rest ih =>
    obtain ⟨hfirst, hrest⟩ := pairwise_cons.mp h
    have hlt : first.date < next.date := hfirst next (.head _)
    have hlatest : latest first (next :: rest) = latest next rest := by
      show latest (if first.date < next.date then next else first) rest = _
      rw [if_pos hlt]
    rw [getLast?_cons_cons, hlatest]
    exact ih hrest

def Known (table : ConsumptionTable) : Prop :=
  ∀ row ∈ table.rows, ∃ consumer : Consumer, row.item.itemConsumer = consumer.name

theorem Item.eq_of_fields {a b : Item} (hid : a.itemId = b.itemId)
    (htype : a.itemType = b.itemType) (hconsumer : a.itemConsumer = b.itemConsumer) : a = b := by
  cases a
  simp_all

/-- The previous total of an item is that of its last row. -/
theorem previousAbs_eq (hknown : Known table) (hconsumer : item.itemConsumer = consumer.name)
    (hdates : ∀ row ∈ itemRows table item, row.date ≤ date)
    (hsorted : (itemRows table item).Pairwise (·.date < ·.date)) (key : String) :
    previousAbs (getAbsConsumptions item.itemType date table) item key
      = (itemRows table item).getLast?.bind (·.abs key) := by
  -- the group of the item is its rows
  have hgroup : (table.rows.filter fun row =>
      row.item.itemType = item.itemType ∧ row.date ≤ date).filter
        (fun row => (row.item.itemId, row.item.itemConsumer) = (item.itemId, item.itemConsumer))
      = itemRows table item := by
    rw [List.filter_filter, itemRows]
    refine filter_congr fun row hrow => ?_
    rw [← Bool.decide_and, decide_eq_decide]
    constructor
    · rintro ⟨hids, htype, -⟩
      obtain ⟨hid, hcons⟩ := Prod.ext_iff.mp hids
      exact Item.eq_of_fields hid htype hcons
    · rintro rfl
      exact ⟨rfl, rfl, hdates row (mem_itemRows.mpr ⟨hrow, rfl⟩)⟩
  unfold previousAbs
  cases hfind : (getAbsConsumptions item.itemType date table).find?
      (·.1 = consumptionKey item.itemId item.itemConsumer) with
  | none =>
    -- a row of the item would have a group, found under the key
    suffices hnil : itemRows table item = [] by simp [hnil]
    by_contra hne
    obtain ⟨first, rest, hcons⟩ := exists_cons_of_ne_nil hne
    have hmem : ((item.itemId, item.itemConsumer), first :: rest) ∈ Grouping.group
        (fun row : ConsumptionRow => (row.item.itemId, row.item.itemConsumer))
        (table.rows.filter fun row => row.item.itemType = item.itemType ∧ row.date ≤ date) := by
      have hfirst : first ∈ itemRows table item := hcons ▸ (.head _)
      have hin := hgroup ▸ hfirst
      refine Grouping.mem_group.mpr ⟨(hgroup.trans hcons).symm, first, ?_, ?_⟩
      · exact (mem_filter.mp hin).1
      · simpa using (mem_filter.mp hin).2
    have hentry : (consumptionKey item.itemId item.itemConsumer, latest first rest)
        ∈ getAbsConsumptions item.itemType date table :=
      mem_filterMap.mpr ⟨_, hmem, rfl⟩
    simpa using find?_eq_none.mp hfind _ hentry
  | some entry =>
    obtain ⟨entryKey, row⟩ := entry
    have hkey : entryKey = consumptionKey item.itemId item.itemConsumer := by
      simpa using find?_some hfind
    obtain ⟨⟨⟨itemId, name⟩, rows⟩, hmem, hsome⟩ :=
      mem_filterMap.mp (mem_of_find?_eq_some hfind)
    obtain ⟨hrows, source, hsource, hids⟩ := Grouping.mem_group.mp hmem
    cases rows with
    | nil => cases hsome
    | cons first rest =>
      obtain ⟨hentry, rfl⟩ : consumptionKey itemId name = entryKey ∧ latest first rest = row := by
        simpa using hsome
      obtain ⟨consumer', hname⟩ := hknown source (mem_filter.mp hsource).1
      obtain ⟨rfl, rfl⟩ : source.item.itemId = itemId ∧ source.item.itemConsumer = name := by
        simpa using hids
      -- the key names the item, so the group found is that of its rows
      rw [hkey, hconsumer, hname] at hentry
      obtain ⟨hid, hcons⟩ := consumptionKey_injective hentry
      have hitem : first :: rest = itemRows table item := by
        rw [hrows, hid, hname, hcons, ← hconsumer]
        exact hgroup
      rw [← hitem] at hsorted ⊢
      rw [latest_of_sorted hsorted]
      rfl

/-! ## The items of a day, by their logs -/

variable {logs : List DayLog}

theorem isSome_added (hne : logs ≠ [])
    (h : ∀ log ∈ logs, (c.kind.processConsumption c.custom log key).isSome) :
    (c.added logs key).isSome := by
  obtain ⟨init, log, rfl⟩ := (eq_nil_or_concat' logs).resolve_left hne
  obtain ⟨value, hvalue⟩ := isSome_iff_exists.mp (h log (by simp))
  rw [Consolidation.added, foldl_concat, addDicts, hvalue]
  split <;> rfl

theorem isSome_consumption {added : Params} (h : (added key).isSome) (kind : Kind)
    (previous : Params) :
    ((kind.consumption previous added).1 key).isSome
      ∧ ((kind.consumption previous added).2 key).isSome := by
  obtain ⟨value, hvalue⟩ := isSome_iff_exists.mp h
  cases hprevious : previous key <;> cases kind <;>
    simp [Kind.consumption, Kind.incremental, addDicts, substractDicts, hvalue, hprevious]

theorem groupDayDataByItem_subset {dayData : List DayLog}
    (h : logs ∈ groupDayDataByItem consumer dayData) : ∀ log ∈ logs, log ∈ dayData := by
  intro log hlog
  obtain ⟨⟨key, _⟩, hmem, rfl⟩ := mem_map.mp h
  rw [(Grouping.mem_group.mp hmem).1] at hlog
  have hcomputed := (mem_filter.mp hlog).1
  cases consumer with
  | template => exact (mem_filter.mp hcomputed).1
  | _ => exact hcomputed

theorem mem_dayItems {base : BaseData} {added : Params} (h : (base, added) ∈ c.dayItems) :
    base.item.itemType = c.kind.name ∧ base.date = c.consolidationDay
      ∧ (∃ consumer : Consumer, base.item.itemConsumer = consumer.name)
      ∧ ∃ logs, logs ≠ [] ∧ (∀ log ∈ logs, log ∈ c.dayData) ∧ added = c.added logs := by
  obtain ⟨consumer, -, hitem⟩ := mem_flatMap.mp h
  obtain ⟨logs, hlogs, hgroup⟩ := mem_filterMap.mp hitem
  obtain ⟨first, hfirst, hbase⟩ := bind_eq_some_iff.mp hgroup
  obtain ⟨base', hbase', heq⟩ := map_eq_some_iff.mp hbase
  obtain ⟨rfl, rfl⟩ := Prod.ext_iff.mp heq
  obtain ⟨⟨itemId, itemName⟩, -, rfl⟩ := map_eq_some_iff.mp hbase'
  have hne : logs ≠ [] := by
    rintro rfl
    cases hfirst
  exact ⟨rfl, rfl, ⟨consumer, rfl⟩, logs, hne, groupDayDataByItem_subset hlogs, rfl⟩

theorem consolidate_eq (table : ConsumptionTable) (c : Consolidation) :
    consolidate table c = insertConsumptionBatch table (c.dayItems.map
      (getItemConsumptionForConsumer c.kind
        (getAbsConsumptions c.kind.name (c.consolidationDay - day) table))) := by
  unfold consolidate
  split_ifs with hempty
  · -- no data: no group, for any consumer
    have hnone (consumer : Consumer) : groupDayDataByItem consumer c.dayData = [] := by
      rw [hempty]
      cases consumer <;> rfl
    have hitems : c.dayItems = [] := by
      simp [Consolidation.dayItems, hnone]
    rw [hitems]
    rfl
  · rfl

theorem Known.insertConsumptionBatch (h : Known table)
    (hdata : ∀ row ∈ data, ∃ consumer : Consumer, row.item.itemConsumer = consumer.name) :
    Known (insertConsumptionBatch table data) := by
  induction data generalizing table with
  | nil => exact h
  | cons row data ih =>
    refine ih (fun other hother => ?_) fun other hother => hdata other (by simp [hother])
    have hrow := hdata row (by simp)
    unfold Table.insertUpdate at hother
    split at hother
    all_goals
      rcases Keyed.mem_upsert.mp hother with rfl | ⟨hold, -⟩
      · exact hrow
      · exact h other hold

/-! ## Day after day -/

/-- What the item consumed, where the day has it: the last group that is the item. -/
def Consolidation.dayConsumption (c : Consolidation) (item : Item) : Option Params :=
  (c.dayItems.filter (·.1.item = item)).getLast?.map Prod.snd

def consumed (runs : List Consolidation) (item : Item) (key : String) : List (Int × ℚ) :=
  runs.filterMap fun c =>
    ((c.dayConsumption item).bind (· key)).map (c.consolidationDay, ·)

def absAfter (incremental : Bool) (values : List ℚ) : Option ℚ :=
  if incremental then (if values = [] then none else some values.sum) else values.getLast?

/-- A snapshot's increments have the sign of what was given back, but for the first one. -/
def incTotal (incremental : Bool) (values : List ℚ) : ℚ :=
  if incremental then values.sum
  else
    match values.head?, values.getLast? with
    | some first, some last => 2 * first - last
    | _, _ => 0

structure Stored (kind : Kind) (key : String) (days : List (Int × ℚ)) (rows : List ConsumptionRow) :
    Prop where
  dates : rows.map (·.date) = days.map Prod.fst
  abs : rows.getLast?.bind (·.abs key) = absAfter kind.incremental (days.map Prod.snd)
  inc : (rows.map fun row => (row.inc key).getD 0).sum
    = incTotal kind.incremental (days.map Prod.snd)

theorem incTotal_concat (values : List ℚ) (value : ℚ) :
    incTotal false (values ++ [value])
      = incTotal false values
        + match values.getLast? with
          | some last => last - value
          | none => value := by
  cases values with
  | nil =>
    simp only [incTotal, nil_append, head?_cons, getLast?_singleton,
      head?_nil, getLast?_nil, Bool.false_eq_true, if_false]
    ring
  | cons first rest =>
    obtain ⟨last, hlast⟩ : ∃ last, (first :: rest).getLast? = some last :=
      ⟨_, getLast?_eq_some_getLast (cons_ne_nil _ _)⟩
    simp only [incTotal, cons_append, head?_cons, Bool.false_eq_true, if_false]
    rw [← cons_append, getLast?_concat, hlast]
    ring

/-- A day more adds one row, computed from the last. -/
theorem Stored.concat {days : List (Int × ℚ)} (h : Stored kind key days rows)
    {previous added : Params} {value : ℚ} (hadded : added key = some value)
    (hprevious : previous key = rows.getLast?.bind (·.abs key))
    (hinc : row.inc key = (kind.consumption previous added).1 key)
    (habs : row.abs key = (kind.consumption previous added).2 key) :
    Stored kind key (days ++ [(row.date, value)]) (rows ++ [row]) := by
  rw [h.abs] at hprevious
  refine ⟨by simp [h.dates], ?_, ?_⟩
  · rw [getLast?_concat, bind_some, habs]
    cases hkind : kind.incremental with
    | true =>
      simp only [Kind.consumption, hkind, if_true, addDicts, hadded, hprevious, absAfter,
        map_append, map_cons, map_nil, sum_append, sum_singleton]
      split_ifs with hempty <;> simp_all
    | false => simp [Kind.consumption, hkind, hadded, absAfter]
  · rw [map_append, sum_append, h.inc, map_singleton, sum_singleton, hinc]
    cases hkind : kind.incremental with
    | true => simp [Kind.consumption, hkind, hadded, incTotal]
    | false =>
      simp only [absAfter, hkind, Bool.false_eq_true, if_false] at hprevious
      rw [map_append, map_singleton, incTotal_concat]
      simp only [Kind.consumption, hkind, Bool.false_eq_true, if_false, substractDicts, hadded,
        hprevious]
      cases (days.map Prod.snd).getLast? <;> rfl

theorem Kind.name_injective {a b : Kind} (h : a.name = b.name) : a = b := by
  cases a <;> cases b <;> first | rfl | simp [Kind.name] at h

theorem kind_of_dayConsumption {added : Params} (htype : item.itemType = kind.name)
    (h : c.dayConsumption item = some added) : c.kind = kind := by
  obtain ⟨⟨base, _⟩, hlast, -⟩ := map_eq_some_iff.mp h
  obtain ⟨hmem, hitem⟩ := mem_filter.mp (mem_of_getLast? hlast)
  obtain rfl : base.item = item := by simpa using hitem
  exact Kind.name_injective ((mem_dayItems hmem).1.symm.trans htype)

section Runs

variable {kind : Kind} {item : Item} {consumer : Consumer} {key : String}

theorem consumed_concat (runs : List Consolidation) (c : Consolidation) :
    consumed (runs ++ [c]) item key
      = consumed runs item key
        ++ (((c.dayConsumption item).bind (· key)).map (c.consolidationDay, ·)).toList := by
  rw [consumed, filterMap_append]
  congr 1

variable {runs : List Consolidation} {c : Consolidation}

variable (htype : item.itemType = kind.name)

include htype

theorem mem_consumed {x : Int × ℚ} (h : x ∈ consumed runs item key) :
    ∃ c ∈ runs, c.kind = kind ∧ x.1 = c.consolidationDay := by
  obtain ⟨c, hc, hsome⟩ := mem_filterMap.mp h
  obtain ⟨_, hvalue, rfl⟩ := map_eq_some_iff.mp hsome
  obtain ⟨_, hadded, -⟩ := bind_eq_some_iff.mp hvalue
  exact ⟨c, hc, kind_of_dayConsumption htype hadded, rfl⟩

theorem sorted_consumed (hdaily : Daily runs) (key : String) :
    (consumed runs item key).Pairwise fun a b => a.1 < b.1 := by
  induction runs using reverseRecOn with
  | nil => exact List.Pairwise.nil
  | append_singleton runs c ih =>
    obtain ⟨hruns, -, hlater⟩ := pairwise_append.mp hdaily
    rw [consumed_concat]
    refine pairwise_append.mpr ⟨ih hruns, ?_, fun x hx y hy => ?_⟩
    · cases ((c.dayConsumption item).bind (· key)).map (c.consolidationDay, ·) <;> simp
    · obtain ⟨earlier, hearlier, hkind, hx⟩ := mem_consumed htype hx
      obtain ⟨_, hvalue, rfl⟩ := map_eq_some_iff.mp (mem_toList.mp hy)
      obtain ⟨_, hadded, -⟩ := bind_eq_some_iff.mp hvalue
      have hlt := hlater earlier hearlier c (by simp)
        (hkind.trans (kind_of_dayConsumption htype hadded).symm)
      rw [hx]
      exact mul_lt_mul_of_pos_right hlt (by decide)

omit htype in
theorem Stored.sorted (h : Stored kind key (consumed runs item key) rows)
    (htype : item.itemType = kind.name) (hdaily : Daily runs) :
    rows.Pairwise (·.date < ·.date) := by
  have hdays := sorted_consumed htype hdaily key
  rw [← pairwise_map (R := (· < ·)), ← h.dates, pairwise_map] at hdays
  exact hdays

theorem earlier_of_daily (hdaily : Daily (runs ++ [c])) (hkind : c.kind = kind)
    (hdates : rows.map (·.date) = (consumed runs item key).map Prod.fst) :
    ∀ row ∈ rows, row.date ≤ c.consolidationDay - day := by
  intro row hrow
  have hdate : row.date ∈ (consumed runs item key).map Prod.fst := hdates ▸ mem_map_of_mem hrow
  obtain ⟨x, hx, hfst⟩ := mem_map.mp hdate
  obtain ⟨earlier, hearlier, hsame, hday⟩ := mem_consumed htype hx
  have hlt : earlier.dayNumber < c.dayNumber :=
    (pairwise_append.mp hdaily).2.2 earlier hearlier c (by simp) (hsame.trans hkind.symm)
  rw [← hfst, hday]
  show earlier.dayNumber * day ≤ c.dayNumber * day - day
  unfold day
  omega

omit htype in
theorem itemRows_consolidate
    (hearlier : item.itemType = c.kind.name →
      ∀ row ∈ itemRows table item, row.date ≤ c.consolidationDay - day)
    (hpresent : item.itemType = c.kind.name →
      ∀ log ∈ c.dayData, (c.kind.processConsumption c.custom log key).isSome) :
    ∃ tail, itemRows (consolidate table c) item = itemRows table item ++ tail
      ∧ tail.map (Row.at key) = ((c.dayConsumption item).map fun added =>
        let consumption := c.kind.consumption (previousAbs
          (getAbsConsumptions c.kind.name (c.consolidationDay - day) table) item) added
        (c.consolidationDay, consumption.1 key, consumption.2 key)).toList := by
  rw [consolidate_eq]
  set previous := getAbsConsumptions c.kind.name (c.consolidationDay - day) table
  have hdate : ∀ row ∈ c.dayItems.map (getItemConsumptionForConsumer c.kind previous),
      row.date = c.consolidationDay := by
    intro row hrow
    obtain ⟨⟨base, added⟩, hmem, rfl⟩ := mem_map.mp hrow
    exact (mem_dayItems hmem).2.1
  have hdata : ∀ row ∈ c.dayItems.map (getItemConsumptionForConsumer c.kind previous),
      row.item = item → (∀ old ∈ itemRows table item, old.date ≠ c.consolidationDay)
        ∧ (row.inc key).isSome ∧ (row.abs key).isSome := by
    rintro row hrow rfl
    obtain ⟨⟨base, added⟩, hmem, rfl⟩ := mem_map.mp hrow
    obtain ⟨htype, -, -, logs, hne, hlogs, rfl⟩ := mem_dayItems hmem
    refine ⟨fun old hold hdate => ?_, isSome_consumption (isSome_added hne fun log hlog =>
      hpresent htype log (hlogs log hlog)) c.kind _⟩
    have hle := hearlier htype old hold
    unfold day at hle
    omega
  obtain ⟨tail, htable, htail⟩ := itemRows_insertConsumptionBatch hdate hdata
  refine ⟨tail, htable, htail.trans ?_⟩
  rw [List.filter_map, getLast?_map, Consolidation.dayConsumption]
  show (Option.map _ (Option.map _ (c.dayItems.filter (·.1.item = item)).getLast?)).toList = _
  cases hlast : (c.dayItems.filter (·.1.item = item)).getLast? with
  | none => rfl
  | some entry =>
    obtain ⟨base, added⟩ := entry
    obtain ⟨hmem, hbase⟩ := mem_filter.mp (mem_of_getLast? hlast)
    obtain rfl : base.item = item := by simpa using hbase
    simp only [map_some, toList_some, ← (mem_dayItems hmem).2.1]
    rfl

/-- A run keeps the rows in step with the days consumed. -/
theorem stored_consolidate (hconsumer : item.itemConsumer = consumer.name)
    (hdaily : Daily (runs ++ [c])) (hpresent : c.kind = kind → ∀ log ∈ c.dayData,
      (c.kind.processConsumption c.custom log key).isSome) (hknown : Known table)
    (hstored : Stored kind key (consumed runs item key) (itemRows table item)) :
    Stored kind key (consumed (runs ++ [c]) item key) (itemRows (consolidate table c) item) := by
  have hkind : item.itemType = c.kind.name → c.kind = kind := fun h =>
    Kind.name_injective (h.symm.trans htype)
  have hearlier : item.itemType = c.kind.name →
      ∀ row ∈ itemRows table item, row.date ≤ c.consolidationDay - day := fun h =>
    earlier_of_daily htype hdaily (hkind h) hstored.dates
  obtain ⟨tail, htable, htail⟩ := itemRows_consolidate hearlier fun h => hpresent (hkind h)
  rw [consumed_concat, htable]
  cases hday : c.dayConsumption item with
  | none =>
    obtain rfl : tail = [] := by simpa [hday] using htail
    simpa using hstored
  | some added =>
    obtain rfl := kind_of_dayConsumption htype hday
    have hsorted := hstored.sorted htype (hdaily.sublist (sublist_append_left ..))
    have hprevious := previousAbs_eq hknown hconsumer (hearlier htype) hsorted key
    simp only [hday, map_some, toList_some, ← htype] at htail
    obtain ⟨row, rfl, hat⟩ := map_eq_singleton_iff.mp htail
    obtain ⟨hdate, hvalues⟩ := Prod.ext_iff.mp hat
    have hsome : (added key).isSome := by
      obtain ⟨⟨base, _⟩, hlast, rfl⟩ := map_eq_some_iff.mp hday
      obtain ⟨-, -, -, logs, hne, hlogs, hadded⟩ :=
        mem_dayItems (mem_filter.mp (mem_of_getLast? hlast)).1
      rw [hadded]
      exact isSome_added hne fun log hlog => hpresent rfl log (hlogs log hlog)
    obtain ⟨value, hvalue⟩ := isSome_iff_exists.mp hsome
    have hrow := hstored.concat hvalue hprevious (congrArg Prod.fst hvalues)
      (congrArg Prod.snd hvalues)
    rw [show row.date = c.consolidationDay from hdate] at hrow
    simpa [hvalue] using hrow

omit htype in
theorem known_consolidated (runs : List Consolidation) : Known (consolidated runs) := by
  induction runs using reverseRecOn with
  | nil => exact fun row hrow => absurd hrow (by simp [consolidated, ConsumptionTable.empty])
  | append_singleton runs c ih =>
    rw [consolidated_concat, consolidate_eq]
    refine ih.insertConsumptionBatch fun row hrow => ?_
    obtain ⟨⟨base, added⟩, hmem, rfl⟩ := mem_map.mp hrow
    exact (mem_dayItems hmem).2.2.1

theorem stored_consolidated (hconsumer : item.itemConsumer = consumer.name) (hdaily : Daily runs)
    (hpresent : ∀ c ∈ runs, c.kind = kind → ∀ log ∈ c.dayData,
      (c.kind.processConsumption c.custom log key).isSome) :
    Stored kind key (consumed runs item key) (itemRows (consolidated runs) item) := by
  induction runs using reverseRecOn with
  | nil => cases kind <;> exact ⟨rfl, rfl, rfl⟩
  | append_singleton runs c ih =>
    rw [consolidated_concat]
    exact stored_consolidate htype hconsumer hdaily (hpresent c (by simp)) (known_consolidated runs)
      (ih (hdaily.sublist (sublist_append_left ..)) fun c hc => hpresent c (by simp [hc]))

end Runs

/-! ## The absolute value and the increments -/

def sumInc (table : ConsumptionTable) (item : Item) (key : String) : ℚ :=
  ((itemRows table item).map fun row => (row.inc key).getD 0).sum

theorem getLast?_of_latest (hsorted : rows.Pairwise (·.date < ·.date)) (hrow : row ∈ rows)
    (hlast : ∀ other ∈ rows, other.date ≤ row.date) : rows.getLast? = some row := by
  obtain ⟨init, last, rfl⟩ := (eq_nil_or_concat' rows).resolve_left (ne_nil_of_mem hrow)
  rw [getLast?_concat]
  rcases mem_append.mp hrow with hinit | hsingle
  · have hlt := (pairwise_append.mp hsorted).2.2 row hinit last (by simp)
    exact absurd (hlast last (by simp)) (not_le.mpr hlt)
  · rw [mem_singleton.mp hsingle]

theorem absAfter_eq_incTotal_iff {incremental : Bool} {values : List ℚ} (hne : values ≠ []) :
    absAfter incremental values = some (incTotal incremental values)
      ↔ incremental = true ∨ values.head? = values.getLast? := by
  cases incremental with
  | true => simp [absAfter, incTotal, hne]
  | false =>
    obtain ⟨first, rest, rfl⟩ := exists_cons_of_ne_nil hne
    have hlast := getLast?_eq_some_getLast hne
    simp only [absAfter, incTotal, hlast, head?_cons, Bool.false_eq_true, if_false, false_or,
      Option.some.injEq]
    constructor
    · intro h
      linarith
    · intro h
      linarith

/-- **Absolute and increments.** For every item and parameter, and every sequence of daily
consolidations with the parameter in every log: the absolute value of the last row is the sum of the
increments exactly for a kind that measures increments, or where the item consumed on its last day
what it consumed on its first. -/
theorem abs_eq_sum_inc_iff (runs : List Consolidation) (hdaily : Daily runs) (kind : Kind)
    (itemId : String) (consumer : Consumer) (key : String)
    (hpresent : ∀ c ∈ runs, c.kind = kind → ∀ log ∈ c.dayData,
      (c.kind.processConsumption c.custom log key).isSome)
    (row : ConsumptionRow) (hrow : row ∈ (consolidated runs).rows)
    (hitem : row.item = { itemId, itemType := kind.name, itemConsumer := consumer.name })
    (hlast : ∀ other ∈ (consolidated runs).rows, other.item = row.item → other.date ≤ row.date) :
    row.abs key = some (sumInc (consolidated runs) row.item key)
      ↔ kind.incremental = true
        ∨ ((consumed runs row.item key).map Prod.snd).head?
          = ((consumed runs row.item key).map Prod.snd).getLast? := by
  have htype : row.item.itemType = kind.name := congrArg Item.itemType hitem
  have hstored := stored_consolidated htype (congrArg Item.itemConsumer hitem) hdaily hpresent
  have hin : row ∈ itemRows (consolidated runs) row.item := mem_itemRows.mpr ⟨hrow, rfl⟩
  have hrowlast := getLast?_of_latest (hstored.sorted htype hdaily) hin fun other hother =>
    hlast other (mem_itemRows.mp hother).1 (mem_itemRows.mp hother).2
  have habs := hstored.abs
  rw [hrowlast, bind_some] at habs
  have hne : (consumed runs row.item key).map Prod.snd ≠ [] := by
    intro hnil
    have hdates := hstored.dates
    rw [map_eq_nil_iff.mp hnil, map_nil, map_eq_nil_iff] at hdates
    rw [hdates] at hin
    cases hin
  rw [habs, sumInc, hstored.inc]
  exact absAfter_eq_incTotal_iff hne

def storageDay (dayNumber : Int) (gib : ℚ) : Consolidation where
  kind := .storage
  dayNumber := dayNumber
  custom := []
  domains := fun _ => none
  dayData :=
    [{ ownerUserId := "ana"
       ownerUserName := "Ana"
       ownerGroupId := "eng"
       ownerGroupName := "Engineering"
       ownerCategoryId := "default"
       ownerCategoryName := "Default"
       desktopId := ""
       desktopName := ""
       deploymentId := none
       deploymentName := ""
       hypStarted := none
       desktopTemplateHierarchy := []
       startedTime := dayNumber * day
       stoppedTime := dayNumber * day
       hardwareVcpus := 0
       hardwareMemory := 0
       vgpusMemory := []
       size := gib * 1073741824 }]

def anaStorage : Item where
  itemId := "ana"
  itemType := "storage"
  itemConsumer := "user"

/-- A day with three GiB, and back to one. -/
theorem grownAndBack_sum :
    ∃ row ∈ (consolidated [storageDay 0 1, storageDay 1 3, storageDay 2 1]).rows,
      row.item = anaStorage ∧ row.date = 2 * day
        ∧ row.abs "str_size" = some (sumInc
          (consolidated [storageDay 0 1, storageDay 1 3, storageDay 2 1]) row.item "str_size") := by
  obtain ⟨row, hrow, hitem, hdate⟩ :
      ∃ row ∈ (consolidated [storageDay 0 1, storageDay 1 3, storageDay 2 1]).rows,
        row.item = anaStorage ∧ row.date = 2 * day := by decide +kernel
  have hlast : ∀ other ∈ (consolidated [storageDay 0 1, storageDay 1 3, storageDay 2 1]).rows,
      other.date ≤ 2 * day := by decide +kernel
  refine ⟨row, hrow, hitem, hdate, ?_⟩
  refine (abs_eq_sum_inc_iff _ (by simp [Daily, storageDay]) .storage "ana" .user "str_size"
    (fun c hc _ log _ => ?_) row hrow hitem fun other hother _ => hdate ▸ hlast other hother).mpr
    (.inr ?_)
  · rw [show c.kind = .storage by
      simp only [mem_cons, not_mem_nil, or_false] at hc
      rcases hc with rfl | rfl | rfl <;> rfl]
    exact isSome_processConsumption rfl _
  · rw [hitem]
    decide +kernel

/-- From one GiB to three: the increment of the second day is minus two. -/
theorem grown_not_sum :
    ∃ row ∈ (consolidated [storageDay 0 1, storageDay 1 3]).rows,
      row.item = anaStorage ∧ row.date = day
        ∧ (∀ other ∈ (consolidated [storageDay 0 1, storageDay 1 3]).rows, other.date ≤ row.date)
        ∧ row.inc "str_size" = some (-2) ∧ row.abs "str_size" = some 3
        ∧ sumInc (consolidated [storageDay 0 1, storageDay 1 3]) row.item "str_size" = -1 := by
  decide +kernel

end IsardVDI.Usage
