import IsardVDI.Usage.Rollup

/-!
# One backfill

`run_backfill` passes over every row older than the safety margin, in whatever order the cursor
returns them.
-/

namespace IsardVDI.Usage

open List

variable {K V A : Type}

def safetyCutoff (now : Int) : Int :=
  now - 7 * day

/-- What `between(minval, cutoff, index="date")` returns. -/
def backfillScan (now : Int) (cursor : Cursor (Row K V A)) (table : Table K V A) :
    List (Row K V A) :=
  cursor.fetch (table.rows.filter (·.date < safetyCutoff now))

def runBackfill [AddCommGroup V] (retention : UsageRetentionConfig) (now : Int)
    (cursor : Cursor (Row K V A)) (table : Table K V A) : Except BucketError (Table K V A) :=
  (collect retention now [] (backfillScan now cursor table)).map fun groups =>
    processGroups retention now groups table

variable {retention : UsageRetentionConfig} {now date month week : Int}
  {cursor : Cursor (Row K V A)} {table : Table K V A} {row : Row K V A} {scan : List (Row K V A)}

theorem mem_backfillScan :
    row ∈ backfillScan now cursor table ↔ row ∈ table.rows ∧ row.date < safetyCutoff now := by
  rw [backfillScan, (cursor.perm _).mem_iff, mem_filter, decide_eq_true_eq]

theorem pending_backfill (h : Undeleted retention now (backfillScan now cursor table)) :
    Pending retention now table (groupsOf retention now (backfillScan now cursor table)) := by
  refine pending_groupsOf (cursor.perm _) h fun row hrow _ other hother hpk => ?_
  have hdate := (mem_backfillScan.mp hrow).2
  exact mem_backfillScan.mpr ⟨hother, (date_le_of_pk hpk).trans_lt hdate⟩

/-! ## The torn week

A row whose date is the bucket of other rows but not its own bucket is a Monday that is monthly, and
the other rows are weekly. A later Monday is not monthly then. -/

theorem torn_week (hweek : Bucketed retention now week) (hmonth : Bucketed retention now month)
    (hat : bucketOf retention now week = month)
    (hown : bucketOf retention now month ≠ month) :
    classifyTier retention now week = .weekly ∧ classifyTier retention now month = .monthly
      ∧ monday week = month := by
  obtain ⟨hweek, hweek'⟩ := hweek
  obtain ⟨hmonth, hmonth'⟩ := hmonth
  unfold bucketOf at hat hown
  cases htier : classifyTier retention now week with
  | daily => exact absurd htier hweek
  | delete => exact absurd htier hweek'
  | weekly =>
    rw [htier] at hat
    cases htier' : classifyTier retention now month with
    | daily => exact absurd htier' hmonth
    | delete => exact absurd htier' hmonth'
    | weekly =>
      -- the Monday of a weekly row is its own bucket
      rw [htier'] at hown
      exact absurd (hat ▸ monday_monday week) hown
    | monthly => exact ⟨rfl, rfl, hat⟩
  | monthly =>
    rw [htier] at hat
    have hle : month ≤ week := hat ▸ firstOfMonth_le week
    cases htier' : classifyTier retention now month with
    | daily => exact absurd htier' hmonth
    | delete => exact absurd htier' hmonth'
    | weekly => exact absurd (lt_of_weekly_of_monthly htier' htier) (not_lt.mpr hle)
    | monthly =>
      rw [htier'] at hown
      exact absurd (hat ▸ firstOfMonth_firstOfMonth week) hown

theorem torn_unique {week' month' : Int} (hweek : classifyTier retention now week = .weekly)
    (hmonday : monday week = month) (hmonth' : classifyTier retention now month' = .monthly)
    (hmonday' : monday week' = month') : month' ≤ month := by
  by_contra hlt
  have hnext : month + 7 * day ≤ month' :=
    monday_add_le (hmonday ▸ monday_monday week) (hmonday' ▸ monday_monday week') (not_le.mp hlt)
  have hbefore : week < month' := (hmonday ▸ lt_monday_add week).trans_le hnext
  exact absurd (lt_of_weekly_of_monthly hweek hmonth') (not_lt.mpr hbefore.le)

theorem not_delete_of_no_total (htotal : retention.totalMonths = none) (date : Int) :
    classifyTier retention now date ≠ .delete := by
  rw [Ne, classifyTier_eq_delete, pastTotal, htotal]
  simp

theorem overwritten_unique (hdelete : Undeleted retention now scan)
    {g g' later later' : Group K V A} (hg : g ∈ groupsOf retention now scan)
    (hg' : g' ∈ groupsOf retention now scan) (hitem : g.1.1 = g'.1.1)
    (hlater : later ∈ groupsOf retention now scan) (hne : later.1 ≠ g.1)
    (hin : g.1 ∈ later.2.map Row.pk) (hlater' : later' ∈ groupsOf retention now scan)
    (hne' : later'.1 ≠ g'.1) (hin' : g'.1 ∈ later'.2.map Row.pk) : g.1 = g'.1 := by
  have htier {g : Group K V A} (hg : g ∈ groupsOf retention now scan) {row : Row K V A}
      (hrow : row ∈ g.2) : Bucketed retention now row.date := by
    obtain ⟨hscan, hdaily⟩ := mem_sourcesOf_groupsOf.mp (mem_flatMap.mpr ⟨g, hg, hrow⟩)
    exact ⟨hdaily, hdelete row hscan⟩
  -- a row of the group and the row of the later group that is at its key
  have htorn {g later : Group K V A} (hg : g ∈ groupsOf retention now scan)
      (hlater : later ∈ groupsOf retention now scan) (hne : later.1 ≠ g.1)
      (hin : g.1 ∈ later.2.map Row.pk) : ∃ week, classifyTier retention now week = .weekly
        ∧ classifyTier retention now g.1.2 = .monthly ∧ monday week = g.1.2 := by
    obtain ⟨week, hweek⟩ := exists_mem_of_ne_nil _ (mem_groupsOf hg).1
    obtain ⟨month, hmonth, hpk⟩ := mem_map.mp hin
    have hat := congrArg Prod.snd (rowKey_of_mem_groupsOf hg hweek)
    have hdate : month.date = g.1.2 := congrArg Prod.snd hpk
    have hown : bucketOf retention now month.date ≠ month.date := fun heq => by
      refine hne ((rowKey_of_mem_groupsOf hlater hmonth).symm.trans ?_)
      rw [rowKey, heq]
      exact hpk
    rw [← hdate]
    exact ⟨week.date, torn_week (htier hg hweek) (htier hlater hmonth) (hat.trans hdate.symm) hown⟩
  obtain ⟨week, hweek, hmonth, hmonday⟩ := htorn hg hlater hne hin
  obtain ⟨week', hweek', hmonth', hmonday'⟩ := htorn hg' hlater' hne' hin'
  exact Prod.ext hitem (le_antisymm (torn_unique hweek' hmonday' hmonth hmonday)
    (torn_unique hweek hmonday hmonth' hmonday'))

theorem untouched_of_daily (hdelete : Undeleted retention now (backfillScan now cursor table))
    (hdaily : classifyTier retention now row.date = .daily) :
    row.pk ∉ (groupsOf retention now (backfillScan now cursor table)).map Prod.fst
      ∧ row.pk ∉ pksOf (groupsOf retention now (backfillScan now cursor table)) := by
  constructor
  · intro hkey
    obtain ⟨source, hsource, hpk⟩ := Grouping.mem_keys_group.mp hkey
    obtain ⟨hscan, hrolled⟩ := mem_filter.mp hsource
    refine not_daily_of_le (of_decide_eq_true hrolled) (hdelete source hscan) ?_ hdaily
    rw [← show bucketOf retention now source.date = row.date from congrArg Prod.snd hpk]
    exact bucketOf_le ..
  · intro hin
    obtain ⟨source, hsource, hpk⟩ := mem_map.mp hin
    have hdate : source.date = row.date := congrArg Prod.snd hpk
    exact (mem_sourcesOf_groupsOf.mp hsource).2 (hdate ▸ hdaily)

variable [AddCommGroup V]

theorem runBackfill_eq (h : Undeleted retention now (backfillScan now cursor table)) :
    runBackfill retention now cursor table
      = .ok (processGroups retention now
          (groupsOf retention now (backfillScan now cursor table)) table) := by
  unfold runBackfill
  rw [collect_eq h]
  rfl

/-! ## Conservation -/

/-- The rows of `rows` that have their bucket at the date of a row with another bucket sum up to
nothing, or do not come before the group of that row. -/
def Untorn (retention : UsageRetentionConfig) (now : Int) (rows : List (Row K V A)) (item : Item)
    (parameter : K) : Prop :=
  ∀ row ∈ rows, row.item = item → rowKey retention now row ≠ row.pk →
    (∃ before after, rows = before ++ after
      ∧ (∃ week ∈ before, rowKey retention now week = row.pk)
      ∧ ∀ month ∈ before, rowKey retention now month ≠ rowKey retention now row) →
    aggregateInc (rows.filter (rowKey retention now · = row.pk)) parameter = 0

theorem lost_groupsOf (hdelete : Undeleted retention now scan)
    (item : Item) (parameter : K) :
    lost item parameter (groupsOf retention now scan) = 0
      ↔ Untorn retention now (scan.filter (rolled retention now)) item parameter := by
  have hkeys : ((groupsOf retention now scan).map Prod.fst).Nodup := Grouping.nodup_group _
  rw [lost_eq_zero_iff item parameter hkeys
    (fun g hg source hsource => congrArg Prod.fst (rowKey_of_mem_groupsOf hg hsource))
    (fun g hg g' hg' hown hown' ⟨later, hlater, hne, hin⟩ ⟨later', hlater', hne', hin'⟩ =>
      overwritten_unique hdelete hg hg' (hown.trans hown'.symm) hlater hne hin hlater' hne' hin')]
  constructor
  · rintro h row hrow rfl - hbefore
    have hmonth : (rowKey retention now row, _) ∈ groupsOf retention now scan :=
      Grouping.mem_group.mpr ⟨rfl, row, hrow, rfl⟩
    obtain ⟨before, after, heq, ⟨week, hin, hat⟩, -⟩ := id hbefore
    have hweek : (row.pk, _) ∈ groupsOf retention now scan :=
      Grouping.mem_group.mpr ⟨rfl, week, heq ▸ mem_append_left _ hin, hat⟩
    refine h _ hweek rfl _ hmonth (Grouping.precedes_iff.mpr ⟨⟨row, hrow, rfl⟩, hbefore⟩) ?_
    exact mem_map.mpr ⟨row, mem_filter.mpr ⟨hrow, by simp⟩, rfl⟩
  · intro h g hg hown later hlater hsub hin
    obtain ⟨month, hmonth, hpk⟩ := mem_map.mp hin
    have hkey := rowKey_of_mem_groupsOf hlater hmonth
    have hne : g.1 ≠ later.1 := by
      have := hkeys.sublist hsub
      simpa using this
    obtain ⟨-, hbefore⟩ := Grouping.precedes_iff.mp hsub
    have hrow : month ∈ scan.filter (rolled retention now) := by
      rw [(mem_groupsOf hlater).2] at hmonth
      exact (mem_filter.mp hmonth).1
    rw [(mem_groupsOf hg).2, ← hpk]
    rw [← hpk, ← hkey] at hbefore
    exact h month hrow ((congrArg Prod.fst hpk).trans hown) (hkey ▸ hpk ▸ hne.symm) hbefore

/-- **Conservation.** For every table, every retention without `total_months` and every order of the
cursor, the backfill returns, and the sum of `inc` of an item and a parameter is as before unless
the torn week of the item has something to lose. -/
theorem backfill_conserves_iff (retention : UsageRetentionConfig)
    (htotal : retention.totalMonths = none) (now : Int) (cursor : Cursor (Row K V A))
    (table : Table K V A) (item : Item) (parameter : K) :
    (∃ table', runBackfill retention now cursor table = .ok table'
        ∧ table'.total item parameter = table.total item parameter)
      ↔ Untorn retention now ((backfillScan now cursor table).filter (rolled retention now)) item
        parameter := by
  have hdelete : Undeleted retention now (backfillScan now cursor table) := fun row _ =>
    not_delete_of_no_total htotal row.date
  have hsum := total_processGroups item parameter (pending_backfill hdelete) fun source hsource =>
    (mem_backfillScan.mp (mem_sourcesOf_groupsOf.mp hsource).1).1
  rw [← lost_groupsOf hdelete, runBackfill_eq hdelete]
  constructor
  · rintro ⟨_, ⟨⟩, htotal⟩
    exact left_eq_add.mp (hsum.trans htotal.symm).symm
  · intro hlost
    exact ⟨_, rfl, by rw [← hsum, hlost, add_zero]⟩

def desktopUse : Item where
  itemId := "d"
  itemType := "desktop"
  itemConsumer := "user"

def Cursor.stored (α : Type) : Cursor α where
  fetch := id
  perm := fun _ => .refl _

def midweek : Table Unit Int Unit where
  rows := [.consolidated desktopUse (12 * day) 7, .consolidated desktopUse (13 * day) 5]
  nodup := by decide

theorem midweek_conserved :
    ∃ table', runBackfill .defaults (150 * day) (.stored _) midweek = .ok table'
      ∧ table'.total desktopUse () = 12 := by
  refine (backfill_conserves_iff .defaults rfl (150 * day) (.stored _) midweek desktopUse ()).mpr ?_
  rintro row hrow - - ⟨before, after, heq, ⟨week, hweek, hat⟩, -⟩
  have hnone : ∀ row ∈ midweek.rows, ∀ week ∈ midweek.rows,
      rowKey .defaults (150 * day) week ≠ row.pk := by decide
  have hscan : ((backfillScan (150 * day) (.stored _) midweek).filter
      (rolled .defaults (150 * day))) = midweek.rows := rfl
  rw [hscan] at hrow heq
  exact absurd hat (hnone row hrow week (heq ▸ mem_append_left _ hweek))

/-- Monday and Tuesday of one week, stored in the other order: 181 days after the Monday it is
monthly and the Tuesday weekly. -/
def tornTable : Table Unit Int Unit where
  rows := [.consolidated desktopUse (12 * day) 7, .consolidated desktopUse (11 * day) 5]
  nodup := by decide

/-- The bucket of the week is put at the Monday's key, and then deleted with the rows of the
month. -/
theorem tornTable_lost :
    (runBackfill .defaults (192 * day) (.stored _) tornTable).map (·.total desktopUse ()) = .ok 5
      ∧ tornTable.total desktopUse () = 12 :=
  ⟨rfl, rfl⟩

/-! ## Retention

A row of the delete tier ends the scan before anything is written: `_bucket_key` asks for its
bucket, and there is none. Without such a row the oldest row left is a bucket. -/

theorem runBackfill_delete
    (h : ∃ row ∈ backfillScan now cursor table, classifyTier retention now row.date = .delete) :
    runBackfill retention now cursor table = .error (.noBoundary .delete) := by
  unfold runBackfill
  rw [collect_delete h]
  rfl

variable {months : Nat}

theorem delete_iff (htotal : retention.totalMonths = some months) :
    classifyTier retention now date = .delete ↔ ¬ ageDays now date ≤ months * 30 := by
  rw [classifyTier_eq_delete, pastTotal, htotal]
  simp

theorem ageDays_le_of_cutoff (htotal : retention.totalMonths = some months)
    (h : safetyCutoff now ≤ date) : ageDays now date ≤ months * 30 := by
  have hmonths := (retention.total_bounds months htotal).1
  have hage : ageDays now date ≤ 7 := by
    refine (ageDays_le_of_le now h).trans (le_of_eq ?_)
    rw [ageDays, safetyCutoff, sub_sub_cancel]
    exact mul_day_ediv 7
  omega

/-- **Retention.** With `total_months` set, the backfill returns, leaves no row past the limit and
keeps the daily tier as it is, exactly when every row it scans is within the limit and, where it is
rolled up, its bucket as well. -/
theorem backfill_retains_iff (retention : UsageRetentionConfig) (months : Nat)
    (htotal : retention.totalMonths = some months) (now : Int) (cursor : Cursor (Row K V A))
    (table : Table K V A) :
    (∃ table', runBackfill retention now cursor table = .ok table'
        ∧ (∀ row ∈ table'.rows, ageDays now row.date ≤ months * 30)
        ∧ ∀ row, classifyTier retention now row.date = .daily →
          (row ∈ table'.rows ↔ row ∈ table.rows))
      ↔ ∀ row ∈ table.rows, row.date < safetyCutoff now →
        ageDays now row.date ≤ months * 30
        ∧ (classifyTier retention now row.date ≠ .daily →
          ageDays now (bucketOf retention now row.date) ≤ months * 30) := by
  constructor
  · rintro ⟨table', hrun, hage, -⟩ row hrow hdate
    have hdelete : Undeleted retention now (backfillScan now cursor table) := by
      intro row hrow htier
      rw [runBackfill_delete ⟨row, hrow, htier⟩] at hrun
      cases hrun
    have hwithin : ∀ row ∈ backfillScan now cursor table, ageDays now row.date ≤ months * 30 :=
      fun row hrow => not_not.mp fun h => hdelete row hrow ((delete_iff htotal).mpr h)
    have hscan : row ∈ backfillScan now cursor table := mem_backfillScan.mpr ⟨hrow, hdate⟩
    refine ⟨hwithin row hscan, fun hdaily => ?_⟩
    rw [runBackfill_eq hdelete] at hrun
    cases hrun
    have hkey : rowKey retention now row
        ∈ (groupsOf retention now (backfillScan now cursor table)).map Prod.fst :=
      Grouping.mem_keys_group.mpr ⟨row, mem_filter.mpr ⟨hscan, decide_eq_true hdaily⟩, rfl⟩
    -- the bucket is at the date of a scanned row, or it is there in the end
    by_cases hin : rowKey retention now row
        ∈ pksOf (groupsOf retention now (backfillScan now cursor table))
    · obtain ⟨source, hsource, hpk⟩ := mem_map.mp hin
      rw [← show source.date = bucketOf retention now row.date from congrArg Prod.snd hpk]
      exact hwithin source (mem_sourcesOf_groupsOf.mp hsource).1
    · obtain ⟨bucket, hbucket, hpk⟩ := (pending_backfill hdelete).exists_bucket hkey hin
      rw [← show bucket.date = bucketOf retention now row.date from congrArg Prod.snd hpk]
      exact hage bucket hbucket
  · intro h
    have hdelete : Undeleted retention now (backfillScan now cursor table) := by
      intro row hrow htier
      obtain ⟨hrow, hdate⟩ := mem_backfillScan.mp hrow
      exact (delete_iff htotal).mp htier (h row hrow hdate).1
    have hpending := pending_backfill hdelete
    refine ⟨_, runBackfill_eq hdelete, fun row hrow => ?_, fun row hdaily => ?_⟩
    · rcases hpending.mem_or_key hrow with hrow | hkey
      · rcases lt_or_ge row.date (safetyCutoff now) with hdate | hdate
        · exact (h row hrow hdate).1
        · exact ageDays_le_of_cutoff htotal hdate
      · obtain ⟨source, hsource, hpk⟩ := Grouping.mem_keys_group.mp hkey
        obtain ⟨hscan, hrolled⟩ := mem_filter.mp hsource
        obtain ⟨hin, hdate⟩ := mem_backfillScan.mp hscan
        rw [← show bucketOf retention now source.date = row.date from congrArg Prod.snd hpk]
        exact (h source hin hdate).2 (of_decide_eq_true hrolled)
    · obtain ⟨hkey, hsource⟩ := untouched_of_daily hdelete hdaily
      exact ⟨fun hrow => (hpending.mem_or_key hrow).resolve_right hkey,
        fun hrow => hpending.mem_of_untouched hrow hkey hsource⟩

def yearly : UsageRetentionConfig :=
  { UsageRetentionConfig.defaults with
    totalMonths := some 12
    total_bounds := by simp }

theorem midweek_retained :
    ∃ table', runBackfill yearly (150 * day) (.stored _) midweek = .ok table'
      ∧ (∀ row ∈ table'.rows, ageDays (150 * day) row.date ≤ 12 * 30)
      ∧ ∀ row, classifyTier yearly (150 * day) row.date = .daily →
        (row ∈ table'.rows ↔ row ∈ midweek.rows) :=
  (backfill_retains_iff yearly 12 rfl (150 * day) (.stored _) midweek).mpr (by decide)

/-- Past the year the rows are not deleted: the backfill raises. -/
theorem midweek_raises :
    runBackfill yearly (400 * day) (.stored _) midweek = .error (.noBoundary .delete) :=
  rfl

end IsardVDI.Usage
