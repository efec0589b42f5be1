import IsardVDI.Lib.Machine
import IsardVDI.Usage.Backfill

/-!
# Runs of the incremental rollup

`run_incremental` passes over the rows of a window of two weeks around each tier boundary, one
window after the other.
-/

namespace IsardVDI.Usage

open List

inductive Boundary
  | dailyWeekly
  | weeklyMonthly
  | monthlyDelete
  deriving DecidableEq, Repr

def boundaries (retention : UsageRetentionConfig) : List (Boundary × Nat) :=
  [(.dailyWeekly, retention.dailyMonths * 30), (.weeklyMonthly, retention.weeklyMonths * 30)]
    ++ match retention.totalMonths with
      | none => []
      | some months => [(.monthlyDelete, months * 30)]

def windowStart (now : Int) (days : Nat) : Int :=
  now - (days + 7) * day

def windowEnd (now : Int) (days : Nat) : Int :=
  min (now - (days - 7) * day) (safetyCutoff now)

variable {K V A : Type}

/-- `between(start, end, index="date")` leaves the end out. -/
def Row.inWindow (now : Int) (days : Nat) (row : Row K V A) : Prop :=
  windowStart now days ≤ row.date ∧ row.date < windowEnd now days

instance (now : Int) (days : Nat) (row : Row K V A) : Decidable (row.inWindow now days) :=
  inferInstanceAs (Decidable (_ ∧ _))

def windowScan (now : Int) (days : Nat) (cursor : Cursor (Row K V A)) (table : Table K V A) :
    List (Row K V A) :=
  cursor.fetch (table.rows.filter (·.inWindow now days))

variable (retention : UsageRetentionConfig)

section

variable [AddCommGroup V]

def runWindow (now : Int) (cursor : Cursor (Row K V A))
    (days : Nat) (table : Table K V A) : Except BucketError (Table K V A) :=
  if windowStart now days ≥ windowEnd now days then .ok table
  else
    (collect retention now [] (windowScan now days cursor table)).map fun groups =>
      processGroups retention now groups table

/-- The windows in turn. An error ends the call and leaves what the windows before it wrote. -/
def runWindows (retention : UsageRetentionConfig) (now : Int)
    (cursors : Boundary → Cursor (Row K V A)) :
    List (Boundary × Nat) → Table K V A → Table K V A × Except BucketError Unit
  | [], table => (table, .ok ())
  | (label, days) :: rest, table =>
    match runWindow retention now (cursors label) days table with
    | .ok table => runWindows retention now cursors rest table
    | .error e => (table, .error e)

def runIncremental (now : Int) (cursors : Boundary → Cursor (Row K V A)) (table : Table K V A) :
    Table K V A × Except BucketError Unit :=
  runWindows retention now cursors (boundaries retention) table

/-! ## Calls one after the other -/

structure State (K V A : Type) where
  clock : Int
  table : Table K V A

structure Call (K V A : Type) where
  now : Int
  cursors : Boundary → Cursor (Row K V A)

def machine : Machine (State K V A) (Call K V A) where
  next s call :=
    if s.clock ≤ call.now then
      some { clock := call.now
             table := (runIncremental retention call.now call.cursors s.table).1 }
    else none

end

/-! ## One window -/

/-- What is at the key of a bucket of the window's rows is in the window, and in that bucket. -/
def WholeIn (now : Int) (days : Nat) (table : Table K V A) : Prop :=
  ∀ row ∈ table.rows, row.inWindow now days → classifyTier retention now row.date ≠ .daily →
    ∀ other ∈ table.rows, other.pk = rowKey retention now row →
      other.inWindow now days ∧ rowKey retention now other = rowKey retention now row

instance (now : Int) (days : Nat) (table : Table K V A) :
    Decidable (WholeIn retention now days table) :=
  inferInstanceAs (Decidable (∀ _ ∈ _, _))

variable {retention : UsageRetentionConfig} {now : Int} {cursor : Cursor (Row K V A)} {days : Nat}
  {table : Table K V A} {row : Row K V A}

theorem mem_windowScan :
    row ∈ windowScan now days cursor table ↔ row ∈ table.rows ∧ row.inWindow now days := by
  rw [windowScan, (cursor.perm _).mem_iff, mem_filter, decide_eq_true_eq]

theorem pending_window (htotal : retention.totalMonths = none)
    (h : WholeIn retention now days table) (cursor : Cursor (Row K V A)) :
    Pending retention now table (groupsOf retention now (windowScan now days cursor table)) := by
  refine pending_groupsOf (cursor.perm _) (fun row _ => not_delete_of_no_total htotal row.date) ?_
  intro row hrow hdaily other hother hpk
  obtain ⟨hin, hwindow⟩ := mem_windowScan.mp hrow
  exact mem_windowScan.mpr ⟨hother, (h row hin hwindow hdaily other hother hpk).1⟩

/-! The buckets the first window writes are after the second window: a week before the first one at
the earliest, and the boundaries are a month apart. -/

section

variable (hmonths : retention.dailyMonths < retention.weeklyMonths)
  (htotal : retention.totalMonths = none) (hwindow : row.inWindow now (retention.dailyMonths * 30))
  (hdaily : classifyTier retention now row.date ≠ .daily)

include hmonths htotal hwindow hdaily

theorem weekly_of_inWindow : classifyTier retention now row.date = .weekly := by
  have hpast : pastTotal retention now row.date = false := by
    rw [pastTotal, htotal]
    rfl
  have hold : retention.dailyMonths * 30 < ageDays now row.date := by
    rw [Ne, classifyTier_eq_daily, not_and, not_le] at hdaily
    exact hdaily hpast
  have hage : ageDays now row.date ≤ retention.dailyMonths * 30 + 7 := by
    refine (ageDays_le_of_le now hwindow.1).trans (le_of_eq ?_)
    rw [ageDays, windowStart, sub_sub_cancel, mul_day_ediv]
    push_cast
    rfl
  exact classifyTier_eq_weekly.mpr ⟨hpast, hold, by omega⟩

theorem windowEnd_le_bucket :
    windowEnd now (retention.weeklyMonths * 30) ≤ bucketOf retention now row.date := by
  have hmonday : bucketOf retention now row.date = monday row.date := by
    rw [bucketOf, weekly_of_inWindow hmonths htotal hwindow hdaily]
  have hstart := hwindow.1
  have hweek := lt_monday_add row.date
  have hend : windowEnd now (retention.weeklyMonths * 30)
      ≤ now - ((retention.weeklyMonths * 30 : Nat) - 7) * day := min_le_left _ _
  unfold windowStart at hstart
  unfold day at *
  omega

end

variable [AddCommGroup V]

/-- **One window.** Where its buckets are whole the sums stay; what is new is at the bucket of a row
of the window. -/
theorem runWindow_whole (htotal : retention.totalMonths = none)
    (h : WholeIn retention now days table) (cursor : Cursor (Row K V A)) :
    ∃ table', runWindow retention now cursor days table = .ok table'
      ∧ (∀ item parameter, table'.total item parameter = table.total item parameter)
      ∧ ∀ row ∈ table'.rows, row ∈ table.rows ∨ ∃ source ∈ table.rows, source.inWindow now days
        ∧ classifyTier retention now source.date ≠ .daily
        ∧ row.date = bucketOf retention now source.date := by
  unfold runWindow
  split_ifs
  · exact ⟨table, rfl, fun _ _ => rfl, fun row hrow => .inl hrow⟩
  · have hpending := pending_window htotal h cursor
    rw [collect_eq fun row _ => not_delete_of_no_total htotal row.date]
    refine ⟨_, rfl, fun item parameter => ?_, fun row hrow => ?_⟩
    · have hlost : lost item parameter
          (groupsOf retention now (windowScan now days cursor table)) = 0 := by
        refine lost_eq_zero item parameter hpending.keys fun g hg later hlater hin => ?_
        -- the row at the bucket's key is in the bucket: the later group is this one
        obtain ⟨other, hother, hpk⟩ := mem_map.mp hin
        obtain ⟨source, hsource⟩ := exists_mem_of_ne_nil _ (mem_groupsOf hg).1
        have hkey := rowKey_of_mem_groupsOf hg hsource
        obtain ⟨hscan, hdaily⟩ :=
          mem_sourcesOf_groupsOf.mp (mem_flatMap.mpr ⟨g, hg, hsource⟩)
        obtain ⟨hscan', -⟩ :=
          mem_sourcesOf_groupsOf.mp (mem_flatMap.mpr ⟨later, hlater, hother⟩)
        obtain ⟨hrow, hwindow⟩ := mem_windowScan.mp hscan
        have hsame := (h source hrow hwindow hdaily other (mem_windowScan.mp hscan').1
          (hpk.trans hkey.symm)).2
        rw [← rowKey_of_mem_groupsOf hlater hother, hsame, hkey]
      have hsum := total_processGroups item parameter hpending fun source hsource =>
        (mem_windowScan.mp (mem_sourcesOf_groupsOf.mp hsource).1).1
      rw [hlost, add_zero] at hsum
      exact hsum
    · refine (hpending.mem_or_key hrow).imp_right fun hkey => ?_
      obtain ⟨source, hsource, hpk⟩ := Grouping.mem_keys_group.mp hkey
      obtain ⟨hscan, hrolled⟩ := mem_filter.mp hsource
      obtain ⟨hin, hwindow⟩ := mem_windowScan.mp hscan
      exact ⟨source, hin, hwindow, of_decide_eq_true hrolled, (congrArg Prod.snd hpk).symm⟩

/-! ## One call -/

theorem runIncremental_whole (hmonths : retention.dailyMonths < retention.weeklyMonths)
    (htotal : retention.totalMonths = none)
    (hfirst : WholeIn retention now (retention.dailyMonths * 30) table)
    (hsecond : WholeIn retention now (retention.weeklyMonths * 30) table)
    (cursors : Boundary → Cursor (Row K V A)) :
    (runIncremental retention now cursors table).2 = .ok ()
      ∧ ∀ item parameter, (runIncremental retention now cursors table).1.total item parameter
        = table.total item parameter := by
  obtain ⟨table₁, hrun₁, hsum₁, hmem₁⟩ :=
    runWindow_whole htotal hfirst (cursors .dailyWeekly)
  -- the second window has the rows it had before the first one was written
  have hsame : ∀ row ∈ table₁.rows, row.date < windowEnd now (retention.weeklyMonths * 30) →
      row ∈ table.rows := by
    intro row hrow hdate
    refine (hmem₁ row hrow).resolve_right ?_
    rintro ⟨source, -, hwindow, hdaily, hbucket⟩
    exact absurd hdate (not_lt.mpr (hbucket ▸ windowEnd_le_bucket hmonths htotal hwindow hdaily))
  have hsecond₁ : WholeIn retention now (retention.weeklyMonths * 30) table₁ := by
    intro row hrow hwindow hdaily other hother hpk
    exact hsecond row (hsame row hrow hwindow.2) hwindow hdaily other
      (hsame other hother ((date_le_of_pk hpk).trans_lt hwindow.2)) hpk
  obtain ⟨table₂, hrun₂, hsum₂, -⟩ :=
    runWindow_whole htotal hsecond₁ (cursors .weeklyMonthly)
  have hcall : runIncremental retention now cursors table = (table₂, .ok ()) := by
    simp only [runIncremental, boundaries, htotal, append_nil, runWindows, hrun₁, hrun₂]
  rw [hcall]
  exact ⟨rfl, fun item parameter => (hsum₂ item parameter).trans (hsum₁ item parameter)⟩

/-! ## A run -/

/-- What each call of a run is asked for, of the table it finds. -/
def Whole (retention : UsageRetentionConfig) (s : State K V A) (call : Call K V A) : Prop :=
  WholeIn retention call.now (retention.dailyMonths * 30) s.table
    ∧ WholeIn retention call.now (retention.weeklyMonths * 30) s.table

instance (retention : UsageRetentionConfig) (s : State K V A) (call : Call K V A) :
    Decidable (Whole retention s call) :=
  inferInstanceAs (Decidable (_ ∧ _))

/-- **Conservation.** For every table, every retention whose tiers are in order and that deletes
nothing, and every run of calls that each find whole buckets, the sum of `inc` of every item and
parameter is in every state what it was. -/
theorem run_conserves (retention : UsageRetentionConfig)
    (hmonths : retention.dailyMonths < retention.weeklyMonths)
    (htotal : retention.totalMonths = none) (s s' : State K V A) (calls : List (Call K V A))
    (hrun : (machine retention).run s calls = some s')
    (hwhole : (machine retention).Meets (Whole retention) s calls) (item : Item) (parameter : K) :
    s'.table.total item parameter = s.table.total item parameter := by
  refine Machine.run_invariant _ (Whole retention)
    (fun state => state.table.total item parameter = s.table.total item parameter) ?_ rfl hwhole
    hrun
  intro state call next hinv hcall hnext
  simp only [machine, Option.ite_none_right_eq_some, Option.some.injEq] at hnext
  obtain ⟨-, rfl⟩ := hnext
  exact ((runIncremental_whole hmonths htotal hcall.1 hcall.2 call.cursors).2 item parameter).trans
    hinv

/-- A call at a time of the day, `day / 2` being noon, whose cursors return rows as stored. -/
def Call.at (now : Int) : Call Unit Int Unit where
  now := now
  cursors := fun _ => .stored _

/-- The days of `midweek` come to be weekly on one day. -/
theorem midweek_rolled :
    ∃ s', (machine .defaults).run { clock := 0, table := midweek } [.at (104 * day + day / 2)]
        = some s'
      ∧ s'.table.total desktopUse () = 12 := by
  have hrun : (machine .defaults).run { clock := 0, table := midweek } [.at (104 * day + day / 2)]
      = some _ := rfl
  exact ⟨_, hrun, run_conserves .defaults (by decide) rfl _ _ _ hrun (by decide) desktopUse ()⟩

def weekEnds : Table Unit Int Unit where
  rows := [.consolidated desktopUse (4 * day) 5, .consolidated desktopUse (10 * day) 7]
  nodup := by decide

/-- Called every day at noon, the rollup makes the Monday the week's bucket; six days later the
Sunday comes to be weekly, 97 days and a half after the Monday, whose row is out of the window. -/
theorem bucketOutside_overwritten :
    ((machine .defaults).run { clock := 0, table := weekEnds }
        [.at (95 * day + day / 2), .at (101 * day + day / 2)]).map
        (·.table.total desktopUse ()) = some 7
      ∧ weekEnds.total desktopUse () = 12 :=
  ⟨rfl, rfl⟩

end IsardVDI.Usage
