import Mathlib

/-!
# The civil calendar

Days are counted from 1 January 1970. A year is taken to begin in March, so that the leap day is its
last one; a date is then found by going down the cycles of 400, 100 and 4 years and of one year, the
second and the last of which may have one day more at their end.

* `dayOfYear`, `dayOfMonth` — both from `0`.
* **`dayOfMonth_first`** — the day `dayOfMonth` leads back to is the first of a month.
* `weekday` — Monday is `0`.
-/

namespace IsardVDI.Calendar

/-- The place of `n` in its cycle, where cycles from `most` on are one. -/
def cycle (length most n : Int) : Int :=
  n - length * min (n / length) most

variable {length : Int}

theorem cycle_nonneg (most n : Int) (hpos : 0 < length) : 0 ≤ cycle length most n := by
  have hmin : length * min (n / length) most ≤ length * (n / length) :=
    mul_le_mul_of_nonneg_left (min_le_left _ _) hpos.le
  exact sub_nonneg.mpr (hmin.trans (Int.mul_ediv_self_le hpos.ne'))

variable {n most : Int}

theorem cycle_le (hpos : 0 < length) (hmost : 0 ≤ most) (hn : 0 ≤ n) : cycle length most n ≤ n := by
  have hdiv : 0 ≤ n / length := Int.ediv_nonneg hn hpos.le
  have hmin : 0 ≤ length * min (n / length) most :=
    mul_nonneg hpos.le (le_min hdiv hmost)
  exact sub_le_self n hmin

variable {k : Int}

theorem cycle_sub (hpos : 0 < length) (hk : 0 ≤ k) (hle : k ≤ cycle length most n) :
    cycle length most (n - k) = cycle length most n - k := by
  have hbound : length * min (n / length) most ≤ n - k := by
    unfold cycle at hle
    omega
  have hsame : min ((n - k) / length) most = min (n / length) most := by
    have hlow : min (n / length) most ≤ (n - k) / length := by
      rw [Int.le_ediv_iff_mul_le hpos, mul_comm]
      exact hbound
    have hup : (n - k) / length ≤ n / length := Int.ediv_le_ediv hpos (by omega)
    omega
  unfold cycle
  rw [hsame]
  ring

theorem emod_sub (hk : 0 ≤ k) (hle : k ≤ n % length) (hpos : 0 < length) :
    (n - k) % length = n % length - k := by
  have hlt := Int.emod_lt_of_pos n hpos
  rw [← Int.emod_sub_emod, Int.emod_eq_of_lt (by omega) (by omega)]

/-- Days since the last 1 March. -/
def dayOfYear (day : Int) : Int :=
  -- 0000-03-01 is 719468 days before 1970-01-01
  cycle 365 3 (cycle 36524 3 ((day + 719468) % 146097) % 1461)

/-- Days since the first of the month. The months from March on have 31, 30, 31, 30, 31 days, five
at a time: the first of month `m` is day `(153 * m + 2) / 5` of the year. -/
def dayOfMonth (day : Int) : Int :=
  dayOfYear day - (153 * ((5 * dayOfYear day + 2) / 153) + 2) / 5

/-- 1 January 1970 was a Thursday. -/
def weekday (day : Int) : Int :=
  (day + 3) % 7

variable (day : Int)

theorem dayOfYear_nonneg : 0 ≤ dayOfYear day :=
  cycle_nonneg _ _ (by decide)

theorem dayOfYear_sub {day : Int} (hk : 0 ≤ k) (hle : k ≤ dayOfYear day) :
    dayOfYear (day - k) = dayOfYear day - k := by
  -- each cycle in turn, the widest first: `k` days back are within all of them
  have h1461 : k ≤ cycle 36524 3 ((day + 719468) % 146097) % 1461 :=
    hle.trans (cycle_le (by decide) (by decide) (Int.emod_nonneg _ (by decide)))
  have h36524 : k ≤ cycle 36524 3 ((day + 719468) % 146097) := by
    have := cycle_nonneg 3 ((day + 719468) % 146097) (show (0 : Int) < 36524 by decide)
    omega
  have h146097 : k ≤ (day + 719468) % 146097 :=
    h36524.trans (cycle_le (by decide) (by decide) (Int.emod_nonneg _ (by decide)))
  have hday : day - k + 719468 = day + 719468 - k := by ring
  unfold dayOfYear
  rw [hday, emod_sub hk h146097 (by decide), cycle_sub (by decide) hk h36524,
    emod_sub hk h1461 (by decide), cycle_sub (by decide) hk hle]

theorem dayOfMonth_nonneg : 0 ≤ dayOfMonth day := by
  unfold dayOfMonth
  omega

theorem dayOfMonth_le : dayOfMonth day ≤ dayOfYear day := by
  have := dayOfYear_nonneg day
  unfold dayOfMonth
  omega

theorem dayOfMonth_first : dayOfMonth (day - dayOfMonth day) = 0 := by
  have hsub := dayOfYear_sub (dayOfMonth_nonneg day) (dayOfMonth_le day)
  have hfirst : dayOfYear (day - dayOfMonth day)
      = (153 * ((5 * dayOfYear day + 2) / 153) + 2) / 5 := by
    rw [hsub]
    unfold dayOfMonth
    ring
  -- the first day of month `m` is in month `m`
  have hmonth (m : Int) : (5 * ((153 * m + 2) / 5) + 2) / 153 = m := by omega
  rw [dayOfMonth, hfirst, hmonth, sub_self]

end IsardVDI.Calendar
