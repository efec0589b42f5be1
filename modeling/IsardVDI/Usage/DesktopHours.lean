import IsardVDI.Usage.Consolidate

/-!
# The hours of a desktop session

`DesktopUsageProcessed.fetch_logs` and `DesktopsUsage`: a run after midnight reads the sessions of
the day before from `logs_desktops`, cut to the day's window, and counts the hours of each. A
session's row has no `stopped_time` until it stops. The server's clock is UTC.

* `fetchLogs`, `notYetStopped` — the query; an error in the filter's predicate drops the row.
-/

namespace IsardVDI.Usage

open List

/-! ## The query -/

/-- A row of `logs_desktops`. -/
structure LogRow where
  id : String
  startedTime : Int
  stoppedTime : Option Int
  /-- the fields passed on as they are -/
  entry : DayLog

/-- The value of a ReQL predicate; `none` is a non-existence error. -/
abbrev Predicate := Option Bool

/-- `|` evaluates its operands from the left, and stops at an error. -/
def Predicate.or (a b : Predicate) : Predicate :=
  a.bind fun value => if value then some true else b

variable (row : LogRow)

def LogRow.stoppedAfter (time : Int) : Predicate :=
  row.stoppedTime.map fun stopped => decide (stopped > time)

def LogRow.notYetStopped : Predicate :=
  some row.stoppedTime.isNone

/-- `.filter(...)` with the default for errors: the row is skipped. -/
def LogRow.selected (consolidationDay : Int) : Bool :=
  (row.stoppedAfter consolidationDay).or row.notYetStopped = some true

/-- The two merges: a start before the window and a stop after it are moved to its edges. -/
def LogRow.clamped (consolidationDay consolidationDayAfter stopped : Int) : DayLog :=
  { row.entry with
    startedTime := if row.startedTime < consolidationDay then consolidationDay else row.startedTime
    stoppedTime := if stopped > consolidationDayAfter then consolidationDayAfter else stopped }

/-- The logs in the window, each under its id. The second merge reads `stopped_time`, which every
row that passes the filter has. -/
def fetchLogs (consolidationDay consolidationDayAfter : Int) (rows : List LogRow) :
    List (String × DayLog) :=
  (rows.filter fun row =>
      row.startedTime < consolidationDayAfter ∧ row.selected consolidationDay).filterMap fun row =>
    row.stoppedTime.map fun stopped =>
      (row.id, row.clamped consolidationDay consolidationDayAfter stopped)

variable {consolidationDay : Int} {row : LogRow}

theorem selected_iff :
    row.selected consolidationDay ↔ ∃ stopped ∈ row.stoppedTime, consolidationDay < stopped := by
  obtain ⟨id, startedTime, stoppedTime, entry⟩ := row
  cases stoppedTime with
  | none => simp [LogRow.selected, LogRow.stoppedAfter, Predicate.or]
  | some stopped =>
    by_cases h : stopped > consolidationDay
    · simp [LogRow.selected, LogRow.stoppedAfter, Predicate.or, h]
    · simp [LogRow.selected, LogRow.stoppedAfter, LogRow.notYetStopped, Predicate.or, h]

/-! ## Sessions and runs -/

def getRelativeDate (now days : Int) : Int :=
  (now / day + days) * day

structure Session where
  id : String
  start : Int
  stop : Int
  entry : DayLog
  ordered : start ≤ stop

variable (session : Session)

/-- What `logs_desktops` holds of the session. -/
def Session.rowAt (now : Int) : Option LogRow :=
  if session.start ≤ now then
    some { id := session.id
           startedTime := session.start
           stoppedTime := if session.stop ≤ now then some session.stop else none
           entry := session.entry }
  else none

/-- One run after every midnight: that of day `d` is on the day after. -/
structure Nightly where
  runAt : Int → Int
  nextDay : ∀ d, runAt d / day = d + 1

/-- What the run at a time fetches: `consolidate_consumptions` has `days_before = 1` only. -/
def fetchedAt (sessions : List Session) (now : Int) : List (String × DayLog) :=
  fetchLogs (getRelativeDate now (-1)) (getRelativeDate now 0) (sessions.filterMap (·.rowAt now))

def dskHours (log : DayLog) : ℚ :=
  ((Kind.desktop.calculateConsumption log).lookup "dsk_hours").getD 0

def hoursCounted (sessions : List Session) (nightly : Nightly) (id : String) (d : Int) : ℚ :=
  (((fetchedAt sessions (nightly.runAt d)).filter (·.1 = id)).map fun log => dskHours log.2).sum

def hours (duration : Int) : ℚ :=
  duration / 3600000000

theorem dskHours_eq (log : DayLog) : dskHours log = hours (log.stoppedTime - log.startedTime) := by
  show minutes log.startedTime log.stoppedTime / 60 = _
  unfold minutes hours
  ring

/-! ## One run -/

/-- The instant of the session next to a given one. -/
def Session.clamp (time : Int) : Int :=
  min session.stop (max session.start time)

def Session.onDay (d : Int) : Int :=
  session.clamp ((d + 1) * day) - session.clamp (d * day)

theorem Session.onDay_nonneg (d : Int) : 0 ≤ session.onDay d := by
  unfold onDay clamp day
  omega

theorem fetchLogs_singleton (consolidationDay consolidationDayAfter : Int) (row : LogRow) :
    fetchLogs consolidationDay consolidationDayAfter [row]
      = match row.stoppedTime with
        | some stopped =>
          if row.startedTime < consolidationDayAfter ∧ consolidationDay < stopped then
            [(row.id, row.clamped consolidationDay consolidationDayAfter stopped)]
          else []
        | none => [] := by
  have hselected : row.selected consolidationDay
      ↔ ∃ stopped ∈ row.stoppedTime, consolidationDay < stopped := selected_iff
  unfold fetchLogs
  cases hstopped : row.stoppedTime with
  | none =>
    have hnot : row.selected consolidationDay = false := by
      rw [← Bool.not_eq_true, hselected, hstopped]
      simp
    simp [hnot]
  | some stopped =>
    rw [hstopped] at hselected
    by_cases h : row.startedTime < consolidationDayAfter ∧ consolidationDay < stopped
    · have hyes : row.selected consolidationDay = true := hselected.mpr ⟨stopped, rfl, h.2⟩
      simp [h, hyes, hstopped]
    · have hno : ¬(row.startedTime < consolidationDayAfter ∧ row.selected consolidationDay) := by
        rintro ⟨hstart, hsel⟩
        obtain ⟨_, hsome, hlt⟩ := hselected.mp hsel
        cases hsome
        exact h ⟨hstart, hlt⟩
      simp [hno, h]

theorem fetchLogs_append (consolidationDay consolidationDayAfter : Int) (rows rows' : List LogRow) :
    fetchLogs consolidationDay consolidationDayAfter (rows ++ rows')
      = fetchLogs consolidationDay consolidationDayAfter rows
        ++ fetchLogs consolidationDay consolidationDayAfter rows' := by
  simp [fetchLogs]

theorem fetchLogs_id {consolidationDayAfter : Int} {rows : List LogRow} {log : String × DayLog}
    (h : log ∈ fetchLogs consolidationDay consolidationDayAfter rows) :
    ∃ row ∈ rows, row.id = log.1 := by
  obtain ⟨row, hrow, hsome⟩ := mem_filterMap.mp h
  obtain ⟨stopped, -, rfl⟩ := Option.map_eq_some_iff.mp hsome
  exact ⟨row, (mem_filter.mp hrow).1, rfl⟩

variable {session : Session} {sessions : List Session}

theorem Session.rowAt_id {now : Int} (h : session.rowAt now = some row) : row.id = session.id := by
  unfold Session.rowAt at h
  split_ifs at h with hstart
  · exact (Option.some.inj h) ▸ rfl
  all_goals exact (Option.some.inj h) ▸ rfl

theorem filter_fetchedAt (hids : (sessions.map (·.id)).Nodup) (hmem : session ∈ sessions)
    (now : Int) : (fetchedAt sessions now).filter (·.1 = session.id) = fetchedAt [session] now := by
  -- the rows before and after the session's give logs of other ids
  obtain ⟨before, after, rfl⟩ := append_of_mem hmem
  have hothers : ∀ other ∈ before ++ after, other.id ≠ session.id := by
    intro other hother hsame
    rw [map_append, map_cons, nodup_middle, nodup_cons] at hids
    exact hids.1 (map_append ▸ mem_map.mpr ⟨other, hother, hsame⟩)
  have hnone (others : List Session) (hsub : ∀ other ∈ others, other ∈ before ++ after) :
      (fetchLogs (getRelativeDate now (-1)) (getRelativeDate now 0)
        (others.filterMap (·.rowAt now))).filter (·.1 = session.id) = [] := by
    rw [filter_eq_nil_iff]
    intro log hlog
    obtain ⟨row, hrow, hid⟩ := fetchLogs_id hlog
    obtain ⟨other, hother, hat⟩ := mem_filterMap.mp hrow
    simpa [← hid, Session.rowAt_id hat] using hothers other (hsub other hother)
  have hself : (fetchedAt [session] now).filter (·.1 = session.id) = fetchedAt [session] now := by
    rw [filter_eq_self]
    intro log hlog
    obtain ⟨row, hrow, hid⟩ := fetchLogs_id hlog
    obtain ⟨other, hother, hat⟩ := mem_filterMap.mp hrow
    rw [mem_singleton.mp hother] at hat
    simpa using hid.symm.trans (Session.rowAt_id hat)
  rw [fetchedAt, show before ++ session :: after = before ++ ([session] ++ after) from rfl,
    filterMap_append, filterMap_append, fetchLogs_append, fetchLogs_append,
    filter_append, filter_append, hnone before (fun other h => by simp [h]),
    hnone after (fun other h => by simp [h]), nil_append, append_nil]
  exact hself

/-- **One run.** It counts the part of the session on its day, once the session has stopped. -/
theorem hoursCounted_eq (hids : (sessions.map (·.id)).Nodup) (hmem : session ∈ sessions)
    (nightly : Nightly) (d : Int) :
    hoursCounted sessions nightly session.id d
      = hours (if session.stop ≤ nightly.runAt d then session.onDay d else 0) := by
  have hnext := nightly.nextDay d
  have hdays : getRelativeDate (nightly.runAt d) (-1) = d * day
      ∧ getRelativeDate (nightly.runAt d) 0 = (d + 1) * day := by
    simp [getRelativeDate, hnext]
  have horder := session.ordered
  rw [hoursCounted, filter_fetchedAt hids hmem, fetchedAt, hdays.1, hdays.2]
  by_cases hstart : session.start ≤ nightly.runAt d
  · have hrow : [session].filterMap (·.rowAt (nightly.runAt d))
        = [{ id := session.id
             startedTime := session.start
             stoppedTime := if session.stop ≤ nightly.runAt d then some session.stop else none
             entry := session.entry }] := by
      simp [Session.rowAt, hstart]
    rw [hrow, fetchLogs_singleton]
    split_ifs with hstop
    · simp only
      split_ifs with hin
      · rw [map_singleton, sum_singleton, dskHours_eq]
        congr 1
        show (if session.stop > (d + 1) * day then (d + 1) * day else session.stop)
          - (if session.start < d * day then d * day else session.start) = session.onDay d
        unfold Session.onDay Session.clamp
        split_ifs <;> omega
      · -- the session is not on this day
        have hzero : session.onDay d = 0 := by
          unfold Session.onDay Session.clamp day at *
          omega
        rw [hzero]
        simp [hours]
    · -- it is still running: the filter drops its row
      simp [hours]
  · have hrow : [session].filterMap (·.rowAt (nightly.runAt d)) = [] := by
      simp [Session.rowAt, hstart]
    rw [hrow, if_neg (by omega)]
    simp [fetchLogs, hours]

/-! ## All the days -/

theorem sum_onDay {first : Int} {n : Nat} (hfirst : first * day ≤ session.start)
    (hlast : session.stop ≤ (first + n) * day) :
    ∑ k ∈ Finset.range n, session.onDay (first + k) = session.stop - session.start := by
  have horder := session.ordered
  have htelescope := Finset.sum_range_sub (fun k : Nat => session.clamp ((first + k) * day)) n
  have hterm : ∀ k ∈ Finset.range n, session.onDay (first + k)
      = session.clamp ((first + (k + 1 : Nat)) * day) - session.clamp ((first + k) * day) := by
    intro k _
    rw [Session.onDay]
    push_cast
    rw [add_assoc]
  rw [Finset.sum_congr rfl hterm, htelescope]
  have hend : session.clamp ((first + n) * day) = session.stop := by
    unfold Session.clamp
    omega
  have hbegin : session.clamp ((first + (0 : Nat)) * day) = session.start := by
    unfold Session.clamp
    simp only [Nat.cast_zero, add_zero]
    omega
  rw [hend, hbegin]

theorem sum_hours (f : Nat → Int) (n : Nat) :
    ∑ k ∈ Finset.range n, hours (f k) = hours (∑ k ∈ Finset.range n, f k) := by
  unfold hours
  rw [← Finset.sum_div, Int.cast_sum]

theorem hours_injective {a b : Int} : hours a = hours b ↔ a = b := by
  unfold hours
  rw [div_left_inj' (by norm_num), Int.cast_inj]

theorem Nightly.runAt_mono (nightly : Nightly) {d d' : Int} (h : d ≤ d') :
    d = d' ∨ nightly.runAt d < nightly.runAt d' := by
  rcases h.eq_or_lt with rfl | hlt
  · exact .inl rfl
  · right
    have hd := nightly.nextDay d
    have hd' := nightly.nextDay d'
    unfold day at hd hd'
    omega

/-- **Hours.** For every table of sessions, every session of it and every sequence of runs, one
after each midnight: the hours counted on all the days it spans are its hours exactly where it has
stopped by the run of the day it started on. -/
theorem hours_add_up_iff (sessions : List Session) (hids : (sessions.map (·.id)).Nodup)
    (session : Session) (hmem : session ∈ sessions) (nightly : Nightly) (first : Int) (n : Nat)
    (hfirst : first * day ≤ session.start) (hlast : session.stop < (first + n) * day) :
    ∑ k ∈ Finset.range n, hoursCounted sessions nightly session.id (first + k)
        = hours (session.stop - session.start)
      ↔ session.stop ≤ nightly.runAt (session.start / day) := by
  have hcounted : ∀ k ∈ Finset.range n, hoursCounted sessions nightly session.id (first + k)
      = hours (if session.stop ≤ nightly.runAt (first + k) then session.onDay (first + k) else 0) :=
    fun k _ => hoursCounted_eq hids hmem nightly (first + k)
  -- both sides are sums over the days, of the parts counted and of all the parts
  rw [Finset.sum_congr rfl hcounted, sum_hours, hours_injective, ← sum_onDay hfirst hlast.le]
  set startDay := session.start / day with hstartDay
  have hstart : startDay * day ≤ session.start ∧ session.start < (startDay + 1) * day := by
    unfold day at *
    omega
  constructor
  · -- a day that is not counted is missing from the sum
    intro hsum
    by_contra hlate
    have hafter : (startDay + 1) * day ≤ nightly.runAt startDay := by
      rw [← nightly.nextDay startDay]
      exact Int.ediv_mul_le _ (by decide)
    obtain ⟨k, hk⟩ : ∃ k : Nat, startDay = first + k :=
      ⟨(startDay - first).toNat, by unfold day at *; omega⟩
    have hin : k ∈ Finset.range n := by
      rw [Finset.mem_range]
      unfold day at *
      omega
    refine absurd hsum (ne_of_lt (Finset.sum_lt_sum (fun j _ => ?_) ⟨k, hin, ?_⟩))
    · split_ifs
      · exact le_rfl
      · exact session.onDay_nonneg _
    · rw [← hk, if_neg hlate]
      unfold Session.onDay Session.clamp
      omega
  · intro hstopped
    refine Finset.sum_congr rfl fun k _ => ?_
    split_ifs with hstop
    · rfl
    · -- the runs it is not stopped at are those of the days before it started
      have hbefore : first + k < startDay := by
        by_contra hge
        rcases nightly.runAt_mono (not_lt.mp hge) with hsame | hlt
        · exact hstop (hsame ▸ hstopped)
        · exact hstop (by omega)
      have hle : (first + k + 1) * day ≤ session.start := by
        unfold day at *
        omega
      unfold Session.onDay Session.clamp
      have hdays : (first + k) * day ≤ (first + k + 1) * day := by
        unfold day
        omega
      omega

def evening (stop : Int) (ordered : 82800000000 ≤ stop) : Session where
  id := "log"
  start := 82800000000
  stop := stop
  ordered := ordered
  entry :=
    { ownerUserId := "ana"
      ownerUserName := "Ana"
      ownerGroupId := "eng"
      ownerGroupName := "Engineering"
      ownerCategoryId := "default"
      ownerCategoryName := "Default"
      desktopId := "d1"
      desktopName := "Desktop"
      deploymentId := none
      deploymentName := ""
      hypStarted := some "hyp1"
      desktopTemplateHierarchy := ["t1"]
      startedTime := 0
      stoppedTime := 0
      hardwareVcpus := 2
      hardwareMemory := 4194304
      vgpusMemory := []
      size := 0 }

def halfPastMidnight : Nightly where
  runAt d := (d + 1) * day + 1800000000
  nextDay d := by
    unfold day
    omega

/-- Stopped at 00:15: an hour and a quarter, on two days. -/
theorem evening_adds_up :
    ∑ k ∈ Finset.range 2, hoursCounted [evening 87300000000 (by decide)] halfPastMidnight "log"
      ((0 : Int) + (k : Nat)) = hours 4500000000 :=
  (hours_add_up_iff [evening 87300000000 (by decide)] (by simp)
    (evening 87300000000 (by decide)) (by simp) halfPastMidnight 0 2 (by decide) (by decide)).mpr
    (by decide)

/-- Stopped at 02:00: three hours, of which the run of the first day has counted none. -/
theorem evening_not_counted :
    (evening 93600000000 (by decide)).stop - (evening 93600000000 (by decide)).start
        = 3 * 3600000000
      ∧ hoursCounted [evening 93600000000 (by decide)] halfPastMidnight "log" 0 = 0
      ∧ hoursCounted [evening 93600000000 (by decide)] halfPastMidnight "log" 1 = 2
      ∧ ∀ k : Nat, hoursCounted [evening 93600000000 (by decide)] halfPastMidnight "log" (k + 2)
          = 0 := by
  have hone (d : Int) :
      hoursCounted [evening 93600000000 (by decide)] halfPastMidnight "log" d
        = hours (if (evening 93600000000 (by decide)).stop ≤ halfPastMidnight.runAt d then
            (evening 93600000000 (by decide)).onDay d else 0) :=
    hoursCounted_eq (by simp) (mem_singleton_self _) halfPastMidnight d
  refine ⟨by decide, (hone 0).trans ?_, (hone 1).trans ?_, fun k => (hone _).trans ?_⟩
  · rw [if_neg (by decide)]
    simp [hours]
  · rw [if_pos (by decide)]
    norm_num [hours, Session.onDay, Session.clamp, evening, day]
  · have hzero : (evening 93600000000 (by decide)).onDay (k + 2) = 0 := by
      unfold Session.onDay Session.clamp evening day
      simp only
      omega
    rw [hzero, ite_self]
    simp [hours]

end IsardVDI.Usage
