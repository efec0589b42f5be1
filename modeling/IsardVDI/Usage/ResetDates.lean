import IsardVDI.Usage.Consolidate

/-!
# Reset dates

The consumption of desktops and users is reported since the last reset date. The two readers of
`usage.py` take the first date they find in the list of `list_reset_dates`, which begins with the
oldest one.
-/

namespace IsardVDI.Usage

open List Option

/-- `subtract_dicts` on a dictionary of numbers. -/
def subtractDicts (dict1 dict2 : Params) : Params := fun key =>
  (dict1 key).map (· - (dict2 key).getD 0)

/-- The rows of an item with their `abs`, and the zeros that are read where there is none. -/
structure History where
  rows : List (Int × Params)
  zero : Params

namespace History

/-- The `abs` of `get_item_date_consumption`. -/
def abs (h : History) (date : Int) : Params :=
  ((h.rows.filter (·.1 ≤ date)).insertionSort (·.1 ≤ ·.1)).getLast?.elim h.zero (·.2)

def absSince (h : History) (date : Int) (reset : Option Int) : Params :=
  reset.elim (h.abs date) fun reset => subtractDicts (h.abs date) (h.abs reset)

end History

/-- `list_reset_dates` with both dates given: in descending order, reversed. -/
def listResetDates (table : List Int) (endDate : Int) : List Int :=
  ((table.filter (· ≤ endDate)).insertionSort (· ≥ ·)).reverse

def Kind.resetDates (kind : Kind) (table : List Int) (endDate : Int) : List Int :=
  if kind = .desktop ∨ kind = .user then listResetDates table endDate else []

def emitDate (tier : Tier) (date : Int) : Int :=
  match tier with
  | .weekly => monday date
  | .monthly => firstOfMonth date
  | .daily | .delete => date

def daysBetween (startDate endDate : Int) : List Int :=
  (List.range ((endDate - startDate) / day + 1).toNat).map fun offset : Nat =>
    startDate + offset * day

section Readers

variable (kind : Kind) (tier : Int → Tier) (table : List Int) (h : History)
  (startDate endDate : Int)

/-- `get_usage_consumption_between_dates`: the dates and values of one item. `tier` is what
`classify_tier` says of a day. -/
def consumptionBetweenDates : List (Int × Params) :=
  let resetDates := kind.resetDates table endDate
  let dates := (daysBetween startDate endDate).map fun date => emitDate (tier date) date
  dates.eraseDups.map fun date => (date, h.absSince date (resetDates.find? (· ≤ date)))

/-- `get_start_end_consumption`: the two values of one item. -/
def startEndConsumption : Params × Params :=
  let resetDates := kind.resetDates table endDate
  (h.absSince startDate (resetDates.find? (· ≤ startDate)),
    h.absSince endDate (resetDates.head?.filter (· < endDate)))

/-- The consumption since the latest reset date that is not after the date. -/
def History.absSinceReset (h : History) (date : Int) : Params :=
  h.absSince date (table.filter (· ≤ date)).max?

structure Restarts : Prop where
  daily : ∀ date ∈ daysBetween startDate endDate, tier date = .daily → ∀ abs,
    (date, abs) ∈ consumptionBetweenDates kind tier table h startDate endDate
      ↔ abs = h.absSinceReset table date
  ends : startEndConsumption kind table h startDate endDate
    = (h.absSinceReset table startDate, h.absSinceReset table endDate)

end Readers

variable {kind : Kind} {table : List Int} {startDate endDate date a : Int}

theorem History.abs_single (last date : Int) (abs zero : Params) :
    History.abs ⟨[(last, abs)], zero⟩ date = if last ≤ date then abs else zero := by
  unfold History.abs
  split_ifs with h <;> simp [h]

theorem mem_listResetDates : a ∈ listResetDates table endDate ↔ a ∈ table ∧ a ≤ endDate := by
  simp [listResetDates]

theorem head_listResetDates (ha : a ∈ table) (hle : a ≤ endDate) :
    ∃ first, (listResetDates table endDate).head? = some first
      ∧ ∀ b ∈ table, b ≤ endDate → first ≤ b := by
  have hsorted : (listResetDates table endDate).Pairwise (· ≤ ·) :=
    pairwise_reverse.mpr (pairwise_insertionSort (· ≥ ·) _)
  have hmem : ∀ b ∈ table, b ≤ endDate → b ∈ listResetDates table endDate :=
    fun b hb hle => mem_listResetDates.mpr ⟨hb, hle⟩
  cases hlist : listResetDates table endDate with
  | nil => cases hlist ▸ hmem a ha hle
  | cons first rest =>
    rw [hlist] at hmem hsorted
    refine ⟨first, rfl, fun b hb hle => ?_⟩
    rcases mem_cons.mp (hmem b hb hle) with rfl | hrest
    · exact le_rfl
    · exact (pairwise_cons.mp hsorted).1 b hrest

theorem le_of_mem_daysBetween (h : date ∈ daysBetween startDate endDate) : date ≤ endDate := by
  obtain ⟨offset, hoffset, rfl⟩ := mem_map.mp h
  have hlt : (offset : Int) ≤ (endDate - startDate) / day := by
    have := mem_range.mp hoffset
    omega
  have := (Int.le_ediv_iff_mul_le (by decide)).mp hlt
  omega

/-- At most one reset date is not after the end, and it is before it. -/
def OneReset (table : List Int) (endDate : Int) : Prop :=
  ∀ a ∈ table, a ≤ endDate → a < endDate ∧ ∀ b ∈ table, b ≤ endDate → b = a

/-- Whatever is picked among the dates not after `date` is the latest one. -/
theorem OneReset.pick_eq {pick : Option Int} (hone : OneReset table endDate)
    (hdate : date ≤ endDate) (hpick : ∀ a, pick = some a → a ∈ table ∧ a ≤ date)
    (hnone : pick = none → ∀ a ∈ table, ¬ a ≤ date) : pick = (table.filter (· ≤ date)).max? := by
  cases pick with
  | none =>
    refine (max?_eq_none_iff.mpr (filter_eq_nil_iff.mpr fun a ha => ?_)).symm
    simpa using hnone rfl a ha
  | some a =>
    obtain ⟨ha, hle⟩ := hpick a rfl
    refine (max?_eq_some_iff.mpr ⟨mem_filter.mpr ⟨ha, by simpa using hle⟩, ?_⟩).symm
    intro b hb
    obtain ⟨hb, hble⟩ := mem_filter.mp hb
    have hble : b ≤ date := by simpa using hble
    exact ((hone a ha (hle.trans hdate)).2 b hb (hble.trans hdate)).le

theorem OneReset.find_eq (hone : OneReset table endDate) (hdate : date ≤ endDate) :
    (listResetDates table endDate).find? (· ≤ date) = (table.filter (· ≤ date)).max? := by
  refine hone.pick_eq hdate (fun a ha => ?_) fun hnone a ha hle => ?_
  · have hle : a ≤ date := by simpa using find?_some ha
    exact ⟨(mem_listResetDates.mp (mem_of_find?_eq_some ha)).1, hle⟩
  · have hmem := mem_listResetDates.mpr ⟨ha, hle.trans hdate⟩
    simpa [hle] using find?_eq_none.mp hnone a hmem

theorem OneReset.head_eq (hone : OneReset table endDate) :
    (listResetDates table endDate).head?.filter (· < endDate)
      = (table.filter (· ≤ endDate)).max? := by
  refine hone.pick_eq le_rfl (fun a ha => ?_) fun hnone a ha hle => ?_
  · exact mem_listResetDates.mp (mem_of_head? (filter_eq_some_iff.mp ha).1)
  · obtain ⟨first, hfirst, hmin⟩ := head_listResetDates ha hle
    have hlt := (hmin a ha hle).trans_lt (hone a ha hle).1
    rw [hfirst, filter_some, if_pos (by simpa using hlt)] at hnone
    cases hnone

/-- **The reported consumption restarts at the latest reset date** exactly when at most one reset
date is not after the end of the range, and it is not that end itself. -/
theorem restarts_iff (hkind : kind = .desktop ∨ kind = .user) (hrange : startDate ≤ endDate)
    (tier : Int → Tier) :
    (∀ h, Restarts kind tier table h startDate endDate) ↔ OneReset table endDate := by
  have hresets : kind.resetDates table endDate = listResetDates table endDate := if_pos hkind
  constructor
  · intro hrestarts a ha hle
    obtain ⟨last, hlast⟩ : ∃ last, (table.filter (· ≤ endDate)).max? = some last :=
      ne_none_iff_exists'.mp fun hnone => by
        simpa [hle] using filter_eq_nil_iff.mp (max?_eq_none_iff.mp hnone) a ha
    obtain ⟨hmem, hmax⟩ := max?_eq_some_iff.mp hlast
    simp only [mem_filter, decide_eq_true_eq] at hmem hmax
    obtain ⟨first, hfirst, hmin⟩ := head_listResetDates ha hle
    -- an item that has consumed something on the latest date
    have hends := (hrestarts ⟨[(last, fun _ => some 1)], fun _ => some 0⟩).ends
    have hvalue := congrFun (congrArg Prod.snd hends) "hours"
    simp only [startEndConsumption, hresets, hfirst, filter_some, History.absSinceReset,
      hlast, History.absSince, History.abs_single, elim_some, if_pos hmem.2] at hvalue
    have hlt : first < endDate := by
      by_contra hlt
      simp [hlt, subtractDicts] at hvalue
    have heq : last ≤ first := by
      by_contra heq
      simp [hlt, heq, subtractDicts] at hvalue
    have hall : ∀ b ∈ table, b ≤ endDate → b = first := fun b hb hle =>
      le_antisymm ((hmax b ⟨hb, hle⟩).trans heq) (hmin b hb hle)
    rw [hall a ha hle]
    exact ⟨hlt, hall⟩
  · intro hone h
    refine ⟨fun date hdate hdaily abs => ?_, ?_⟩
    · have hmem : date ∈ ((daysBetween startDate endDate).map
          fun date => emitDate (tier date) date).eraseDups :=
        mem_eraseDups.mpr (mem_map.mpr ⟨date, hdate, by rw [hdaily]; rfl⟩)
      have hfind := hone.find_eq (le_of_mem_daysBetween hdate)
      rw [consumptionBetweenDates, hresets]
      constructor
      · intro hrow
        obtain ⟨date', -, heq⟩ := mem_map.mp hrow
        cases heq
        rw [hfind]
        rfl
      · rintro rfl
        refine mem_map.mpr ⟨date, hmem, ?_⟩
        rw [hfind]
        rfl
    · show (h.absSince _ _, h.absSince _ _) = _
      rw [hresets, hone.find_eq hrange, hone.head_eq]
      rfl

/-- A reset on the second day, with consumption on the first and on the third. -/
theorem restarts_at_reset :
    let h : History := ⟨[(0, fun _ => some 2), (2 * day, fun _ => some 5)], fun _ => some 0⟩
    Restarts .user (fun _ => .daily) [day] h 0 (2 * day)
      ∧ (startEndConsumption .user [day] h 0 (2 * day)).2 "hours" = some 3 := by
  refine ⟨(restarts_iff (.inr rfl) (by decide) _).mpr ?_ _, by decide +kernel⟩
  unfold OneReset
  decide

/-- Two reset dates: what was used up to the second one is still reported. -/
theorem second_reset_ignored : ¬ Restarts .desktop (fun _ => .daily) [0, day]
    ⟨[(day, fun _ => some 1)], fun _ => some 0⟩ 0 (2 * day) := by
  intro h
  have hend := congrFun (congrArg Prod.snd h.ends) "hours"
  revert hend
  decide +kernel

end IsardVDI.Usage
