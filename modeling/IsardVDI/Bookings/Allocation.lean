import IsardVDI.Bookings.PlannerCompute
import Mathlib

/-!
# Bookings — what the count and the distribution are worth

The count of the bookings that may not be displaced looks at every booking that touches the window,
with its whole interval. The distribution then takes the plans in order, as much as each has.
-/

namespace IsardVDI.Bookings

open List

variable {T : Type} [LinearOrder T] {bookings : List (Booking T)} {plans : List (Plan T)}
  {planId subitemId : String} {priority units : Int} {start end_ : T}

/-! ## The count -/

def selectedEntries (bookings : List (Booking T)) (planId subitemId : String) (priority : Int)
    (start end_ : T) : List (Segment T) :=
  currentPlans planId (bookings.filter (isNonOverridable planId subitemId priority start end_))

theorem of_mem_selectedEntries {s : Segment T}
    (hs : s ∈ selectedEntries bookings planId subitemId priority start end_) :
    ∃ b ∈ bookings, ∃ e ∈ b.plans, s.start ≤ end_ ∧ start ≤ s.end_
      ∧ s.units.unitsBooked = if e.unitsBooked = 0 then b.units else e.unitsBooked := by
  obtain ⟨b, hb, hs⟩ := mem_flatMap.mp hs
  obtain ⟨hb, hselected⟩ := mem_filter.mp hb
  obtain ⟨e, he, rfl⟩ := mem_map.mp hs
  simp only [isNonOverridable, Bool.and_eq_true, decide_eq_true_eq] at hselected
  exact ⟨b, hb, e, mem_of_mem_filter he, hselected.1.1.1.2, hselected.1.1.2, rfl⟩

theorem count_eq_maxUnits (P : Portion T) :
    countNonOverridableBookings P bookings planId subitemId priority start end_
      = maxUnits P (selectedEntries bookings planId subitemId priority start end_) := by
  unfold countNonOverridableBookings
  extract_lets selected
  split_ifs with hnone
  · -- without bookings there are no entries, and the maximum is that of nothing
    obtain ⟨⟨x, hx⟩, -⟩ := maxUnits_spec P
      (selectedEntries bookings planId subitemId priority start end_) start
    rw [← hx, selectedEntries, show bookings.filter _ = [] from List.isEmpty_iff.mp hnone]
    rfl
  · rfl

theorem bookedAt_le_clamp {segments : List (Segment T)}
    (hmeets : ∀ s ∈ segments, s.start ≤ end_ ∧ start ≤ s.end_)
    (hnn : ∀ s ∈ segments, 0 ≤ s.units.unitsBooked) (x : T) :
    bookedAt segments x ≤ bookedAt segments (max start (min x end_)) := by
  refine sum_le_sum fun s hs => ?_
  obtain ⟨hstart, hend⟩ := hmeets s hs
  by_cases hx : x ∈ Interval.closed s.start s.end_
  · have hclamp : max start (min x end_) ∈ Interval.closed s.start s.end_ :=
      ⟨le_max_of_le_right (le_min hx.1 hstart), max_le hend (min_le_of_left_le hx.2)⟩
    rw [if_pos hx, if_pos hclamp]
  · split_ifs
    · exact hnn s hs
    · exact le_refl 0

/-- **The count is exact on the window.** It is the maximum, over the instants of the window, of the
units of the selected entries whose interval contains the instant; without any it is 0. -/
theorem count_eq_max_in_window (P : Portion T) (hwindow : start ≤ end_)
    (hunits : ∀ b ∈ bookings, 0 ≤ b.units ∧ ∀ e ∈ b.plans, 0 ≤ e.unitsBooked) :
    let count := countNonOverridableBookings P bookings planId subitemId priority start end_
    let booked := bookedAt (selectedEntries bookings planId subitemId priority start end_)
    (∃ t, start ≤ t ∧ t ≤ end_ ∧ booked t = count)
      ∧ (∀ t, start ≤ t → t ≤ end_ → booked t ≤ count)
      ∧ (selectedEntries bookings planId subitemId priority start end_ = [] → count = 0) := by
  intro count booked
  have hnn : ∀ s ∈ selectedEntries bookings planId subitemId priority start end_,
      0 ≤ s.units.unitsBooked := by
    intro s hs
    obtain ⟨b, hb, e, he, -, -, heq⟩ := of_mem_selectedEntries hs
    rw [heq]
    split_ifs
    · exact (hunits b hb).1
    · exact (hunits b hb).2 e he
  have hcount : count = maxUnits P _ := count_eq_maxUnits P
  have hle : ∀ t, booked t ≤ count := fun t => hcount ▸ bookedAt_le_maxUnits P hnn t
  obtain ⟨⟨x, hx⟩, -⟩ := maxUnits_spec P
    (selectedEntries bookings planId subitemId priority start end_) start
  refine ⟨⟨max start (min x end_), le_max_left _ _, max_le hwindow (min_le_right _ _), ?_⟩,
    fun t _ _ => hle t, fun hnone => ?_⟩
  · refine le_antisymm (hle _) ?_
    rw [hcount, ← hx]
    refine bookedAt_le_clamp (fun s hs => ?_) hnn x
    obtain ⟨-, -, -, -, hstart, hend, -⟩ := of_mem_selectedEntries hs
    exact ⟨hstart, hend⟩
  · rw [hcount, ← hx, hnone]
    rfl

/-- Two bookings that overlap before the window, of which only one reaches into it. -/
def earlyBookings : List (Booking ℚ) :=
  [⟨"b1", .desktop, "d1", 1, ["A40-8Q"], 0, 3, "", "u1", [⟨"plan", "card", "A40-8Q", 5, 1⟩]⟩,
    ⟨"b2", .desktop, "d2", 2, ["A40-8Q"], 1, 6, "", "u2", [⟨"plan", "card", "A40-8Q", 5, 0⟩]⟩]

theorem count_earlyBookings :
    ∃ t : ℚ, 4 ≤ t ∧ t ≤ 9
      ∧ bookedAt (selectedEntries earlyBookings "plan" "A40-8Q" 5 4 9) t
        = countNonOverridableBookings (Portion.pieces ℚ) earlyBookings "plan" "A40-8Q" 5 4 9 :=
  (count_eq_max_in_window (Portion.pieces ℚ) (by decide) (by decide)).1

/-! ## The distribution -/

omit [LinearOrder T] in
theorem sublist_assignUnits (avail : Plan T → Int) (plans : List (Plan T)) (remaining : Int) :
    ((assignUnits avail plans remaining).1.map ChosenPlan.plan).Sublist plans := by
  fun_induction assignUnits avail plans remaining with
  | case1 => exact nil_sublist _
  | case2 p _ _ _ _ _ _ heq ih =>
    rw [heq] at ih
    exact ih.cons_cons p
  | case3 p plans => exact (nil_sublist plans).cons_cons p
  | case4 p _ _ _ ih => exact ih.cons p

/-- **Sound and complete.** Every plan that is chosen contains the window and gives between one unit
and what it has, together they give the units that were asked for, and no plan is chosen twice; none
is chosen exactly if the plans that contain the window have too little together. -/
theorem getSamePlansForBooking_allocates (P : Portion T) (hids : IdsNodup plans)
    (hunits : 1 ≤ units) :
    let chosen := getSamePlansForBooking P bookings plans subitemId priority start end_ units
    let avail := availInPlan P bookings subitemId priority start end_
    (chosen ≠ [] →
      (∀ c ∈ chosen, c.plan ∈ plans
        ∧ (∀ t, start ≤ t ∧ t ≤ end_ → c.plan.start ≤ t ∧ t ≤ c.plan.end_)
        ∧ 1 ≤ c.unitsBooked ∧ c.unitsBooked ≤ avail c.plan)
      ∧ (chosen.map ChosenPlan.unitsBooked).sum = units
      ∧ (chosen.map fun c => c.plan.id).Nodup)
    ∧ (chosen = [] ↔ roomIn avail (fittingPlans plans start end_) < units) := by
  intro chosen avail
  have hmax : max units 1 = units := max_eq_left hunits
  have hchosen : chosen = if 0 < (assignUnits avail (fittingPlans plans start end_) units).2 then []
      else (assignUnits avail (fittingPlans plans start end_) units).1 := by
    have heq := getSamePlansForBooking_eq P bookings plans subitemId priority start end_ units
    rwa [hmax] at heq
  have hleft : (assignUnits avail (fittingPlans plans start end_) units).2 = max 0 (units - _) :=
    assignUnits_left _ (by omega)
  have hsum : chosen ≠ [] → (chosen.map ChosenPlan.unitsBooked).sum = units :=
    fun hne => (getSamePlansForBooking_sum P hne).trans hmax
  refine ⟨fun hne => ⟨fun c hc => ?_, hsum hne, ?_⟩, ?_⟩
  · obtain ⟨-, before, after, hsplit, havail, hroom, hbooked⟩ :=
      (mem_getSamePlansForBooking P).mp hc
    have hmem : c.plan ∈ fittingPlans plans start end_ := by
      rw [hsplit]
      exact mem_append_right _ (.head _)
    obtain ⟨hin, hfits⟩ := mem_filter.mp hmem
    refine ⟨hin, fun t ht => Interval.mem_of_contains hfits ht, ?_, ?_⟩
    · omega
    · rw [hbooked]
      exact min_le_left _ _
  · have hsub : (chosen.map ChosenPlan.plan).Sublist plans := by
      rw [hchosen]
      split_ifs
      · exact nil_sublist _
      · exact (sublist_assignUnits _ _ _).trans filter_sublist
    have hnodup := Nodup.sublist (hsub.map Plan.id) hids
    rwa [map_map] at hnodup
  · constructor
    · intro hnone
      by_contra hroom
      rw [hchosen, if_neg (by omega)] at hnone
      have htotal : _ + (assignUnits avail (fittingPlans plans start end_) units).2 = units :=
        assignUnits_sum _ _
      rw [hnone, map_nil, sum_nil] at htotal
      omega
    · intro hroom
      rw [hchosen, if_pos (by omega)]

/-- Two plans around the window, the first of which has one unit left. -/
def twoPlans : List (Plan ℚ) :=
  [⟨"plan", .gpus, "card", "A40-8Q", 3, 0, 10, "admin", "available"⟩,
    ⟨"other", .gpus, "card2", "A40-8Q", 2, 4, 9, "admin", "available"⟩]

theorem twoPlans_allocates :
    ((getSamePlansForBooking (Portion.pieces ℚ) earlyBookings twoPlans "A40-8Q" 5 4 9 3).map
      ChosenPlan.unitsBooked).sum = 3
    ∧ getSamePlansForBooking (Portion.pieces ℚ) earlyBookings twoPlans "A40-8Q" 5 4 9 4 = [] :=
  ⟨((getSamePlansForBooking_allocates (Portion.pieces ℚ) (by decide) (by decide)).1
    (by decide)).2.1,
    (getSamePlansForBooking_allocates (Portion.pieces ℚ) (by decide) (by decide)).2.mpr (by decide)⟩

end IsardVDI.Bookings
