import IsardVDI.Bookings.AddPlan
import Mathlib

/-!
# Bookings — the windows of a GPU card

A GPU card serves one profile at a time ("we can't overlap in gpu"), so the closed windows
of one card have to stay disjoint over every sequence of `add_plan` calls.

The three queries of the overlap check are complete only on rounded windows. A window that fills
the gap between two plans of its profile is joined to both, and these then share it for good.
-/

namespace IsardVDI.Bookings

open List Option

/-! ## Windows -/

variable (table : List (Plan Int))

/-- No two rows of one card share an instant of their closed windows. -/
def WindowsDisjoint : Prop :=
  table.Pairwise fun p q =>
    p.itemId = q.itemId → Disjoint (Set.Icc p.start p.end_) (Set.Icc q.start q.end_)

/-- One window ends before the other starts. -/
def Apart (p q : Plan Int) : Prop := p.end_ < q.start ∨ q.end_ < p.start

/-- Rounded window: the start is a multiple of the rounding step, the end one second
short of one, and the window is not empty. -/
structure Aligned (p : Plan Int) : Prop where
  start : p.start % roundStep = 0
  end_ : (p.end_ + second) % roundStep = 0
  start_le_end : p.start ≤ p.end_

/-- The new window fills the gap between two plans of its card and profile exactly: one
ends one second before it, the other starts one second after it. -/
def FillsGap (req : PlanRequest) : Prop :=
  (∃ a ∈ table, a.itemId = req.itemId ∧ a.subitemId = req.subitemId
      ∧ a.end_ = ceilDt req.start - second)
    ∧ ∃ b ∈ table, b.itemId = req.itemId ∧ b.subitemId = req.subitemId
      ∧ b.start = ceilDt req.end_ - second + second

instance (table : List (Plan Int)) (req : PlanRequest) :
    Decidable (FillsGap table req) := by
  unfold FillsGap; infer_instance

/-- What every table of the planner satisfies: unique ids and rounded windows. -/
structure RowsInv (table : List (Plan Int)) : Prop where
  nodup : IdsNodup table
  aligned : ∀ p ∈ table, Aligned p

def RowsApart : Prop :=
  ∀ p ∈ table, ∀ q ∈ table, p.id ≠ q.id → p.itemId = q.itemId → Apart p q

theorem roundStep_eq : roundStep = 300000000 := rfl

theorem second_eq : second = 1000000 := rfl

theorem ceilDt_mod (dt : Int) : ceilDt dt % roundStep = 0 := by
  unfold ceilDt
  rw [roundStep_eq]
  omega

theorem aligned_newPlan (req : PlanRequest) (units : Int)
    (h : ¬ ceilDt req.end_ - second < ceilDt req.start) : Aligned (newPlan req units) where
  start := ceilDt_mod req.start
  end_ := by
    have := ceilDt_mod req.end_
    simpa [newPlan] using this
  start_le_end := by simpa [newPlan] using h

variable {q plan b a m p r : Plan Int} {table table' : List (Plan Int)} {req : PlanRequest}
  {f : Plan Int → Plan Int}

theorem disjoint_Icc_iff_apart (hp : p.start ≤ p.end_) (hq : q.start ≤ q.end_) :
    Disjoint (Set.Icc p.start p.end_) (Set.Icc q.start q.end_) ↔ Apart p q := by
  rw [Set.disjoint_left]
  constructor
  · intro h
    by_contra hna
    unfold Apart at hna
    -- the later of the two starts lies in both windows
    have hmem := @h (max p.start q.start) (by constructor <;> omega)
    exact hmem (by constructor <;> omega)
  · intro h x hx hx'
    obtain ⟨h1, h2⟩ := hx
    obtain ⟨h3, h4⟩ := hx'
    rcases h with h | h <;> omega

theorem RowsInv.windowsDisjoint_iff (hrows : RowsInv table) :
    WindowsDisjoint table ↔ RowsApart table := by
  have hle : ∀ p ∈ table, p.start ≤ p.end_ := fun p hp => (hrows.aligned p hp).start_le_end
  have hnodup := hrows.nodup
  constructor
  · intro h p hp q hq hne hitem
    have hpq : p ≠ q := fun heq => hne (by rw [heq])
    have hsymm : Std.Symm fun p q : Plan Int =>
        p.itemId = q.itemId → Disjoint (Set.Icc p.start p.end_) (Set.Icc q.start q.end_) :=
      ⟨fun a b hab he => (hab he.symm).symm⟩
    have hd := List.Pairwise.forall h hp hq hpq hitem
    exact (disjoint_Icc_iff_apart (hle p hp) (hle q hq)).mp hd
  · intro h
    refine (Nodup.of_map _ hnodup).pairwise_of_forall_ne ?_
    intro p hp q hq hne hitem
    have hid : p.id ≠ q.id := fun heq => hne (hnodup.eq_of_id hp hq heq)
    exact (disjoint_Icc_iff_apart (hle p hp) (hle q hq)).mpr (h p hp q hq hid hitem)

/-! ## What a successful call did -/

theorem checkPlanOverlapped_ok {scope : OverlapScope} {rows : List (Plan Int)} :
    checkPlanOverlapped scope rows plan = .ok () ↔
      ∀ r ∈ rows, ¬ (plan.start ≤ r.start ∧ r.start < plan.end_)
        ∧ ¬ (plan.start ≤ r.end_ ∧ r.end_ < plan.end_)
        ∧ ¬ (r.start ≤ plan.start ∧ plan.end_ ≤ r.end_) := by
  have hsplit : checkPlanOverlapped scope rows plan = .ok () ↔
      (rows.filter fun r => during r.start plan.start plan.end_) = []
        ∧ (rows.filter fun r => during r.end_ plan.start plan.end_) = []
        ∧ (rows.filter fun r =>
            decide (r.start ≤ plan.start) && decide (plan.end_ ≤ r.end_)) = [] := by
    simp only [checkPlanOverlapped]
    split <;> simp_all
  rw [hsplit]
  simp only [filter_eq_nil_iff, during, Bool.and_eq_true, decide_eq_true_eq]
  constructor
  · rintro ⟨h1, h2, h3⟩ r hr
    exact ⟨h1 r hr, h2 r hr, h3 r hr⟩
  · intro h
    exact ⟨fun r hr => (h r hr).1, fun r hr => (h r hr).2.1, fun r hr => (h r hr).2.2⟩

theorem planStartingAfter_some (h : planStartingAfter table plan = some b) :
    b ∈ table ∧ b.itemId = plan.itemId ∧ b.start = plan.end_ + second := by
  have hmem := mem_of_find?_eq_some h
  have hp := find?_some h
  simp only [Bool.and_eq_true, decide_eq_true_eq] at hp
  exact ⟨hmem, hp.1.1, hp.2⟩

theorem planEndingBefore_some (h : planEndingBefore table plan = some a) :
    a ∈ table ∧ a.itemId = plan.itemId ∧ plan.start = a.end_ + second := by
  have hmem := mem_of_find?_eq_some h
  have hp := find?_some h
  simp only [Bool.and_eq_true, decide_eq_true_eq] at hp
  exact ⟨hmem, hp.1.1, eq_add_of_sub_eq hp.2.symm⟩

/-- The two joins, with the row each of them found. -/
def joinStart (table : List (Plan Int)) (plan b : Plan Int) : List (Plan Int) :=
  updatePlanRow table b.id fun p => { p with start := plan.start }

def joinEnd (table : List (Plan Int)) (plan a : Plan Int) : List (Plan Int) :=
  updatePlanRow table a.id fun p => { p with end_ := plan.end_ }

/-- How a window gets into the table. Both joins look at the table as the first of them
found it (`planEndingBefore_move`). -/
inductive Placed (table : List (Plan Int)) (plan : Plan Int) : List (Plan Int) → Prop where
  | inserted (hafter : planStartingAfter table plan = none)
      (hbefore : planEndingBefore table plan = none)
      (hfresh : ∀ r ∈ table, r.id ≠ plan.id) :
      Placed table plan (table ++ [plan])
  | joinedStart (b : Plan Int) (hb : planStartingAfter table plan = some b)
      (hbefore : planEndingBefore table plan = none) :
      Placed table plan (joinStart table plan b)
  | joinedEnd (a : Plan Int) (hafter : planStartingAfter table plan = none)
      (ha : planEndingBefore table plan = some a) :
      Placed table plan (joinEnd table plan a)
  | joinedBoth (a b : Plan Int) (hb : planStartingAfter table plan = some b)
      (ha : planEndingBefore table plan = some a) :
      Placed table plan (joinEnd (joinStart table plan b) plan a)

theorem planEndingBefore_move (table : List (Plan Int)) (plan : Plan Int) (id : String)
    (start : Int) :
    planEndingBefore (updatePlanRow table id fun p => { p with start := start }) plan
      = (planEndingBefore table plan).map
          fun r => if r.id = id then { r with start := start } else r := by
  unfold planEndingBefore updatePlanRow
  rw [find?_map]
  congr 2
  funext r
  by_cases hr : r.id = id
  · simp [hr]
  · simp [hr]

theorem placePlan_gpus (hgpus : plan.itemType = .gpus) :
    placePlan table plan =
      match checkPlanItemIdOverlapped table plan with
      | .error e => .error e
      | .ok () =>
        let start := joinExistingPlanAfterNewPlanStart table plan
        let both := joinExistingPlanBeforeNewPlanEnd start.1 plan
        match both.2.or start.2 with
        | some joined => .ok (both.1, joined.id)
        | none =>
          match insertPlan both.1 plan with
          | some table' => .ok (table', plan.id)
          | none => .error .unableToInsert := by
  unfold placePlan
  simp only [hgpus, planningItemCanOverlap, planningSubitemCanOverlap,
    planningSubitemJoinBefore, planningSubitemJoinAfter, Bool.not_false, Bool.not_true,
    if_true, Bool.false_eq_true, if_false]
  cases checkPlanItemIdOverlapped table plan with
  | error e | ok u => rfl

theorem placed_of_placePlan {id : String} (hgpus : plan.itemType = .gpus)
    (h : placePlan table plan = .ok (table', id)) :
    checkPlanItemIdOverlapped table plan = .ok () ∧ Placed table plan table' := by
  rw [placePlan_gpus hgpus] at h
  cases hcheck : checkPlanItemIdOverlapped table plan with
  | error e => rw [hcheck] at h; exact absurd h (by simp)
  | ok u =>
    rw [hcheck] at h
    refine ⟨rfl, ?_⟩
    cases hb : planStartingAfter table plan with
    | none =>
      cases ha : planEndingBefore table plan with
      | none =>
        simp only [joinExistingPlanAfterNewPlanStart, joinExistingPlanBeforeNewPlanEnd, hb, ha,
          insertPlan, none_or] at h
        by_cases hdup : (table.any fun r => r.id = plan.id) = true
        · simp [hdup] at h
        · simp only [hdup, Bool.false_eq_true, if_false, Except.ok.injEq, Prod.mk.injEq] at h
          rw [← h.1]
          refine .inserted hb ha ?_
          simpa using hdup
      | some a =>
        simp only [joinExistingPlanAfterNewPlanStart, joinExistingPlanBeforeNewPlanEnd, hb, ha,
          some_or, Except.ok.injEq, Prod.mk.injEq] at h
        rw [← h.1]
        exact .joinedEnd a hb ha
    | some b =>
      cases ha : planEndingBefore table plan with
      | none =>
        simp only [joinExistingPlanAfterNewPlanStart, joinExistingPlanBeforeNewPlanEnd, hb,
          planEndingBefore_move, ha, map_none,
          none_or, Except.ok.injEq, Prod.mk.injEq] at h
        rw [← h.1]
        exact .joinedStart b hb ha
      | some a =>
        simp only [joinExistingPlanAfterNewPlanStart, joinExistingPlanBeforeNewPlanEnd, hb,
          planEndingBefore_move, ha, map_some,
          some_or, Except.ok.injEq, Prod.mk.injEq] at h
        -- the row the second join updates still has the id of `a`
        have hid : (if a.id = b.id then { a with start := plan.start } else a).id = a.id := by
          split <;> rfl
        rw [← h.1, hid]
        exact .joinedBoth a b hb ha

/-- **A successful step of the planner.** The window is rounded, none of the three queries
found a row of the card, and the table changed in one of the four ways of `Placed`. -/
theorem gpuPlanner_step (h : gpuPlanner.next table req = some table') :
    ∃ units, Aligned (newPlan req units)
      ∧ checkPlanItemIdOverlapped table (newPlan req units) = .ok ()
      ∧ Placed table (newPlan req units) table' := by
  simp only [gpuPlanner] at h
  split at h
  · next hgpus =>
    unfold addPlan at h
    by_cases hle : ceilDt req.end_ - second < ceilDt req.start
    · simp [hle] at h
    · cases hu : req.subitemUnits with
      | none => simp [hle, hu] at h
      | some units =>
        simp only [hle, hu, if_false] at h
        cases hplace : placePlan table (newPlan req units) with
        | error e => simp [hplace] at h
        | ok res =>
          simp only [hplace] at h
          cases h
          exact ⟨units, aligned_newPlan req units hle,
            placed_of_placePlan (show (newPlan req units).itemType = .gpus from hgpus) hplace⟩
  · exact absurd h (by simp)

/-! ## Geometry of aligned windows -/

theorem Apart.symm (h : Apart p q) : Apart q p := Or.symm h

/-- **The three queries are complete on aligned windows.** `during` leaves out the instant
`plan.end_`, but an aligned start never falls on an aligned end. -/
theorem apart_of_check (hplan : Aligned plan) (hr : Aligned r)
    (hstart : ¬ (plan.start ≤ r.start ∧ r.start < plan.end_))
    (hend : ¬ (plan.start ≤ r.end_ ∧ r.end_ < plan.end_))
    (hall : ¬ (r.start ≤ plan.start ∧ plan.end_ ≤ r.end_)) : Apart plan r := by
  obtain ⟨hp1, hp2, hp3⟩ := hplan
  obtain ⟨hr1, hr2, hr3⟩ := hr
  rw [roundStep_eq] at hp1 hp2 hr1 hr2
  rw [second_eq] at hp2 hr2
  unfold Apart
  omega

theorem aligned_join (ha : Aligned a) (hb : Aligned b) (hnext : b.start = a.end_ + second) :
    Aligned { r with start := a.start, end_ := b.end_ } where
  start := ha.start
  end_ := hb.end_
  start_le_end := by
    have h1 := ha.start_le_end
    have h2 := hb.start_le_end
    rw [second_eq] at hnext
    show a.start ≤ b.end_
    omega

/-- A row apart from a plan and from the plan right after it is apart from the two joined:
nothing aligned fits in the second between them. -/
theorem apart_join (ha : Aligned a) (hq : Aligned q) (hnext : b.start = a.end_ + second)
    (haq : Apart a q) (hbq : Apart b q) :
    Apart { r with start := a.start, end_ := b.end_ } q := by
  obtain ⟨ha1, ha2, ha3⟩ := ha
  obtain ⟨hq1, hq2, hq3⟩ := hq
  rw [roundStep_eq] at ha1 ha2 hq1 hq2
  rw [second_eq] at ha2 hq2 hnext
  unfold Apart at haq hbq
  show b.end_ < q.start ∨ q.end_ < a.start
  omega

/-- Every row survives a step with at least the window it had. -/
def Covers (table table' : List (Plan Int)) : Prop :=
  ∀ p ∈ table, ∃ p' ∈ table', p'.id = p.id ∧ p'.itemId = p.itemId
    ∧ p'.start ≤ p.start ∧ p.end_ ≤ p'.end_

theorem Covers.refl (table : List (Plan Int)) : Covers table table :=
  fun p hp => ⟨p, hp, rfl, rfl, le_refl _, le_refl _⟩

theorem Covers.trans {t1 t2 t3 : List (Plan Int)} (h12 : Covers t1 t2) (h23 : Covers t2 t3) :
    Covers t1 t3 := by
  intro p hp
  obtain ⟨q, hq, hqid, hqitem, hqs, hqe⟩ := h12 p hp
  obtain ⟨r, hr, hrid, hritem, hrs, hre⟩ := h23 q hq
  exact ⟨r, hr, hrid.trans hqid, hritem.trans hqitem, hrs.trans hqs, hqe.trans hre⟩

theorem RowsApart.of_covers (hcov : Covers table table') (h : RowsApart table') :
    RowsApart table := by
  intro p hp q hq hne hpq
  obtain ⟨p', hp', hpid, hpitem, hps, hpe⟩ := hcov p hp
  obtain ⟨q', hq', hqid, hqitem, hqs, hqe⟩ := hcov q hq
  have := h p' hp' q' hq' (by rw [hpid, hqid]; exact hne) (by rw [hpitem, hqitem]; exact hpq)
  unfold Apart at this ⊢
  omega

/-! ## Updating one row -/

section

variable (hrows : RowsInv table)

include hrows

theorem RowsInv.mem_update (hm : m ∈ table) :
    r ∈ updatePlanRow table m.id f ↔ r = f m ∨ (r ∈ table ∧ r.id ≠ m.id) := by
  unfold updatePlanRow
  rw [List.mem_map]
  constructor
  · rintro ⟨p, hp, rfl⟩
    by_cases hid : p.id = m.id
    · left
      rw [if_pos hid, hrows.nodup.eq_of_id hp hm hid]
    · right
      rw [if_neg hid]
      exact ⟨hp, hid⟩
  · rintro (rfl | ⟨hr, hid⟩)
    · exact ⟨m, hm, if_pos rfl⟩
    · exact ⟨r, hr, if_neg hid⟩

theorem RowsInv.update (hm : m ∈ table) (hid : (f m).id = m.id) (hitem : (f m).itemId = m.itemId)
    (haligned : Aligned (f m)) (hstart : (f m).start ≤ m.start) (hend : m.end_ ≤ (f m).end_) :
    RowsInv (updatePlanRow table m.id f) ∧ Covers table (updatePlanRow table m.id f) := by
  refine ⟨⟨?_, fun r hr => ?_⟩, fun p hp => ?_⟩
  · have hids : (updatePlanRow table m.id f).map Plan.id = table.map Plan.id := by
      unfold updatePlanRow
      rw [List.map_map]
      refine map_congr_left ?_
      intro r hr
      by_cases hrm : r.id = m.id
      · have hrow : r = m := hrows.nodup.eq_of_id hr hm hrm
        simp [hrow, hid]
      · simp [hrm]
    unfold IdsNodup
    rw [hids]
    exact hrows.nodup
  · rcases (hrows.mem_update hm).mp hr with rfl | ⟨hr, _⟩
    · exact haligned
    · exact hrows.aligned r hr
  · by_cases hpm : p.id = m.id
    · have hrow : p = m := hrows.nodup.eq_of_id hp hm hpm
      subst hrow
      exact ⟨f p, (hrows.mem_update hm).mpr (.inl rfl), hid, hitem, hstart, hend⟩
    · exact ⟨p, (hrows.mem_update hm).mpr (.inr ⟨hp, hpm⟩), rfl, rfl, le_refl _, le_refl _⟩

theorem RowsInv.apart_update (hapart : RowsApart table) (hm : m ∈ table)
    (hitem : (f m).itemId = m.itemId)
    (hnew : ∀ q ∈ table, q.id ≠ m.id → q.itemId = m.itemId → Apart (f m) q) :
    RowsApart (updatePlanRow table m.id f) := by
  intro p hp q hq hne hpq
  rcases (hrows.mem_update hm).mp hp with rfl | ⟨hp, hpm⟩
  · rcases (hrows.mem_update hm).mp hq with rfl | ⟨hq, hqm⟩
    · exact absurd rfl hne
    · exact hnew q hq hqm (by rw [← hpq, hitem])
  · rcases (hrows.mem_update hm).mp hq with rfl | ⟨hq, hqm⟩
    · exact (hnew p hp hpm (by rw [hpq, hitem])).symm
    · exact hapart p hp q hq hne hpq

/-! ## One step of the planner -/

omit hrows in
theorem ne_of_gap (hplan : Aligned plan) (ha : Aligned a) (hprev : plan.start = a.end_ + second)
    (hnext : b.start = plan.end_ + second) : a ≠ b := by
  rintro rfl
  have h1 := hplan.start_le_end
  have h2 := ha.start_le_end
  rw [second_eq] at hprev hnext
  omega

theorem RowsInv.joinStart (hplan : Aligned plan) (hb : planStartingAfter table plan = some b) :
    RowsInv (joinStart table plan b) ∧ Covers table (joinStart table plan b) := by
  obtain ⟨hmem, _, hnext⟩ := planStartingAfter_some hb
  have hle := hplan.start_le_end
  refine hrows.update hmem rfl rfl (aligned_join hplan (hrows.aligned b hmem) hnext) ?_ (le_refl _)
  rw [second_eq] at hnext
  show plan.start ≤ b.start
  omega

/-- The row before may have been found in another table than the one it is updated in. -/
theorem RowsInv.joinEnd (hplan : Aligned plan) (hmem : a ∈ table)
    (hprev : plan.start = a.end_ + second) :
    RowsInv (joinEnd table plan a) ∧ Covers table (joinEnd table plan a) := by
  have hle := hplan.start_le_end
  refine hrows.update hmem rfl rfl (aligned_join (hrows.aligned a hmem) hplan hprev) (le_refl _) ?_
  rw [second_eq] at hprev
  show a.end_ ≤ plan.end_
  omega

theorem RowsInv.mem_joinStart (hplan : Aligned plan) (hb : planStartingAfter table plan = some b)
    (ha : planEndingBefore table plan = some a) :
    a.id ≠ b.id ∧ a ∈ Bookings.joinStart table plan b := by
  obtain ⟨hbmem, _, hnext⟩ := planStartingAfter_some hb
  obtain ⟨hamem, _, hprev⟩ := planEndingBefore_some ha
  have hne : a ≠ b := ne_of_gap hplan (hrows.aligned a hamem) hprev hnext
  have hid : a.id ≠ b.id := fun heq => hne (hrows.nodup.eq_of_id hamem hbmem heq)
  exact ⟨hid, (hrows.mem_update hbmem).mpr (.inr ⟨hamem, hid⟩)⟩

theorem Placed.rows (hplan : Aligned plan) (h : Placed table plan table') :
    RowsInv table' ∧ Covers table table' := by
  cases h with
  | inserted _ _ hfresh =>
    refine ⟨⟨?_, fun p hp => ?_⟩, fun p hp => ?_⟩
    · unfold IdsNodup
      rw [map_append, nodup_append]
      refine ⟨hrows.nodup, by simp, ?_⟩
      intro x hx y hy
      obtain ⟨r, hr, rfl⟩ := mem_map.mp hx
      simp only [map_cons, map_nil, mem_singleton] at hy
      rw [hy]
      exact hfresh r hr
    · rcases mem_append.mp hp with hp | hp
      · exact hrows.aligned p hp
      · rw [mem_singleton.mp hp]
        exact hplan
    · exact ⟨p, mem_append_left _ hp, rfl, rfl, le_refl _, le_refl _⟩
  | joinedStart b hb _ => exact hrows.joinStart hplan hb
  | joinedEnd a _ ha =>
    obtain ⟨hmem, _, hprev⟩ := planEndingBefore_some ha
    exact hrows.joinEnd hplan hmem hprev
  | joinedBoth a b hb ha =>
    obtain ⟨_, _, hprev⟩ := planEndingBefore_some ha
    obtain ⟨hmid, hcovers⟩ := hrows.joinStart hplan hb
    obtain ⟨hrows', hcovers'⟩ := hmid.joinEnd hplan (hrows.mem_joinStart hplan hb ha).2 hprev
    exact ⟨hrows', hcovers.trans hcovers'⟩

/-- **One step keeps the rows of a card apart unless it joins on both sides.** -/
theorem Placed.rowsApart (hapart : RowsApart table) (hplan : Aligned plan)
    (hcheck : checkPlanItemIdOverlapped table plan = .ok ())
    (hgap : planStartingAfter table plan = none ∨ planEndingBefore table plan = none)
    (h : Placed table plan table') : RowsApart table' := by
  -- the check puts the new window apart from every row of the card
  have hnew : ∀ r ∈ table, r.itemId = plan.itemId → Apart plan r := by
    intro r hr hitem
    obtain ⟨h1, h2, h3⟩ := checkPlanOverlapped_ok.mp hcheck r (by simpa using ⟨hr, hitem⟩)
    exact apart_of_check hplan (hrows.aligned r hr) h1 h2 h3
  cases h with
  | inserted _ _ _ =>
    intro p hp q hq hne hpq
    rcases mem_append.mp hp with hp | hp
    · rcases mem_append.mp hq with hq | hq
      · exact hapart p hp q hq hne hpq
      · rw [mem_singleton.mp hq] at hpq ⊢
        exact (hnew p hp hpq).symm
    · rw [mem_singleton.mp hp] at hpq hne ⊢
      rcases mem_append.mp hq with hq | hq
      · exact hnew q hq hpq.symm
      · exact absurd (by rw [mem_singleton.mp hq]) hne
  | joinedStart b hb _ =>
    obtain ⟨hmem, hitem, hnext⟩ := planStartingAfter_some hb
    refine hrows.apart_update hapart hmem rfl ?_
    intro q hq hqb hqitem
    exact apart_join hplan (hrows.aligned q hq) hnext (hnew q hq (hqitem.trans hitem))
      (hapart b hmem q hq (Ne.symm hqb) hqitem.symm)
  | joinedEnd a _ ha =>
    obtain ⟨hmem, hitem, hprev⟩ := planEndingBefore_some ha
    refine hrows.apart_update hapart hmem rfl ?_
    intro q hq hqa hqitem
    exact apart_join (hrows.aligned a hmem) (hrows.aligned q hq) hprev
      (hapart a hmem q hq (Ne.symm hqa) hqitem.symm) (hnew q hq (hqitem.trans hitem))
  | joinedBoth a b hb ha =>
    rcases hgap with hgap | hgap
    · rw [hb] at hgap; exact absurd hgap (by simp)
    · rw [ha] at hgap; exact absurd hgap (by simp)

/-- **Joining on both sides makes two rows overlap.** The row before ends with the new
window and the row after starts with it, so both now cover it. -/
theorem not_rowsApart_of_joinedBoth (hplan : Aligned plan)
    (hb : planStartingAfter table plan = some b) (ha : planEndingBefore table plan = some a) :
    ¬ RowsApart (joinEnd (joinStart table plan b) plan a) := by
  intro hapart
  obtain ⟨hbmem, hbitem, hnext⟩ := planStartingAfter_some hb
  obtain ⟨hamem, haitem, hprev⟩ := planEndingBefore_some ha
  obtain ⟨hid, hamid⟩ := hrows.mem_joinStart hplan hb ha
  have hmid := (hrows.joinStart hplan hb).1
  have hbmid : { b with start := plan.start } ∈ joinStart table plan b :=
    (hrows.mem_update hbmem).mpr (.inl rfl)
  have hboth : Apart { a with end_ := plan.end_ } { b with start := plan.start } :=
    hapart _ ((hmid.mem_update hamid).mpr (.inl rfl)) _
      ((hmid.mem_update hamid).mpr (.inr ⟨hbmid, hid.symm⟩)) hid (haitem.trans hbitem.symm)
  have h1 := hplan.start_le_end
  have h2 := (hrows.aligned a hamem).start_le_end
  have h3 := (hrows.aligned b hbmem).start_le_end
  rw [second_eq] at hprev hnext
  change plan.end_ < plan.start ∨ b.end_ < a.start at hboth
  omega

end

section

variable (hrows : RowsInv table)

include hrows

/-! ## Every run of the planner -/

omit hrows in
theorem fillsGap_iff (units : Int) :
    FillsGap table req ↔
      (planEndingBefore table (newPlan req units)).isSome
        ∧ (planStartingAfter table (newPlan req units)).isSome := by
  unfold FillsGap planEndingBefore planStartingAfter
  simp only [find?_isSome, Bool.and_eq_true, decide_eq_true_eq, and_assoc]
  rfl

theorem gpuPlanner_keeps (hapart : RowsApart table) (hgap : ¬ FillsGap table req)
    (h : gpuPlanner.next table req = some table') : RowsInv table' ∧ RowsApart table' := by
  obtain ⟨units, hplan, hcheck, hplaced⟩ := gpuPlanner_step h
  refine ⟨(hplaced.rows hrows hplan).1, hplaced.rowsApart hrows hapart hplan hcheck ?_⟩
  rw [fillsGap_iff units] at hgap
  cases ha : planEndingBefore table (newPlan req units) with
  | none => exact .inr rfl
  | some a =>
    cases hb : planStartingAfter table (newPlan req units) with
    | none => exact .inl rfl
    | some b => exact absurd ⟨by rw [ha]; rfl, by rw [hb]; rfl⟩ hgap

theorem gpuPlanner_breaks (hgap : FillsGap table req) (h : gpuPlanner.next table req = some table')
    : ¬ RowsApart table' := by
  obtain ⟨units, hplan, _, hplaced⟩ := gpuPlanner_step h
  obtain ⟨hbefore, hafter⟩ := (fillsGap_iff units).mp hgap
  cases hplaced with
  | inserted hno _ _ => rw [hno] at hafter; exact absurd hafter (by simp)
  | joinedStart _ _ hno => rw [hno] at hbefore; exact absurd hbefore (by simp)
  | joinedEnd _ hno _ => rw [hno] at hafter; exact absurd hafter (by simp)
  | joinedBoth a b hb ha => exact not_rowsApart_of_joinedBoth hrows hplan hb ha

variable {reqs : List PlanRequest}

theorem gpuPlanner_run_covers (hrun : gpuPlanner.run table reqs = some table') :
    RowsInv table' ∧ Covers table table' := by
  refine gpuPlanner.run_preserves (fun t => RowsInv t ∧ Covers table t) ?_
    ⟨hrows, Covers.refl table⟩ hrun
  rintro t req t' ⟨ht, hcov⟩ hstep
  obtain ⟨units, hplan, _, hplaced⟩ := gpuPlanner_step hstep
  obtain ⟨ht', hstep⟩ := hplaced.rows ht hplan
  exact ⟨ht', hcov.trans hstep⟩

/-- From a well-formed table with its rows apart, a run ends with its rows apart exactly
when none of its steps fills a gap. Induction on the run: after a gap-filling step the
overlap survives the rest of it (`gpuPlanner_run_covers`). -/
theorem gpuPlanner_rowsApart_iff (hapart : RowsApart table)
    (hrun : gpuPlanner.run table reqs = some table') :
    RowsApart table' ↔ gpuPlanner.Meets (fun t req => ¬ FillsGap t req) table reqs := by
  induction reqs generalizing table with
  | nil =>
    cases hrun
    exact iff_of_true hapart trivial
  | cons req reqs ih =>
    obtain ⟨mid, hstep, hrest⟩ := gpuPlanner.run_cons.mp hrun
    rw [gpuPlanner.meets_cons hstep]
    by_cases hgap : FillsGap table req
    · have hbad := gpuPlanner_breaks hrows hgap hstep
      obtain ⟨units, hplan, _, hplaced⟩ := gpuPlanner_step hstep
      have hcov := (gpuPlanner_run_covers (hplaced.rows hrows hplan).1 hrest).2
      exact iff_of_false (fun h => hbad (h.of_covers hcov)) (fun h => h.1 hgap)
    · obtain ⟨hrows', hapart'⟩ := gpuPlanner_keeps hrows hapart hgap hstep
      rw [ih hrows' hapart' hrest]
      exact ⟨fun h => ⟨hgap, h⟩, fun h => h.2⟩

end

theorem rowsInv_nil : RowsInv [] := ⟨nodup_nil, fun p hp => absurd hp (by simp)⟩

/-- **GPU plan windows.** Starting from an empty table, the windows of every card are
pairwise disjoint after a sequence of successful `add_plan` calls exactly when none of the
calls filled the gap between two plans of its profile. -/
theorem gpuPlanner_windowsDisjoint_iff (reqs : List PlanRequest) (table : List (Plan Int))
    (hrun : gpuPlanner.run [] reqs = some table) :
    WindowsDisjoint table ↔ gpuPlanner.Meets (fun t req => ¬ FillsGap t req) [] reqs := by
  have hrows := (gpuPlanner_run_covers rowsInv_nil hrun).1
  rw [hrows.windowsDisjoint_iff]
  exact gpuPlanner_rowsApart_iff rowsInv_nil (fun p hp => absurd hp (by simp)) hrun

/-- Midnight of 1 January 2026, UTC. -/
def newYear : Int := 739616 * (86400 * second)

def novaRequest (newId subitemId : String) (fromMin toMin : Int) : PlanRequest where
  userId := "local-default-admin-admin"
  itemType := .gpus
  itemId := "nova"
  subitemId := subitemId
  start := newYear + fromMin * (60 * second)
  end_ := newYear + toMin * (60 * second)
  newId := newId
  subitemUnits := some 2

/-- The row such a request leaves when it is inserted. -/
def novaPlan (id subitemId : String) (fromMin toMin : Int) : Plan Int where
  id := id
  itemType := .gpus
  itemId := "nova"
  subitemId := subitemId
  units := 2
  start := newYear + fromMin * (60 * second)
  end_ := newYear + toMin * (60 * second) - second
  userId := "local-default-admin-admin"
  eventType := "available"

/-- Two plans of one profile around a plan of another: no gap is filled, three disjoint
windows. -/
theorem gpuPlanner_windowsDisjoint_nova :
    WindowsDisjoint
      [novaPlan "p1" "A40-2Q" 0 60, novaPlan "p2" "A40-2Q" 120 180,
        novaPlan "p3" "A40-4Q" 60 120] :=
  (gpuPlanner_windowsDisjoint_iff
    [novaRequest "p1" "A40-2Q" 0 60, novaRequest "p2" "A40-2Q" 120 180,
      novaRequest "p3" "A40-4Q" 58 120]
    _ (by decide)).mpr (by decide)

/-- The same with the middle plan of the same profile: both joins fire, `p1` now ends where
the new window ends and `p2` starts where it starts. -/
theorem gpuPlanner_gap_overlaps :
    gpuPlanner.run []
        [novaRequest "p1" "A40-2Q" 0 60, novaRequest "p2" "A40-2Q" 120 180,
          novaRequest "p3" "A40-2Q" 60 120]
      = some [novaPlan "p1" "A40-2Q" 0 120, novaPlan "p2" "A40-2Q" 60 180]
    ∧ ¬ WindowsDisjoint [novaPlan "p1" "A40-2Q" 0 120, novaPlan "p2" "A40-2Q" 60 180] := by
  refine ⟨by decide, ?_⟩
  intro h
  have hd := (pairwise_cons.mp h).1 (novaPlan "p2" "A40-2Q" 60 180) (by simp) rfl
  -- both windows contain the start of the new one
  have hleft : newYear + 60 * (60 * second) ∈ Set.Icc (novaPlan "p1" "A40-2Q" 0 120).start
      (novaPlan "p1" "A40-2Q" 0 120).end_ := by
    constructor <;> decide
  have hright : newYear + 60 * (60 * second) ∈ Set.Icc (novaPlan "p2" "A40-2Q" 60 180).start
      (novaPlan "p2" "A40-2Q" 60 180).end_ := by
    constructor <;> decide
  exact Set.disjoint_left.mp hd hleft hright

end IsardVDI.Bookings
