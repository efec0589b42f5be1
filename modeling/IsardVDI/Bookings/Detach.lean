import IsardVDI.Bookings.Admission

/-!
# Bookings — removing plans under bookings

The two operations that remove rows of `resource_planner`, with what they do to the
bookings that refer to them.

Along any run of these and of successful admissions, a stored booking is the booking that
was admitted without the entries of plans that no longer exist
(`plannerCalls_entries_of_admission`). A deployment spread over several cards therefore keeps
the rest of its units when one card is detached, and then holds fewer than `units`.
-/

namespace IsardVDI.Bookings

open List

variable {T : Type}

/-! ## The operations -/

def deletePlan (db : Db T) (planId : String) : Except BookingError (Db T) :=
  if db.planner.any fun p => p.id = planId then
    .ok {
      planner := db.planner.filter fun p => decide (p.id ≠ planId)
      bookings := db.bookings.filter fun b => !b.plans.any fun e => e.planId = planId
      plannerNodup := db.plannerNodup.filter _ }
  else .error .notFound

/-- The body of the loop of `delete_card_subitem_plans`; `none` is a removed booking. -/
def detachPlans (planIds : List String) (b : Booking T) : Option (Booking T) :=
  if b.plans.any fun e => decide (e.planId ∈ planIds) then
    let remaining := b.plans.filter fun e => decide (e.planId ∉ planIds)
    if remaining.isEmpty then none else some { b with plans := remaining }
  else some b

def cardSubitemPlanIds (planner : List (Plan T)) (itemId subitemId : String) : List String :=
  (planner.filter fun p => decide (p.itemId = itemId) && decide (p.subitemId = subitemId)).map
    Plan.id

def deleteCardSubitemPlans (db : Db T) (itemId subitemId : String) : Db T × Nat × Nat :=
  let planIds := cardSubitemPlanIds db.planner itemId subitemId
  if planIds.isEmpty then (db, 0, 0)
  else
    ({ planner := db.planner.filter fun p => decide (p.id ∉ planIds)
       bookings := db.bookings.filterMap (detachPlans planIds)
       plannerNodup := db.plannerNodup.filter _ },
      planIds.length, (db.bookings.filter fun b => (detachPlans planIds b).isNone).length)

/-! ## Runs

The history keeps the bookings as they were admitted, next to the tables. -/

structure PlannerHistory (T : Type) where
  db : Db T
  admitted : List (Booking T)

inductive PlannerCall (T : Type) where
  | add (req : AddRequest T) (ctx : AddContext T)
  | deletePlan (planId : String)
  | deleteCardSubitemPlans (itemId subitemId : String)

def plannerCalls [LinearOrder T] (P : Portion T) : Machine (PlannerHistory T) (PlannerCall T) where
  next h
    | .add req ctx =>
      if ctx.listing.Perm h.db.planner then
        match add P h.db req ctx with
        | (db, .ok b) => some ⟨db, h.admitted ++ [b]⟩
        | (_, .error _) => none
      else none
    | .deletePlan planId =>
      match deletePlan h.db planId with
      | .ok db => some { h with db := db }
      | .error _ => none
    | .deleteCardSubitemPlans itemId subitemId =>
      some { h with db := (deleteCardSubitemPlans h.db itemId subitemId).1 }

/-! ## What an admitted booking holds -/

def unitsFor (entries : List PlanEntry) (subitemId : String) : Int :=
  ((entries.filter fun e => decide (e.subitemId = subitemId)).map PlanEntry.unitsBooked).sum

theorem unitsFor_append (l m : List PlanEntry) (s : String) :
    unitsFor (l ++ m) s = unitsFor l s + unitsFor m s := by
  simp [unitsFor]

theorem unitsFor_filter_add (l : List PlanEntry) (keep : PlanEntry → Bool) (s : String) :
    unitsFor (l.filter keep) s + unitsFor (l.filter fun e => !keep e) s = unitsFor l s := by
  induction l with
  | nil => rfl
  | cons e l ih =>
    rw [show e :: l = [e] ++ l from rfl, filter_append, filter_append,
      unitsFor_append, unitsFor_append, unitsFor_append]
    cases hkeep : keep e <;> simp [hkeep, unitsFor] at ih ⊢ <;> omega

variable {s : String}

theorem unitsFor_map_newPlanEntry {chosen : List (ChosenPlan T)}
    (hs : ∀ c ∈ chosen, c.plan.subitemId = s) (priority : String → Int) (s' : String) :
    unitsFor (chosen.map (newPlanEntry priority)) s'
      = if s = s' then (chosen.map ChosenPlan.unitsBooked).sum else 0 := by
  induction chosen with
  | nil => simp [unitsFor]
  | cons c chosen ih =>
    have ih := ih fun c hc => hs c (.tail _ hc)
    have hc := hs c (.head _)
    rw [map_cons, show ∀ (e : PlanEntry) l, e :: l = [e] ++ l from fun _ _ => rfl,
      unitsFor_append, ih]
    by_cases h : s = s' <;> simp [unitsFor, newPlanEntry, hc, h]

theorem unitsFor_newPlanning {plansOf : String → List (ChosenPlan T)}
    (hsub : ∀ s, ∀ c ∈ plansOf s, c.plan.subitemId = s) {vgpus : List String}
    (hnodup : vgpus.Nodup) (priority : String → Int) (s : String) :
    unitsFor (newPlanning priority (vgpus.map fun s => (s, plansOf s))) s
      = if s ∈ vgpus then ((plansOf s).map ChosenPlan.unitsBooked).sum else 0 := by
  induction vgpus with
  | nil => rfl
  | cons s' vgpus ih =>
    rw [nodup_cons] at hnodup
    rw [map_cons, newPlanning, flatMap_cons, unitsFor_append,
      unitsFor_map_newPlanEntry (hsub s'), ← newPlanning, ih hnodup.2]
    by_cases h : s' = s
    · subst h
      simp [hnodup.1]
    · have h' : ¬ s = s' := fun heq => h heq.symm
      simp [h, h']

variable {b : Booking T} {bookings : List (Booking T)}

theorem unitsFor_admitted [LinearOrder T] {P : Portion T} {req : AddRequest T} {ctx : AddContext T}
    (h : checkAdd P bookings req ctx = .ok b) (hs : s ∈ b.vgpus) :
    unitsFor b.plans s = max b.units 1 := by
  obtain ⟨_, _, hne, hplans⟩ := checkAdd_ok h
  obtain ⟨heq, hnodup, hplaced, _⟩ := newBookingPlans_spec P hne
  rw [hplans, heq, unitsFor_newPlanning
    (fun s c hc => (plan_of_mem_plansForSubitem P hc).2) hnodup, if_pos hs]
  exact getSamePlansForBooking_sum P (hplaced s hs)

theorem admitted_plans_ne_nil [LinearOrder T] {P : Portion T} {req : AddRequest T}
    {ctx : AddContext T} (h : checkAdd P bookings req ctx = .ok b) : b.plans ≠ [] := by
  obtain ⟨_, _, hne, hplans⟩ := checkAdd_ok h
  obtain ⟨heq, _, hplaced, _⟩ := newBookingPlans_spec P hne
  obtain ⟨kv, hkv⟩ := exists_mem_of_ne_nil _ hne
  rw [heq] at hkv
  obtain ⟨s, hs, rfl⟩ := mem_map.mp hkv
  obtain ⟨c, hc⟩ := exists_mem_of_ne_nil _ (hplaced s hs)
  rw [hplans, heq]
  exact ne_nil_of_mem (mem_newPlanning.mpr ⟨s, _, mem_map_of_mem hs, c, hc, rfl⟩)

/-! ## Stored bookings are trimmed admissions -/

def planExists (planner : List (Plan T)) (e : PlanEntry) : Bool :=
  planner.any fun p => p.id = e.planId

variable {planner : List (Plan T)} {e : PlanEntry}

theorem planExists_iff : planExists planner e = true ↔ ∃ p ∈ planner, p.id = e.planId := by
  simp [planExists]

/-- The booking as admitted, without the entries of plans that are gone. -/
def trimmed (planner : List (Plan T)) (a : Booking T) : Booking T :=
  { a with plans := a.plans.filter (planExists planner) }

def FromAdmission (planner : List (Plan T)) (admitted : List (Booking T)) (b : Booking T) :
    Prop :=
  b.plans ≠ [] ∧ ∃ a ∈ admitted, b = trimmed planner a
    ∧ ∀ s ∈ a.vgpus, unitsFor a.plans s = max a.units 1

variable {admitted : List (Booking T)}

theorem FromAdmission.trim {planner' : List (Plan T)} (h : FromAdmission planner admitted b)
    (hkept : ∀ e, planExists planner' e = true → planExists planner e = true)
    {plans : List PlanEntry} (hplans : plans = b.plans.filter (planExists planner'))
    (hne : plans ≠ []) : FromAdmission planner' admitted { b with plans := plans } := by
  obtain ⟨_, a, ha, rfl, hunits⟩ := h
  refine ⟨hne, a, ha, ?_, hunits⟩
  have hfilter : plans = a.plans.filter (planExists planner') := by
    rw [hplans]
    show (a.plans.filter (planExists planner)).filter _ = _
    rw [filter_filter]
    apply filter_congr
    intro e _
    cases he : planExists planner' e with
    | false => rfl
    | true => rw [hkept e he]; rfl
  rw [hfilter]
  rfl

theorem FromAdmission.exists (h : FromAdmission planner admitted b) (he : e ∈ b.plans) :
    planExists planner e = true := by
  obtain ⟨_, a, _, rfl, _⟩ := h
  exact (mem_filter.mp he).2

def Accounted (h : PlannerHistory T) : Prop :=
  ∀ b ∈ h.db.bookings, FromAdmission h.db.planner h.admitted b

variable {h : PlannerHistory T}

theorem accounted_add [LinearOrder T] {P : Portion T} {req : AddRequest T} {ctx : AddContext T}
    (hacc : Accounted h) (hperm : ctx.listing.Perm h.db.planner)
    (hb : checkAdd P h.db.bookings req ctx = .ok b) :
    Accounted ⟨h.db.insertBooking b, h.admitted ++ [b]⟩ := by
  have hgrow : ∀ c, FromAdmission h.db.planner h.admitted c →
      FromAdmission h.db.planner (h.admitted ++ [b]) c := by
    rintro c ⟨hne, a, ha, hrest⟩
    exact ⟨hne, a, mem_append_left _ ha, hrest⟩
  unfold Db.insertBooking
  split
  · exact fun c hc => hgrow c (hacc c hc)
  · intro c hc
    rcases mem_append.mp hc with hc | hc
    · exact hgrow c (hacc c hc)
    · obtain rfl := mem_singleton.mp hc
      refine ⟨admitted_plans_ne_nil hb, c, mem_append_right _ (.head _), ?_,
        fun s hs => unitsFor_admitted hb hs⟩
      have hall : c.plans.filter (planExists h.db.planner) = c.plans := by
        apply filter_eq_self.mpr
        intro e he
        obtain ⟨p, hp, hid, _⟩ := checkAdd_entry hb he
        exact planExists_iff.mpr ⟨p, hperm.subset hp, hid⟩
      unfold trimmed
      rw [hall]

theorem accounted_deletePlan {planId : String} {db : Db T} (hacc : Accounted h)
    (hdel : deletePlan h.db planId = .ok db) : Accounted { h with db := db } := by
  unfold deletePlan at hdel
  split at hdel
  · obtain rfl := Except.ok.inj hdel
    intro b hb
    obtain ⟨hb, hkept⟩ := mem_filter.mp hb
    have hfrom := hacc b hb
    have hnot : ∀ e ∈ b.plans, e.planId ≠ planId := by simpa using hkept
    show FromAdmission _ _ { b with plans := b.plans }
    apply hfrom.trim _ _ hfrom.1
    · intro e he
      obtain ⟨p, hp, hid⟩ := planExists_iff.mp he
      exact planExists_iff.mpr ⟨p, mem_of_mem_filter hp, hid⟩
    · symm
      apply filter_eq_self.mpr
      intro e he
      obtain ⟨p, hp, hid⟩ := planExists_iff.mp (hfrom.exists he)
      have hne : p.id ≠ planId := hid ▸ hnot e he
      exact planExists_iff.mpr ⟨p, mem_filter.mpr ⟨hp, by simpa using hne⟩, hid⟩
  · cases hdel

theorem detachPlans_some {planIds : List String} {b' : Booking T}
    (h : detachPlans planIds b = some b') (hne : b.plans ≠ []) :
    b' = { b with plans := b.plans.filter fun e => decide (e.planId ∉ planIds) }
      ∧ b'.plans ≠ [] := by
  unfold detachPlans at h
  split at h
  · dsimp only at h
    split at h
    · cases h
    · next hsome =>
      cases h
      exact ⟨rfl, by simpa using hsome⟩
  · next hnone =>
    cases h
    have hall : b.plans.filter (fun e => decide (e.planId ∉ planIds)) = b.plans := by
      apply filter_eq_self.mpr
      intro e he
      have : ∀ e ∈ b.plans, e.planId ∉ planIds := by simpa using hnone
      simpa using this e he
    rw [hall]
    exact ⟨rfl, hne⟩

theorem accounted_deleteCardSubitemPlans (hacc : Accounted h) (itemId subitemId : String) :
    Accounted { h with db := (deleteCardSubitemPlans h.db itemId subitemId).1 } := by
  unfold deleteCardSubitemPlans
  dsimp only
  split
  · exact hacc
  · intro b' hb'
    obtain ⟨b, hb, hdetach⟩ := mem_filterMap.mp hb'
    have hfrom := hacc b hb
    obtain ⟨rfl, hne⟩ := detachPlans_some hdetach hfrom.1
    apply hfrom.trim _ _ hne
    · intro e he
      obtain ⟨p, hp, hid⟩ := planExists_iff.mp he
      exact planExists_iff.mpr ⟨p, mem_of_mem_filter hp, hid⟩
    · -- the plan of an entry exists, so it survives when its id is not removed
      apply filter_congr
      intro e he
      obtain ⟨p, hp, hid⟩ := planExists_iff.mp (hfrom.exists he)
      rw [Bool.eq_iff_iff, planExists_iff, decide_eq_true_eq]
      constructor
      · intro hnot
        exact ⟨p, mem_filter.mpr ⟨hp, by simpa [hid] using hnot⟩, hid⟩
      · rintro ⟨q, hq, hqid⟩
        have := (mem_filter.mp hq).2
        rw [hqid] at this
        simpa using this

theorem accounted_next [LinearOrder T] {P : Portion T} {h' : PlannerHistory T}
    {call : PlannerCall T} (hacc : Accounted h) (hnext : (plannerCalls P).next h call = some h') :
    Accounted h' := by
  cases call with
  | add req ctx =>
    simp only [plannerCalls] at hnext
    split at hnext
    · next hperm =>
      split at hnext
      · next db b hadd =>
        cases hnext
        obtain ⟨hb, rfl⟩ := add_ok hadd
        exact accounted_add hacc hperm hb
      · cases hnext
    · cases hnext
  | deletePlan planId =>
    simp only [plannerCalls] at hnext
    split at hnext
    · next db hdel =>
      cases hnext
      exact accounted_deletePlan hacc hdel
    · cases hnext
  | deleteCardSubitemPlans itemId subitemId =>
    cases hnext
    exact accounted_deleteCardSubitemPlans hacc itemId subitemId

/-- **Stored bookings account for what they were admitted with**: every entry refers to an
existing plan, none is empty, and the units of a profile are the booking's units less those
on plans that have been detached. -/
theorem plannerCalls_entries_of_admission [LinearOrder T] (P : Portion T) (planner : List (Plan T))
    (hnodup : IdsNodup planner) (calls : List (PlannerCall T)) (h : PlannerHistory T)
    (hrun : (plannerCalls P).run ⟨Db.ofPlanner planner hnodup, []⟩ calls = some h) :
    ∀ b ∈ h.db.bookings,
      b.plans ≠ []
        ∧ (∀ e ∈ b.plans, ∃ p ∈ h.db.planner, p.id = e.planId)
        ∧ ∃ a ∈ h.admitted, b = trimmed h.db.planner a
          ∧ (1 ≤ b.units → ∀ s ∈ b.vgpus,
              unitsFor b.plans s
                + unitsFor (a.plans.filter fun e => !planExists h.db.planner e) s = b.units) := by
  have hinit : Accounted (T := T) ⟨Db.ofPlanner planner hnodup, []⟩ := fun b hb => nomatch hb
  have hacc := (plannerCalls P).run_preserves Accounted (fun _ _ _ hs h => accounted_next hs h)
    hinit hrun
  intro b hb
  have hfrom := hacc b hb
  refine ⟨hfrom.1, fun e he => planExists_iff.mp (hfrom.exists he), ?_⟩
  obtain ⟨_, a, ha, rfl, hunits⟩ := hfrom
  refine ⟨a, ha, rfl, ?_⟩
  intro hpos s hs
  show unitsFor (a.plans.filter (planExists h.db.planner)) s + _ = a.units
  rw [unitsFor_filter_add, hunits s hs]
  exact max_eq_left hpos

def twoCards : List (Plan ℚ) :=
  [⟨"plan-1", .gpus, "card-1", "A40-8Q", 1, 0, 10, "admin", "available"⟩,
    ⟨"plan-2", .gpus, "card-2", "A40-8Q", 1, 0, 10, "admin", "available"⟩]

/-- A deployment of two desktops takes both cards; then the first card is detached. -/
def twoCardsCalls : List (PlannerCall ℚ) :=
  [.add ⟨"teacher", some (1, 4), .deployment, "deployment", "", false⟩
      ⟨true, .ok ⟨["A40-8Q"], 2, "Deployment"⟩, fun _ => 10, 5, 0, 0, "booking", twoCards⟩,
    .deleteCardSubitemPlans "card-1" "A40-8Q"]

def twoCardsBooking (plans : List PlanEntry) : Booking ℚ :=
  ⟨"booking", .deployment, "deployment", 2, ["A40-8Q"], 1, 4, "Deployment", "teacher", plans⟩

def twoCardsHistory : PlannerHistory ℚ where
  db :=
    ⟨[⟨"plan-2", .gpus, "card-2", "A40-8Q", 1, 0, 10, "admin", "available"⟩],
      [twoCardsBooking [⟨"plan-2", "card-2", "A40-8Q", 10, 1⟩]], by decide⟩
  admitted :=
    [twoCardsBooking
      [⟨"plan-1", "card-1", "A40-8Q", 10, 1⟩, ⟨"plan-2", "card-2", "A40-8Q", 10, 1⟩]]

theorem twoCardsCalls_run :
    (plannerCalls (Portion.pieces ℚ)).run ⟨Db.ofPlanner twoCards (by decide), []⟩ twoCardsCalls
      = some twoCardsHistory := by
  rfl

theorem plannerCalls_entries_of_admission_twoCards :
    ∃ a ∈ twoCardsHistory.admitted,
      unitsFor [⟨"plan-2", "card-2", "A40-8Q", 10, 1⟩] "A40-8Q"
        + unitsFor (a.plans.filter fun e => !planExists twoCardsHistory.db.planner e) "A40-8Q"
        = 2 := by
  obtain ⟨_, _, a, ha, _, hsum⟩ := plannerCalls_entries_of_admission (Portion.pieces ℚ) twoCards
    (by decide) twoCardsCalls twoCardsHistory twoCardsCalls_run _ (.head _)
  exact ⟨a, ha, hsum (by decide) "A40-8Q" (by decide)⟩

/-- After the detach the booking of two units holds one. -/
theorem plannerCalls_detach_leaves_fewer :
    (plannerCalls (Portion.pieces ℚ)).run ⟨Db.ofPlanner twoCards (by decide), []⟩ twoCardsCalls
        = some twoCardsHistory
      ∧ ∃ b ∈ twoCardsHistory.db.bookings, "A40-8Q" ∈ b.vgpus
        ∧ b.units = 2 ∧ unitsFor b.plans "A40-8Q" = 1 :=
  ⟨twoCardsCalls_run, _, .head _, by decide, rfl, by decide⟩

end IsardVDI.Bookings
