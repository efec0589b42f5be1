import IsardVDI.Bookings.PlannerCompute
import IsardVDI.Lib.Machine
import Mathlib.Algebra.Order.Field.Basic

/-!
# Bookings — admission and removal

`Bookings.add` and `Bookings.delete` over the two tables, and what admission guarantees:
no plan is overbooked against the bookings that may not be displaced.

* **`add`**, **`delete`** — the calls. A call that raises still returns the tables it
  leaves behind: a booking "now" of a deployment is refused only after the insert.
-/

namespace IsardVDI.Bookings

open List

variable {T : Type} [LinearOrder T]

/-! ## The calls -/

/-- The errors of `add` and `delete`, by description code. -/
inductive BookingError where
  | forbidden
  | noReservables
  | bookingMaxItemsExceeded (userId : String)
  | invalidBookingDate
  | bookingExceedsMaxTime
  | bookingDoesNotFitDate
  | bookingNowInDeployment
  | notFound
  | bookingDesktopDeleteStop
  | bookingDeploymentDeleteStop
  deriving DecidableEq, Repr

/-- The result of `_get_reservables`. -/
structure Reservables where
  vgpus : List String
  units : Int
  itemName : String
  deriving DecidableEq, Repr

/-- The arguments of `add`. `dates` is `none` when one of the two does not parse. -/
structure AddRequest (T : Type) where
  userId : String
  dates : Option (T × T)
  itemType : BookedItem
  itemId : String
  title : String
  now : Bool

/-- What `add` reads besides the bookings: the owner check, `_get_reservables`, the
priorities of `get_user_priority`, the latest end of a booking that starts now, the clock,
the new uuid and the listing of the planner table. -/
structure AddContext (T : Type) where
  owns : Bool
  reservables : Except BookingError Reservables
  priority : String → Int
  maxItems : Int
  startNowEnd : T
  clock : T
  id : String
  listing : List (Plan T)

def getTotalUserBookingsCount (bookings : List (Booking T)) (userId : String) (now : T) : Int :=
  (bookings.filter fun b => decide (b.userId = userId) && decide (now < b.start)).length

def newPlanEntry (priority : String → Int) (item : ChosenPlan T) : PlanEntry where
  planId := item.plan.id
  itemId := item.plan.itemId
  subitemId := item.plan.subitemId
  priority := priority item.plan.subitemId
  unitsBooked := item.unitsBooked

def newPlanning (priority : String → Int) (plans : List (String × List (ChosenPlan T))) :
    List PlanEntry :=
  plans.flatMap fun kv => kv.2.map (newPlanEntry priority)

/-- `add` up to the insert: the booking that is written. -/
def checkAdd (P : Portion T) (bookings : List (Booking T)) (req : AddRequest T)
    (ctx : AddContext T) : Except BookingError (Booking T) := do
  if !ctx.owns then throw .forbidden
  let reservables ← ctx.reservables
  if ctx.maxItems ≤ getTotalUserBookingsCount bookings req.userId ctx.clock then
    throw (.bookingMaxItemsExceeded req.userId)
  let some (start, end_) := req.dates | throw .invalidBookingDate
  if req.now && decide (ctx.startNowEnd < end_) then throw .bookingExceedsMaxTime
  let plans := newBookingPlans P ctx.listing bookings ctx.clock ctx.priority reservables.vgpus
    start end_ reservables.units
  if plans.isEmpty || plans.any (fun kv => kv.2.isEmpty) then throw .bookingDoesNotFitDate
  return {
    id := ctx.id
    itemType := req.itemType
    itemId := req.itemId
    units := reservables.units
    vgpus := reservables.vgpus
    start := start
    end_ := end_
    title := if req.title = "" then reservables.itemName else req.title
    userId := req.userId
    plans := newPlanning ctx.priority plans }

def add (P : Portion T) (db : Db T) (req : AddRequest T) (ctx : AddContext T) :
    Db T × Except BookingError (Booking T) :=
  match checkAdd P db.bookings req ctx with
  | .error e => (db, .error e)
  | .ok b =>
    if req.now && decide (req.itemType = .deployment) then
      (db.insertBooking b, .error .bookingNowInDeployment)
    else (db.insertBooking b, .ok b)

/-- `add` with the `booking_id` of the domains: a booking of a desktop that starts now sets it. -/
def addAndSet (P : Portion T) (db : Db T) (domains : String → Option String) (req : AddRequest T)
    (ctx : AddContext T) : Db T × (String → Option String) × Except BookingError (Booking T) :=
  match add P db req ctx with
  | (db, .error e) => (db, domains, .error e)
  | (db, .ok b) =>
    if req.now && decide (req.itemType = .desktop) then
      (db, Function.update domains req.itemId (some b.id), .ok b)
    else (db, domains, .ok b)

/-- `delete`. `stopped` says whether the desktops of the booked item are all stopped or
failed. -/
def delete (db : Db T) (id : String) (clock : T) (stopped : Bool) :
    Db T × Except BookingError Unit :=
  match db.bookings.find? fun b => b.id = id with
  | none => (db, .error .notFound)
  | some b =>
    if decide (b.start ≤ clock) && decide (clock ≤ b.end_) && !stopped then
      match b.itemType with
      | .desktop => (db, .error .bookingDesktopDeleteStop)
      | .deployment => (db, .error .bookingDeploymentDeleteStop)
    else (db.deleteBookingRow id, .ok ())

/-! ## What an admitted booking looks like -/

variable {P : Portion T} {bookings : List (Booking T)} {req : AddRequest T} {ctx : AddContext T}
  {b : Booking T} {e : PlanEntry} {db db' : Db T}

theorem checkAdd_ok (h : checkAdd P bookings req ctx = .ok b) :
    req.dates = some (b.start, b.end_)
      ∧ b.id = ctx.id
      ∧ newBookingPlans P ctx.listing bookings ctx.clock ctx.priority b.vgpus b.start b.end_
          b.units ≠ []
      ∧ b.plans = newPlanning ctx.priority (newBookingPlans P ctx.listing bookings ctx.clock
          ctx.priority b.vgpus b.start b.end_ b.units) := by
  unfold checkAdd at h
  cases howns : ctx.owns with
  | false => simp [howns, throw, throwThe, MonadExceptOf.throw, bind, Except.bind] at h
  | true =>
    cases hres : ctx.reservables with
    | error e => simp [howns, hres, bind, Except.bind] at h
    | ok reservables =>
      cases hdates : req.dates with
      | none =>
        simp only [howns, hres, hdates, bind, Except.bind, throw, throwThe,
          MonadExceptOf.throw, Bool.not_true, Bool.false_eq_true, if_false] at h
        split at h <;> cases h
      | some dates =>
        simp only [howns, hres, hdates, bind, Except.bind, pure, Except.pure, throw, throwThe,
          MonadExceptOf.throw, Bool.not_true, Bool.false_eq_true, if_false] at h
        split at h
        · cases h
        split at h
        · cases h
        split at h
        · cases h
        · next hfits =>
          obtain rfl := Except.ok.inj h
          refine ⟨rfl, rfl, ?_, rfl⟩
          intro hnil
          exact hfits (by rw [hnil]; rfl)

omit [LinearOrder T] in
theorem mem_newPlanning {priority : String → Int} {plans : List (String × List (ChosenPlan T))} :
    e ∈ newPlanning priority plans ↔ ∃ s chosen, (s, chosen) ∈ plans
      ∧ ∃ c ∈ chosen, e = newPlanEntry priority c := by
  simp only [newPlanning, mem_flatMap, mem_map, Prod.exists, eq_comm]

theorem checkAdd_entry (h : checkAdd P bookings req ctx = .ok b) (he : e ∈ b.plans) :
    ∃ plan ∈ ctx.listing, plan.id = e.planId ∧ plan.itemId = e.itemId
      ∧ plan.subitemId = e.subitemId ∧ e.subitemId ∈ b.vgpus ∧ 1 ≤ e.unitsBooked
      ∧ e.unitsBooked ≤ availInPlan P bookings e.subitemId e.priority b.start b.end_ plan := by
  obtain ⟨_, _, hne, hplans⟩ := checkAdd_ok h
  obtain ⟨heq, _, _, _⟩ := newBookingPlans_spec P hne
  rw [hplans, heq] at he
  obtain ⟨s, chosen, hs, c, hc, rfl⟩ := mem_newPlanning.mp he
  obtain ⟨s', hs', hpair⟩ := mem_map.mp hs
  obtain ⟨rfl, rfl⟩ := Prod.mk.inj hpair
  obtain ⟨_, before, after, hsplit, havail, hroom, hunits⟩ :=
    (mem_getSamePlansForBooking P).mp hc
  obtain ⟨hlisted, rfl⟩ := plan_of_mem_plansForSubitem P hc
  have hpos : 1 ≤ c.unitsBooked := by omega
  have hle : c.unitsBooked ≤ availInPlan P bookings c.plan.subitemId
      (ctx.priority c.plan.subitemId) b.start b.end_ c.plan := by
    rw [hunits]
    exact min_le_left _ _
  exact ⟨c.plan, hlisted, rfl, rfl, rfl, hs', hpos, hle⟩

theorem checkAdd_cards_nodup (h : checkAdd P bookings req ctx = .ok b) :
    (b.plans.map PlanEntry.itemId).Nodup := by
  obtain ⟨_, _, hne, hplans⟩ := checkAdd_ok h
  obtain ⟨_, _, _, hcards⟩ := newBookingPlans_spec P hne
  have heq : b.plans.map PlanEntry.itemId
      = (newBookingPlans P ctx.listing bookings ctx.clock ctx.priority b.vgpus b.start b.end_
          b.units).flatMap fun kv => kv.2.map fun c => c.plan.itemId := by
    rw [hplans, newPlanning, map_flatMap]
    simp only [map_map, Function.comp_def, newPlanEntry]
  rw [heq]
  exact hcards

theorem add_cases (P : Portion T) (db : Db T) (req : AddRequest T) (ctx : AddContext T) :
    (add P db req ctx).1 = db
      ∨ ∃ b, checkAdd P db.bookings req ctx = .ok b
        ∧ (add P db req ctx).1 = db.insertBooking b := by
  unfold add
  cases h : checkAdd P db.bookings req ctx with
  | error e => exact .inl rfl
  | ok b =>
    refine .inr ⟨b, rfl, ?_⟩
    dsimp only
    split <;> rfl

theorem add_ok (h : add P db req ctx = (db', .ok b)) :
    checkAdd P db.bookings req ctx = .ok b ∧ db' = db.insertBooking b := by
  unfold add at h
  cases hcheck : checkAdd P db.bookings req ctx with
  | error e =>
    rw [hcheck] at h
    cases h
  | ok c =>
    simp only [hcheck] at h
    split at h
    · cases h
    · cases h
      exact ⟨rfl, rfl⟩

omit [LinearOrder T] in
theorem insertBooking_ne (hfresh : ∀ c ∈ db.bookings, c.id ≠ b.id) : db.insertBooking b ≠ db := by
  intro heq
  have hnot : ¬ (db.bookings.any fun c => c.id = b.id) = true := by simpa using hfresh
  rw [Db.insertBooking, if_neg hnot] at heq
  simpa using congrArg (fun db => db.bookings.length) heq

/-- **When an `add` that raises has written nothing.** Every check comes before the insert, but
that of a booking that starts now in a deployment. -/
theorem addAndSet_unchanged_iff {domains domains' : String → Option String} {err : BookingError}
    (hfresh : ∀ c ∈ db.bookings, c.id ≠ ctx.id)
    (h : addAndSet P db domains req ctx = (db', domains', .error err)) :
    (db' = db ∧ domains' = domains)
      ↔ ¬ (req.now = true ∧ req.itemType = .deployment
        ∧ ∃ b, checkAdd P db.bookings req ctx = .ok b) := by
  unfold addAndSet add at h
  cases hcheck : checkAdd P db.bookings req ctx with
  | error e =>
    simp only [hcheck] at h
    cases h
    simp
  | ok b =>
    by_cases hlate : (req.now && decide (req.itemType = .deployment)) = true
    · simp only [hcheck, hlate, if_true] at h
      cases h
      obtain ⟨hnow, hdeployment⟩ := Bool.and_eq_true_iff.mp hlate
      refine iff_of_false (fun hsame => insertBooking_ne ?_ hsame.1)
        fun hok => hok ⟨hnow, of_decide_eq_true hdeployment, b, rfl⟩
      rwa [(checkAdd_ok hcheck).2.1]
    · simp only [hcheck, hlate, Bool.false_eq_true, if_false] at h
      split at h
      · cases h
      · cases h

theorem delete_cases (db : Db T) (id : String) (clock : T) (stopped : Bool) :
    (delete db id clock stopped).1 = db
      ∨ (delete db id clock stopped).1 = db.deleteBookingRow id := by
  unfold delete
  split
  · exact .inl rfl
  · split
    · split <;> exact .inl rfl
    · exact .inr rfl

/-! ## Runs -/

inductive BookingCall (T : Type) where
  | add (req : AddRequest T) (ctx : AddContext T)
  | delete (id : String) (clock : T) (stopped : Bool)

def AddRequest.ordered (req : AddRequest T) : Bool := req.dates.all fun d => d.1 ≤ d.2

/-- Calls of `add` and `delete` in any order. The planner table may be listed differently
at each call. -/
def bookingCalls (P : Portion T) : Machine (Db T) (BookingCall T) where
  next db
    | .add req ctx =>
      if req.ordered ∧ ctx.listing.Perm db.planner then some (add P db req ctx).1 else none
    | .delete id clock stopped => some (delete db id clock stopped).1

theorem bookingCalls_next {call : BookingCall T} (h : (bookingCalls P).next db call = some db') :
    db' = db
      ∨ (∃ req ctx b, ctx.listing.Perm db.planner ∧ checkAdd P db.bookings req ctx = .ok b
          ∧ db' = { db with bookings := db.bookings ++ [b] })
      ∨ (∃ id, db' = db.deleteBookingRow id) := by
  cases call with
  | add req ctx =>
    simp only [bookingCalls] at h
    split at h
    · next hguard =>
      cases h
      rcases add_cases P db req ctx with heq | ⟨b, hb, heq⟩
      · exact .inl heq
      · rw [heq]
        unfold Db.insertBooking
        split
        · exact .inl rfl
        · exact .inr (.inl ⟨req, ctx, b, hguard.2, hb, rfl⟩)
    · cases h
  | delete id clock stopped =>
    cases h
    rcases delete_cases db id clock stopped with heq | heq
    · exact .inl heq
    · exact .inr (.inr ⟨id, heq⟩)

/-! ## No overbooking

The units a booking takes are bounded when it is admitted by the plan's units minus what
earlier bookings of at least its priority hold at any instant of its window
(`heldUnits_le_count`). Later admissions come after it in the list and removals only lower
the sum. -/

/-- On every plan a booking holds, at every instant of its window, the bookings admitted up
to it with at least its priority hold no more than the plan's units. -/
def NotOverbooked (db : Db T) : Prop :=
  ∀ before b after, db.bookings = before ++ b :: after →
    ∀ plan ∈ db.planner, ∀ e ∈ b.plans, e.planId = plan.id →
      ∀ t, b.start ≤ t → t ≤ b.end_ →
        heldUnits (before ++ [b]) plan.id e.priority t ≤ plan.units

structure Ledger (db : Db T) : Prop where
  positive : ∀ b ∈ db.bookings, ∀ e ∈ b.plans, 1 ≤ e.unitsBooked
  profile : ∀ b ∈ db.bookings, ∀ e ∈ b.plans, ∀ plan ∈ db.planner, e.planId = plan.id →
    plan.subitemId ∈ b.vgpus
  notOverbooked : NotOverbooked db

theorem heldUnits_append (l m : List (Booking T)) (planId : String) (priority : Int) (t : T) :
    heldUnits (l ++ m) planId priority t
      = heldUnits l planId priority t + heldUnits m planId priority t := by
  simp [heldUnits]

omit [LinearOrder T] in
theorem heldOn_nonneg (hpos : ∀ e ∈ b.plans, 1 ≤ e.unitsBooked) (planId : String) (priority : Int) :
    0 ≤ b.heldOn planId priority := by
  apply sum_nonneg
  intro x hx
  obtain ⟨e, he, rfl⟩ := mem_map.mp hx
  have := hpos e he
  split <;> omega

theorem heldUnits_filter_le {l : List (Booking T)}
    (hpos : ∀ b ∈ l, ∀ e ∈ b.plans, 1 ≤ e.unitsBooked) (keep : Booking T → Bool)
    (planId : String) (priority : Int) (t : T) :
    heldUnits (l.filter keep) planId priority t ≤ heldUnits l planId priority t := by
  apply Sublist.sum_le_sum (filter_sublist.map _)
  intro x hx
  obtain ⟨b, hb, rfl⟩ := mem_map.mp hx
  have := heldOn_nonneg (hpos b hb) planId priority
  split <;> omega

omit [LinearOrder T] in
theorem heldOn_le_of_nodup (hnodup : (b.plans.map PlanEntry.planId).Nodup) (he : e ∈ b.plans)
    (priority : Int) (hpos : 0 ≤ e.unitsBooked) : b.heldOn e.planId priority ≤ e.unitsBooked := by
  unfold Booking.heldOn
  generalize b.plans = entries at hnodup he
  induction entries with
  | nil => cases he
  | cons f entries ih =>
    rw [map_cons, nodup_cons] at hnodup
    rw [map_cons, sum_cons]
    rcases mem_cons.mp he with rfl | he
    · have hzero : (entries.map fun f => if f.planId = e.planId ∧ priority ≤ f.priority
          then f.unitsBooked else 0).sum = 0 := by
        apply sum_eq_zero
        intro x hx
        obtain ⟨f, hf, rfl⟩ := mem_map.mp hx
        apply if_neg
        intro ⟨hplan, _⟩
        exact hnodup.1 (hplan ▸ mem_map_of_mem hf)
      rw [hzero]
      split <;> omega
    · have hother : f.planId ≠ e.planId := fun hplan =>
        hnodup.1 (hplan ▸ mem_map_of_mem he)
      rw [if_neg fun h => hother h.1, zero_add]
      exact ih hnodup.2 he

theorem checkAdd_plans_nodup (hperm : ctx.listing.Perm db.planner)
    (h : checkAdd P db.bookings req ctx = .ok b) : (b.plans.map PlanEntry.planId).Nodup := by
  have hcards := checkAdd_cards_nodup h
  apply Nodup.map_on _ (Nodup.of_map _ hcards)
  intro e he f hf hid
  obtain ⟨p, hp, hpid, hpcard, _⟩ := checkAdd_entry h he
  obtain ⟨q, hq, hqid, hqcard, _⟩ := checkAdd_entry h hf
  have hpq : p = q := db.plannerNodup.eq_of_id (hperm.subset hp) (hperm.subset hq)
    (by rw [hpid, hqid, hid])
  apply inj_on_of_nodup_map hcards he hf
  rw [← hpcard, ← hqcard, hpq]

theorem ledger_add (hledger : Ledger db) (hperm : ctx.listing.Perm db.planner)
    (h : checkAdd P db.bookings req ctx = .ok b) :
    Ledger { db with bookings := db.bookings ++ [b] } where
  positive := by
    intro c hc e he
    rcases mem_append.mp hc with hc | hc
    · exact hledger.positive c hc e he
    · obtain rfl := mem_singleton.mp hc
      obtain ⟨_, _, _, _, _, _, hpos, _⟩ := checkAdd_entry h he
      exact hpos
  profile := by
    intro c hc e he plan hplan hid
    rcases mem_append.mp hc with hc | hc
    · exact hledger.profile c hc e he plan hplan hid
    · obtain rfl := mem_singleton.mp hc
      obtain ⟨p, hp, hpid, _, hsub, hreq, _⟩ := checkAdd_entry h he
      obtain rfl := db.plannerNodup.eq_of_id (hperm.subset hp) hplan (by rw [hpid, hid])
      rwa [hsub]
  notOverbooked := by
    intro before c after heq plan hplan e he hid t hstart hend
    rcases eq_nil_or_concat after with rfl | ⟨after, d, rfl⟩
    · -- the new booking itself
      obtain ⟨rfl, hb⟩ := append_inj' heq rfl
      obtain rfl := singleton_inj.mp hb
      obtain ⟨p, hp, hpid, _, hsub, _, hpos, havail⟩ := checkAdd_entry h he
      obtain rfl := db.plannerNodup.eq_of_id (hperm.subset hp) hplan (by rw [hpid, hid])
      have hheld : heldUnits db.bookings p.id e.priority t ≤ _ :=
        heldUnits_le_count P hledger.positive
          (fun c hc f hf hf' => hledger.profile c hc f hf p hplan hf') hstart hend
      have hown := heldOn_le_of_nodup (checkAdd_plans_nodup hperm h) he e.priority (by omega)
      rw [heldUnits_append, heldUnits_cons, if_pos ⟨hstart, hend⟩]
      rw [hsub] at hheld
      rw [hid] at hown
      unfold availInPlan at havail
      show _ + (_ + (0 : Int)) ≤ _
      omega
    · -- a booking that was there already
      have hbefore : db.bookings = before ++ c :: after := by
        have : db.bookings ++ [b] = (before ++ c :: after) ++ [d] := by
          simpa using heq
        exact (append_inj' this rfl).1
      exact hledger.notOverbooked before c after hbefore plan hplan e he hid t hstart hend

theorem ledger_delete (hledger : Ledger db) (id : String) : Ledger (db.deleteBookingRow id) where
  positive b hb := hledger.positive b (mem_of_mem_filter hb)
  profile b hb := hledger.profile b (mem_of_mem_filter hb)
  notOverbooked := by
    intro before b after heq plan hplan e he hid t hstart hend
    -- the bookings kept before `b` are among those that stood before it
    obtain ⟨l, m, hl, rfl, hm⟩ := filter_eq_append_iff.mp heq
    obtain ⟨n, after', rfl, hn, hb, _⟩ := filter_eq_cons_iff.mp hm
    have hold := hledger.notOverbooked (l ++ n) b after' (by rw [hl, append_assoc]) plan
      hplan e he hid t hstart hend
    have hpos : ∀ c ∈ l, ∀ e ∈ c.plans, 1 ≤ e.unitsBooked := fun c hc =>
      hledger.positive c (by rw [hl]; exact mem_append_left _ hc)
    have hposn : ∀ c ∈ n, ∀ e ∈ c.plans, 1 ≤ e.unitsBooked := fun c hc =>
      hledger.positive c (by
        rw [hl]; exact mem_append_right _ (mem_append_left _ hc))
    have hfilter := heldUnits_filter_le hpos (fun b => decide (b.id ≠ id)) plan.id e.priority t
    have hskipped : 0 ≤ heldUnits n plan.id e.priority t :=
      le_trans (le_of_eq (by simp [heldUnits]))
        (heldUnits_filter_le hposn (fun _ => false) plan.id e.priority t)
    rw [heldUnits_append] at hold ⊢
    rw [heldUnits_append] at hold
    omega

theorem ledger_next {call : BookingCall T} (hledger : Ledger db)
    (h : (bookingCalls P).next db call = some db') : Ledger db' := by
  rcases bookingCalls_next h with rfl | ⟨req, ctx, b, hperm, hb, rfl⟩ | ⟨id, rfl⟩
  · exact hledger
  · exact ledger_add hledger hperm hb
  · exact ledger_delete hledger id

/-- **No plan is overbooked against bookings that may not be displaced**, whatever the
calls, the priorities, the listings and the planner table. -/
theorem bookingCalls_notOverbooked (P : Portion T) (planner : List (Plan T))
    (hnodup : IdsNodup planner) (calls : List (BookingCall T)) (db : Db T)
    (hrun : (bookingCalls P).run (Db.ofPlanner planner hnodup) calls = some db) :
    NotOverbooked db := by
  have hinit : Ledger (Db.ofPlanner planner hnodup) :=
    { positive := fun b hb => nomatch hb
      profile := fun b hb => nomatch hb
      notOverbooked := fun before b after heq => by cases before <;> cases heq }
  exact ((bookingCalls P).run_preserves Ledger (fun _ _ _ hs h => ledger_next hs h) hinit
    hrun).notOverbooked
/-- A card that offers two units of a profile from instant 0 to instant 10. -/
def a40Planner : List (Plan ℚ) :=
  [⟨"plan", .gpus, "card", "A40-8Q", 2, 0, 10, "admin", "available"⟩]

def a40Add (id user : String) (priority : Int) (start end_ : ℚ) : BookingCall ℚ :=
  .add ⟨user, some (start, end_), .desktop, "desktop-" ++ id, "", false⟩
    ⟨true, .ok ⟨["A40-8Q"], 1, "Desktop"⟩, fun _ => priority, 5, 0, 0, id, a40Planner⟩

def a40Booking (id user : String) (priority : Int) (start end_ : ℚ) : Booking ℚ :=
  ⟨id, .desktop, "desktop-" ++ id, 1, ["A40-8Q"], start, end_, "Desktop", user,
    [⟨"plan", "card", "A40-8Q", priority, 1⟩]⟩

def a40Deployment (now : Bool) (end_ : ℚ) :
    Db ℚ × (String → Option String) × Except BookingError (Booking ℚ) :=
  addAndSet (Portion.pieces ℚ) (Db.ofPlanner a40Planner (by decide)) (fun _ => none)
    ⟨"u1", some (1, end_), .deployment, "deployment", "", now⟩
    ⟨true, .ok ⟨["A40-8Q"], 1, "Deployment"⟩, fun _ => 10, 5, 9, 0, "b1", a40Planner⟩

/-- From now on: the call raises, and the booking is there. -/
theorem a40Deployment_now : ∃ db' domains',
    a40Deployment true 4 = (db', domains', .error .bookingNowInDeployment)
      ∧ db'.bookings.length = 1 :=
  ⟨_, _, rfl, rfl⟩

theorem a40Deployment_unfit : ∃ db' domains',
    a40Deployment false 14 = (db', domains', .error .bookingDoesNotFitDate)
      ∧ db' = Db.ofPlanner a40Planner (by decide) ∧ domains' = fun _ => none := by
  have hcall : a40Deployment false 14 = (_, _, .error .bookingDoesNotFitDate) := rfl
  refine ⟨_, _, hcall, (addAndSet_unchanged_iff (fun c hc => ?_) hcall).mpr fun h => ?_⟩
  · cases hc
  · cases h.1

/-- Two bookings fill the card, a third of the same priority is refused, one of a higher
priority displaces, and the first is removed. -/
def a40Calls : List (BookingCall ℚ) :=
  [a40Add "b1" "u1" 10 1 4, a40Add "b2" "u2" 10 3 6, a40Add "b3" "u3" 10 3 4,
    a40Add "b4" "u4" 20 2 5, .delete "b1" 0 true]

def a40Db : Db ℚ :=
  ⟨a40Planner, [a40Booking "b2" "u2" 10 3 6, a40Booking "b4" "u4" 20 2 5], by decide⟩

theorem a40Calls_run :
    (bookingCalls (Portion.pieces ℚ)).run (Db.ofPlanner a40Planner (by decide)) a40Calls
      = some a40Db := by
  rfl

theorem bookingCalls_notOverbooked_a40 : NotOverbooked a40Db :=
  bookingCalls_notOverbooked (Portion.pieces ℚ) a40Planner (by decide) a40Calls a40Db
    a40Calls_run

end IsardVDI.Bookings
