import IsardVDI.Bookings.PlannerCompute
import IsardVDI.Lib.Fallible

/-!
# Bookings — the windows offered for a booking

The stages of `booking_provisioning`: the plans of a profile are summed, the profiles
intersected, the bookings of others laid over the plans, the item's own bookings cut out and
the rest joined. Each stage overlays windows and returns the pieces with their bounds closed,
so that an instant which bounds no window lies in the pieces that hold its value.

Of the windows only what a later stage reads is kept: `join_consecutive_plans` replaces the
units and the ids of those that are already classified.

* **`Profiles.windows_min_of_sums`** — the units offered are the least of the profiles' sums.
-/

namespace IsardVDI.Bookings

open List Portion

variable {T : Type} [LinearOrder T] {P : Portion T} {t : T}

/-! ## Windows and their pieces -/

def Segment.interval (s : Segment T) : Interval T := .closed s.start s.end_

inductive EventType
  | available
  | overridable
  | unavailable
  deriving DecidableEq, Repr

structure Window (T : Type) where
  start : T
  end_ : T
  eventType : EventType
  deriving DecidableEq, Repr

def Window.interval (w : Window T) : Interval T := .closed w.start w.end_

/-- The instant is an endpoint of one of the windows. -/
def Bound (l : List (Interval T)) (x : T) : Prop := ∃ i ∈ l, i.lower = x ∨ i.upper = x

instance (l : List (Interval T)) (x : T) : Decidable (Bound l x) :=
  inferInstanceAs (Decidable (∃ i ∈ l, _))

def DisjointInteriors (l : List (Interval T)) : Prop :=
  l.Pairwise fun i j => ∀ x, ¬ ((i.lower < x ∧ x < i.upper) ∧ j.lower < x ∧ x < j.upper)

omit [LinearOrder T] in
theorem within_bound {l : List (Interval T)} {i : Interval T} (hi : i ∈ l) :
    i.Within (Bound l) :=
  ⟨⟨i, hi, .inl rfl⟩, i, hi, .inr rfl⟩

theorem exists_piece_iff {V : Type} {d : P.IntervalDict V} {B : T → Prop}
    (hB : ∀ p ∈ P.items d, p.1.Within B) (ht : ¬ B t) {v : V} :
    (∃ p ∈ sortedAtomicItems P d, t ∈ Interval.closed p.1.lower p.1.upper ∧ p.2 = v)
      ↔ P.get d t = some v := by
  simpa only [sortedAtomicItems, mem_insertionSort, Interval.mem_closed]
    using P.exists_item_iff hB ht

/-! ## Profiles -/

/-- `intersect_same_subitem_plan` as `booking_provisioning` calls it, which keeps the parts
that do not overlap. -/
def intersectSameSubitemPlan (P : Portion T) (plan : List (Segment T)) (planName : String) :
    List (Segment T) :=
  (sortedAtomicItems P (intersectPlans P plan)).map fun item =>
    ⟨⟨item.2.unitsBooked, planName⟩, item.1.lower, item.1.upper⟩

structure SubitemUnits where
  units : Int
  id : String
  subitems : Finset String

def minPlanOp (x y : SubitemUnits) : SubitemUnits where
  units := min x.units y.units
  id := x.id ++ "/" ++ y.id
  subitems := x.subitems ∪ y.subitems

def taggedWindow (w : String × Segment T) : Interval T × SubitemUnits :=
  (w.2.interval,
    ⟨w.2.units.unitsBooked, w.2.units.planId, if w.1 = "" then ∅ else {w.1}⟩)

def intersectDifferentSubitemPlan (P : Portion T) (plan : List (String × Segment T))
    (expectedSubitems : Nat) : List (Segment T) :=
  ((sortedAtomicItems P (P.overlayAll minPlanOp P.empty (plan.map taggedWindow))).filter
    fun item => decide (expectedSubitems ≤ item.2.subitems.card)).map fun item =>
      ⟨⟨item.2.units, item.2.id⟩, item.1.lower, item.1.upper⟩

/-- The requested profiles, each with its plans: `resource_planner` is keyed by profile. -/
structure Profiles (T : Type) where
  list : List (String × List (Segment T))
  nonempty : list ≠ []
  distinct : (list.map Prod.fst).Nodup
  named : ∀ f ∈ list, f.1 ≠ ""

namespace Profiles

def plans (F : Profiles T) : List (Segment T) := F.list.flatMap Prod.snd

def tagged (P : Portion T) (F : Profiles T) : List (String × Segment T) :=
  F.list.flatMap fun f => (intersectSameSubitemPlan P f.2 f.1).map fun w => (f.1, w)

def windows (P : Portion T) (F : Profiles T) : List (Segment T) :=
  intersectDifferentSubitemPlan P (F.tagged P) F.list.length

end Profiles

theorem intersectPlans_eq (plan : List (Segment T)) : intersectPlans P plan
    = P.overlayAll joinPlanOp P.empty (plan.map fun s => (s.interval, s.units)) := by
  rw [overlayAll, foldl_map]
  rfl

section SameSubitem

variable {plan : List (Segment T)} {B : T → Prop}
  (hP : P.Sharp) (hplan : ∀ s ∈ plan, s.interval.Within B)

include hP hplan

theorem intersectPlans_within : ∀ p ∈ P.items (intersectPlans P plan), p.1.Within B := by
  rw [intersectPlans_eq]
  refine hP.overlayAll (by simp [items_empty]) fun p hp => ?_
  obtain ⟨s, hs, rfl⟩ := mem_map.mp hp
  exact hplan s hs

theorem intersectSame_within {name : String} :
    ∀ w ∈ intersectSameSubitemPlan P plan name, w.interval.Within B := by
  intro w hw
  obtain ⟨p, hp, rfl⟩ := mem_map.mp hw
  exact intersectPlans_within hP hplan p (mem_insertionSort _ |>.mp hp)

theorem exists_intersectSame_iff (ht : ¬ B t) (name : String) (u : BookedUnits) :
    (∃ w ∈ intersectSameSubitemPlan P plan name, t ∈ w.interval ∧ w.units = u)
      ↔ (∃ s ∈ plan, t ∈ s.interval) ∧ u = ⟨bookedAt plan t, name⟩ := by
  have hsome : (∃ v, P.get (intersectPlans P plan) t = some v) ↔ ∃ s ∈ plan, t ∈ s.interval := by
    simp [intersectPlans_eq, exists_get_overlayAll, P.get_empty]
  have hunits := unitsOf_get_intersectPlans P plan t
  have hpiece := fun v => exists_piece_iff (v := v) (intersectPlans_within hP hplan) ht
  constructor
  · rintro ⟨_, hw, hin, rfl⟩
    obtain ⟨p, hp, rfl⟩ := mem_map.mp hw
    have hget := (hpiece p.2).mp ⟨p, hp, hin, rfl⟩
    exact ⟨hsome.mp ⟨_, hget⟩, by rw [← hunits, hget, unitsOf]⟩
  · rintro ⟨hcovered, rfl⟩
    obtain ⟨v, hget⟩ := hsome.mpr hcovered
    obtain ⟨p, hp, hin, rfl⟩ := (hpiece v).mpr hget
    refine ⟨_, mem_map_of_mem hp, hin, ?_⟩
    rw [← hunits, hget, unitsOf]

end SameSubitem

theorem foldl_minPlanOp (vs : List SubitemUnits) (v : SubitemUnits) :
    (∃ w ∈ v :: vs, (vs.foldl minPlanOp v).units = w.units)
      ∧ (∀ w ∈ v :: vs, (vs.foldl minPlanOp v).units ≤ w.units)
      ∧ ∀ x, x ∈ (vs.foldl minPlanOp v).subitems ↔ ∃ w ∈ v :: vs, x ∈ w.subitems := by
  induction vs generalizing v with
  | nil => simp
  | cons w vs ih =>
    obtain ⟨hat, hle, hsub⟩ := ih (minPlanOp v w)
    simp only [mem_cons, exists_eq_or_imp, forall_eq_or_imp] at hat hle hsub ⊢
    rw [foldl_cons]
    have hmin : (minPlanOp v w).units = min v.units w.units := rfl
    refine ⟨?_, ⟨?_, ?_, hle.2⟩, fun x => ?_⟩
    · rcases hat with hat | hat
      · rcases min_choice v.units w.units with h | h
        · exact .inl (by rw [hat, hmin, h])
        · exact .inr (.inl (by rw [hat, hmin, h]))
      · exact .inr (.inr hat)
    · exact hle.1.trans (min_le_left _ _)
    · exact hle.1.trans (min_le_right _ _)
    · rw [hsub, minPlanOp, Finset.mem_union, or_assoc]

namespace Profiles

variable (F : Profiles T) (hP : P.Sharp) (ht : ¬ Bound (F.plans.map Segment.interval) t)

omit [LinearOrder T] in
theorem within {f : String × List (Segment T)} (hf : f ∈ F.list) :
    ∀ s ∈ f.2, s.interval.Within (Bound (F.plans.map Segment.interval)) := fun _ hs =>
  within_bound (mem_map_of_mem (mem_flatMap.mpr ⟨f, hf, hs⟩))

include hP ht

theorem mem_valuesAt_tagged {v : SubitemUnits} :
    v ∈ valuesAt ((F.tagged P).map taggedWindow) t
      ↔ ∃ f ∈ F.list, (∃ s ∈ f.2, t ∈ s.interval) ∧ v = ⟨bookedAt f.2 t, f.1, {f.1}⟩ := by
  have hsame := fun f (hf : f ∈ F.list) u =>
    exists_intersectSame_iff hP (F.within hf) ht f.1 u
  rw [mem_valuesAt]
  constructor
  · rintro ⟨_, hp, hin, rfl⟩
    obtain ⟨_, hw, rfl⟩ := mem_map.mp hp
    obtain ⟨f, hf, hw⟩ := mem_flatMap.mp hw
    obtain ⟨w, hmem, rfl⟩ := mem_map.mp hw
    obtain ⟨hcovered, hu⟩ := (hsame f hf w.units).mp ⟨w, hmem, hin, rfl⟩
    exact ⟨f, hf, hcovered, by simp [taggedWindow, hu, F.named f hf]⟩
  · rintro ⟨f, hf, hcovered, rfl⟩
    obtain ⟨w, hw, hin, hu⟩ := (hsame f hf _).mpr ⟨hcovered, rfl⟩
    refine ⟨taggedWindow (f.1, w), mem_map_of_mem ?_, hin, ?_⟩
    · exact mem_flatMap.mpr ⟨f, hf, mem_map_of_mem hw⟩
    · simp [taggedWindow, hu, F.named f hf]

theorem get_tagged {r : SubitemUnits} (hget : P.get
    (P.overlayAll minPlanOp P.empty ((F.tagged P).map taggedWindow)) t = some r) :
    (∃ f ∈ F.list, r.units = bookedAt f.2 t)
      ∧ (∀ f ∈ F.list, (∃ s ∈ f.2, t ∈ s.interval) → r.units ≤ bookedAt f.2 t)
      ∧ ∀ x, x ∈ r.subitems ↔ ∃ f ∈ F.list, (∃ s ∈ f.2, t ∈ s.interval) ∧ f.1 = x := by
  have hmem := fun v => F.mem_valuesAt_tagged (v := v) hP ht
  rw [get_overlayAll, P.get_empty] at hget
  cases hvs : valuesAt ((F.tagged P).map taggedWindow) t with
  | nil =>
    rw [hvs] at hget
    cases hget
  | cons v vs =>
    rw [hvs] at hget hmem
    rw [foldl_cons, show overlay minPlanOp none (some v) = some v from rfl, foldl_overlay] at hget
    cases hget
    obtain ⟨⟨w, hw, hat⟩, hle, hsub⟩ := foldl_minPlanOp vs v
    refine ⟨?_, fun f hf hcovered => hle _ ((hmem _).mpr ⟨f, hf, hcovered, rfl⟩), fun x => ?_⟩
    · obtain ⟨f, hf, _, rfl⟩ := (hmem w).mp hw
      exact ⟨f, hf, hat⟩
    · rw [hsub]
      constructor
      · rintro ⟨w, hw, hx⟩
        obtain ⟨f, hf, hcovered, rfl⟩ := (hmem w).mp hw
        exact ⟨f, hf, hcovered, (Finset.mem_singleton.mp hx).symm⟩
      · rintro ⟨f, hf, hcovered, rfl⟩
        exact ⟨_, (hmem _).mpr ⟨f, hf, hcovered, rfl⟩, Finset.mem_singleton_self _⟩

omit [LinearOrder T] hP ht in
theorem length_le_card_iff {subitems : Finset String} {p : String × List (Segment T) → Prop}
    (hsub : ∀ x, x ∈ subitems ↔ ∃ f ∈ F.list, p f ∧ f.1 = x) :
    F.list.length ≤ subitems.card ↔ ∀ f ∈ F.list, p f := by
  have hcard : (F.list.map Prod.fst).toFinset.card = F.list.length := by
    rw [toFinset_card_of_nodup F.distinct, length_map]
  have hnames : ∀ x, x ∈ (F.list.map Prod.fst).toFinset ↔ ∃ f ∈ F.list, f.1 = x := by simp
  rw [← hcard]
  constructor
  · intro hle f hf
    have hsubset : subitems ⊆ (F.list.map Prod.fst).toFinset := by
      intro x hx
      obtain ⟨f, hf, _, rfl⟩ := (hsub x).mp hx
      exact (hnames _).mpr ⟨f, hf, rfl⟩
    have hin := (hnames f.1).mpr ⟨f, hf, rfl⟩
    rw [← Finset.eq_of_subset_of_card_le hsubset hle, hsub] at hin
    obtain ⟨g, hg, hpg, hname⟩ := hin
    rwa [← inj_on_of_nodup_map F.distinct hg hf hname]
  · intro hall
    refine Finset.card_le_card fun x hx => ?_
    obtain ⟨f, hf, rfl⟩ := (hnames x).mp hx
    exact (hsub _).mpr ⟨f, hf, hall f hf, rfl⟩

/-- **Min of sums.** An instant is offered where every profile has a plan, with the least of the
profiles' sums. -/
theorem windows_min_of_sums :
    ((∃ w ∈ F.windows P, t ∈ w.interval) ↔ ∀ f ∈ F.list, ∃ s ∈ f.2, t ∈ s.interval)
      ∧ ∀ w ∈ F.windows P, t ∈ w.interval →
          (F.list.map fun f => bookedAt f.2 t).min? = some w.units.unitsBooked := by
  have hB : ∀ p ∈ P.items (P.overlayAll minPlanOp P.empty ((F.tagged P).map taggedWindow)),
      p.1.Within (Bound (F.plans.map Segment.interval)) := by
    refine hP.overlayAll (by simp [items_empty]) fun p hp => ?_
    obtain ⟨_, hw, rfl⟩ := mem_map.mp hp
    obtain ⟨f, hf, hw⟩ := mem_flatMap.mp hw
    obtain ⟨w, hmem, rfl⟩ := mem_map.mp hw
    exact intersectSame_within hP (F.within hf) w hmem
  -- a returned window around the instant: its value is the one at the instant
  have hvalue : ∀ w ∈ F.windows P, t ∈ w.interval → (∀ f ∈ F.list, ∃ s ∈ f.2, t ∈ s.interval)
      ∧ (F.list.map fun f => bookedAt f.2 t).min? = some w.units.unitsBooked := by
    intro w hw hin
    obtain ⟨p, hp, rfl⟩ := mem_map.mp hw
    obtain ⟨hp, hcard⟩ := mem_filter.mp hp
    have hget := (exists_piece_iff hB ht).mp ⟨p, hp, hin, rfl⟩
    obtain ⟨⟨f, hf, hat⟩, hle, hsub⟩ := F.get_tagged hP ht hget
    have hall := (F.length_le_card_iff hsub).mp (of_decide_eq_true hcard)
    refine ⟨hall, min?_eq_some_iff.mpr ⟨mem_map.mpr ⟨f, hf, hat.symm⟩, ?_⟩⟩
    intro u hu
    obtain ⟨g, hg, rfl⟩ := mem_map.mp hu
    exact hle g hg (hall g hg)
  refine ⟨⟨fun ⟨w, hw, hin⟩ => (hvalue w hw hin).1, fun hall => ?_⟩,
    fun w hw hin => (hvalue w hw hin).2⟩
  obtain ⟨f, hf⟩ := exists_mem_of_ne_nil _ F.nonempty
  obtain ⟨q, hq, hin, _⟩ := mem_valuesAt.mp
    ((F.mem_valuesAt_tagged hP ht).mpr ⟨f, hf, hall f hf, rfl⟩)
  obtain ⟨r, hget⟩ := exists_get_overlayAll.mpr (.inr ⟨q, hq, hin⟩)
  obtain ⟨p, hp, hin, rfl⟩ := (exists_piece_iff hB ht).mpr hget
  have hcard := (F.length_le_card_iff (F.get_tagged hP ht hget).2.2).mpr hall
  exact ⟨_, mem_map_of_mem (mem_filter.mpr ⟨hp, decide_eq_true hcard⟩), hin⟩

end Profiles

def a40AndA16 : Profiles ℚ where
  list := [("A40", [⟨⟨2, "p1"⟩, 0, 10⟩, ⟨⟨1, "p2"⟩, 5, 10⟩]), ("A16", [⟨⟨4, "p3"⟩, 0, 8⟩])]
  nonempty := List.cons_ne_nil _ _
  distinct := by simp
  named := by simp

theorem a40AndA16_offered : ∃ w ∈ a40AndA16.windows (pieces ℚ), 7 ∈ w.interval :=
  (a40AndA16.windows_min_of_sums (t := 7) pieces_sharp (by decide)).1.mpr (by decide)

/-! ## Classified windows -/

/-- `convert_plans_to_portions`: a later window overwrites an earlier one. -/
def convertPlansToPortions (P : Portion T) {V : Type} (plans : List (Interval T × V)) :
    P.IntervalDict V :=
  P.overlayAll (fun _ y => y) P.empty plans

section Convert

variable {V : Type} {l : List (Interval T × V)} {v : V}

theorem get_convert (h : P.get (convertPlansToPortions P l) t = some v) :
    ∃ p ∈ l, t ∈ p.1 ∧ p.2 = v := by
  refine (mem_of_get_overlayAll (fun _ _ => .inr rfl) h).resolve_right ?_
  simp [P.get_empty]

theorem get_convert_eq : P.get (convertPlansToPortions P l) t = (valuesAt l t).getLast? := by
  rw [convertPlansToPortions, get_overlayAll, P.get_empty]
  induction valuesAt l t using reverseRecOn with
  | nil => rfl
  | append_singleton vs v ih =>
    rw [foldl_concat, getLast?_concat]
    generalize vs.foldl _ _ = o
    cases o <;> rfl

theorem get_convert_of_mem (hdisj : DisjointInteriors (l.map Prod.fst))
    (ht : ¬ Bound (l.map Prod.fst) t) {p : Interval T × V} (hp : p ∈ l) (hin : t ∈ p.1) :
    P.get (convertPlansToPortions P l) t = some p.2 := by
  obtain ⟨v, hget⟩ : ∃ v, P.get (convertPlansToPortions P l) t = some v :=
    exists_get_overlayAll.mpr (.inr ⟨p, hp, hin⟩)
  obtain ⟨q, hq, hinq, rfl⟩ := get_convert hget
  -- inside both, so they are the same entry
  have hinside : ∀ p ∈ l, t ∈ p.1 → p.1.lower < t ∧ t < p.1.upper := by
    intro p hp hin
    have hne : p.1.lower ≠ t ∧ p.1.upper ≠ t := by
      constructor <;> intro h <;> refine ht ⟨p.1, mem_map_of_mem hp, ?_⟩
      · exact .inl h
      · exact .inr h
    have hin := (Interval.mem_iff_of_ne hne.1 hne.2).mp hin
    exact ⟨hin.1.lt_of_ne hne.1, hin.2.lt_of_ne hne.2.symm⟩
  by_contra hpq
  have hsymm : Std.Symm fun p q : Interval T × V => ∀ x,
      ¬ ((p.1.lower < x ∧ x < p.1.upper) ∧ q.1.lower < x ∧ x < q.1.upper) :=
    ⟨fun _ _ h x hx => h x hx.symm⟩
  exact (pairwise_map.mp hdisj).forall hq hp (fun h => hpq (h ▸ hget)) t
    ⟨hinside q hq hinq, hinside p hp hin⟩

end Convert

/-- A value of the dictionary of `compute_overridable_bookings`. -/
structure HeldUnits where
  id : String
  units : Int
  nonoverridable : Int
  overridable : Int

def nonoverridableOp (x y : HeldUnits) : HeldUnits :=
  { x with id := x.id ++ "/" ++ y.id, nonoverridable := x.nonoverridable + y.units }

def overridableOp (x y : HeldUnits) : HeldUnits :=
  { x with id := x.id ++ "/" ++ y.id, overridable := x.overridable + y.units }

def Segment.held (s : Segment T) : Interval T × HeldUnits :=
  (s.interval, ⟨s.units.planId, s.units.unitsBooked, 0, 0⟩)

def eventTypeOf (units planUnits nonoverridable overridable : Int) : EventType :=
  let free := planUnits - nonoverridable
  if free < units then .unavailable
  else if free - overridable < units then .overridable
  else .available

/-- The plans with both kinds of bookings laid over them. -/
def heldPortions (P : Portion T) (overridable nonoverridable plans : List (Segment T)) :
    P.IntervalDict HeldUnits :=
  P.overlayAll overridableOp (P.overlayAll nonoverridableOp
    (convertPlansToPortions P (plans.map Segment.held)) (nonoverridable.map Segment.held))
    (overridable.map Segment.held)

def computeOverridableBookings (P : Portion T)
    (overridable nonoverridable plans : List (Segment T)) (units : Int) : List (Window T) :=
  (sortedAtomicItems P (heldPortions P overridable nonoverridable plans)).map fun item =>
    ⟨item.1.lower, item.1.upper,
      eventTypeOf units item.2.units item.2.nonoverridable item.2.overridable⟩

theorem foldl_held (op : HeldUnits → HeldUnits → HeldUnits) (f : HeldUnits → Int) (c : Int)
    (hf : ∀ x y, f (op x y) = f x + c * y.units) (l : List (Segment T)) (v : HeldUnits) :
    f ((valuesAt (l.map Segment.held) t).foldl op v) = f v + c * bookedAt l t := by
  induction l generalizing v with
  | nil => simp [valuesAt, bookedAt]
  | cons s l ih =>
    have hsum : bookedAt (s :: l) t
        = (if t ∈ s.interval then s.units.unitsBooked else 0) + bookedAt l t := rfl
    rw [hsum, map_cons, valuesAt, filter_cons]
    by_cases hin : t ∈ s.held.1
    · have hin' : t ∈ s.interval := hin
      rw [if_pos (decide_eq_true hin), if_pos hin', map_cons, foldl_cons]
      refine (ih _).trans ?_
      rw [hf, Segment.held]
      ring
    · have hin' : t ∉ s.interval := hin
      rw [if_neg (mt of_decide_eq_true hin), if_neg hin', zero_add]
      exact ih v

section Compute

variable {overridable nonoverridable plans : List (Segment T)} {units : Int}

theorem get_heldPortions (hdisj : DisjointInteriors (plans.map Segment.interval))
    (ht : ¬ Bound (plans.map Segment.interval) t) {p : Segment T} (hp : p ∈ plans)
    (hin : t ∈ p.interval) : ∃ v, P.get (heldPortions P overridable nonoverridable plans) t
      = some v ∧ v.units = p.units.unitsBooked ∧ v.nonoverridable = bookedAt nonoverridable t
        ∧ v.overridable = bookedAt overridable t := by
  have hfst : (plans.map Segment.held).map Prod.fst = plans.map Segment.interval := by
    simp [Segment.held, Function.comp_def]
  rw [← hfst] at hdisj ht
  have hget := get_convert_of_mem (P := P) hdisj ht (mem_map_of_mem hp) hin
  rw [heldPortions, get_overlayAll, get_overlayAll, hget, foldl_overlay, foldl_overlay]
  refine ⟨_, rfl, ?_, ?_, ?_⟩
  · rw [foldl_held overridableOp HeldUnits.units 0 (by simp [overridableOp]),
      foldl_held nonoverridableOp HeldUnits.units 0 (by simp [nonoverridableOp])]
    simp [Segment.held]
  · rw [foldl_held overridableOp HeldUnits.nonoverridable 0 (by simp [overridableOp]),
      foldl_held nonoverridableOp HeldUnits.nonoverridable 1 (by simp [nonoverridableOp])]
    simp [Segment.held]
  · rw [foldl_held overridableOp HeldUnits.overridable 1 (by simp [overridableOp]),
      foldl_held nonoverridableOp HeldUnits.overridable 0 (by simp [nonoverridableOp])]
    simp [Segment.held]

/-- **Classified by the units held, but wider than the plans.** The windows returned around an
instant of a plan have its event type. They are around no other instants exactly if bookings
are made only where plans are. -/
theorem computeOverridableBookings_exact (hP : P.Sharp)
    (hdisj : DisjointInteriors (plans.map Segment.interval))
    (ht : ¬ Bound ((plans ++ (nonoverridable ++ overridable)).map Segment.interval) t) :
    let result := computeOverridableBookings P overridable nonoverridable plans units
    (((∃ w ∈ result, t ∈ w.interval) ↔ ∃ p ∈ plans, t ∈ p.interval)
        ↔ (∃ p ∈ plans, t ∈ p.interval) ∨ ∀ b ∈ nonoverridable ++ overridable, t ∉ b.interval)
      ∧ ∀ p ∈ plans, t ∈ p.interval → (∃ w ∈ result, t ∈ w.interval)
        ∧ ∀ w ∈ result, t ∈ w.interval → w.eventType = eventTypeOf units p.units.unitsBooked
            (bookedAt nonoverridable t) (bookedAt overridable t) := by
  intro result
  let d := heldPortions P overridable nonoverridable plans
  have hbound : ∀ l, l ⊆ plans ++ (nonoverridable ++ overridable) →
      ∀ p ∈ l.map Segment.held, p.1.Within
        (Bound ((plans ++ (nonoverridable ++ overridable)).map Segment.interval)) := by
    intro l hl p hp
    obtain ⟨s, hs, rfl⟩ := mem_map.mp hp
    exact within_bound (mem_map_of_mem (hl hs))
  have hB : ∀ p ∈ P.items d, p.1.Within _ :=
    hP.overlayAll (hP.overlayAll (hP.overlayAll (by simp [items_empty])
      (hbound plans (by simp))) (hbound nonoverridable (by simp))) (hbound overridable (by simp))
  -- the windows around the instant have its value
  have hpiece : ∀ w ∈ result, t ∈ w.interval → ∃ v, P.get d t = some v
      ∧ w.eventType = eventTypeOf units v.units v.nonoverridable v.overridable := by
    intro w hw hin
    obtain ⟨p, hp, rfl⟩ := mem_map.mp hw
    exact ⟨p.2, (exists_piece_iff hB ht).mp ⟨p, hp, hin, rfl⟩, rfl⟩
  have hexists : (∃ w ∈ result, t ∈ w.interval)
      ↔ ∃ s ∈ plans ++ (nonoverridable ++ overridable), t ∈ s.interval := by
    have hsome : (∃ v, P.get d t = some v)
        ↔ ∃ s ∈ plans ++ (nonoverridable ++ overridable), t ∈ s.interval := by
      simp only [d, heldPortions, convertPlansToPortions, exists_get_overlayAll,
        P.get_empty, mem_append, mem_map]
      grind [Segment.held]
    rw [← hsome]
    constructor
    · rintro ⟨w, hw, hin⟩
      obtain ⟨v, hget, -⟩ := hpiece w hw hin
      exact ⟨v, hget⟩
    · rintro ⟨v, hget⟩
      obtain ⟨p, hp, hin, -⟩ := (exists_piece_iff hB ht).mpr hget
      exact ⟨_, mem_map_of_mem hp, hin⟩
  refine ⟨?_, fun p hp hin => ⟨hexists.mpr ⟨p, by simp [hp], hin⟩, fun w hw hw' => ?_⟩⟩
  · grind
  · obtain ⟨v, hget, htype⟩ := hpiece w hw hw'
    have ht : ¬ Bound (plans.map Segment.interval) t := by
      rintro ⟨i, hi, h⟩
      exact ht ⟨i, by rw [map_append]; exact mem_append_left _ hi, h⟩
    obtain ⟨v', hget', hunits, hnon, hover⟩ :
        ∃ v', P.get d t = some v' ∧ _ := get_heldPortions hdisj ht hp hin
    obtain rfl : v = v' := Option.some.inj (hget.symm.trans hget')
    rw [htype, hunits, hnon, hover]

end Compute

def heldMorning : Segment ℚ := ⟨⟨1, "booking"⟩, 2, 4⟩

def plannedDay : Segment ℚ := ⟨⟨2, "A40"⟩, 0, 10⟩

theorem heldMorning_classified :
    let result := computeOverridableBookings (pieces ℚ) [] [heldMorning] [plannedDay] 2
    (∃ w ∈ result, 3 ∈ w.interval) ∧ ∀ w ∈ result, 3 ∈ w.interval → w.eventType
      = eventTypeOf 2 2 (bookedAt [heldMorning] 3) (bookedAt [] 3) := by
  have hdisj : DisjointInteriors ([plannedDay].map Segment.interval) :=
    pairwise_singleton _ _
  have ht : ¬ Bound (([plannedDay] ++ ([heldMorning] ++ [])).map Segment.interval) 3 := by decide
  exact (computeOverridableBookings_exact pieces_sharp hdisj ht).2 plannedDay (.head _)
    (by decide)

/-- Without any plan, the time of a booking is offered. -/
theorem heldMorning_unplanned :
    computeOverridableBookings (pieces ℚ) [] [heldMorning] [] 1
      = [⟨2, 4, .available⟩] := by
  decide

/-! ## The item's own bookings -/

def windowPortions (P : Portion T) (plans : List (Window T)) : P.IntervalDict (Option (Window T)) :=
  convertPlansToPortions P (plans.map fun w => (w.interval, some w))

/-- `remove_existing_item_bookings`. A value without `start` is `none`: where a booking meets a
window, or is alone. What is returned are the stored windows, not the pieces. -/
def removeExistingItemBookings (P : Portion T) (plans : List (Window T))
    (bookings : List (Segment T)) : List (Window T) :=
  (sortedAtomicItems P (P.overlayAll (fun _ _ => none) (windowPortions P plans)
    (bookings.map fun b => (b.interval, none)))).filterMap Prod.snd

/-- Of two event types the later one stays. -/
def joinedPortions (P : Portion T) (plan : List (Window T)) : P.IntervalDict EventType :=
  P.overlayAll (fun x y => if x = y then x else y) P.empty
    (plan.map fun w => (⟨w.start, w.end_, true, false⟩, w.eventType))

def joinConsecutivePlans (P : Portion T) (plan : List (Window T)) : List (Window T) :=
  (sortedAtomicItems P (joinedPortions P plan)).map fun item =>
    ⟨item.1.lower, item.1.upper, item.2⟩

section Cut

variable {windows : List (Window T)} {bookings : List (Segment T)} {w : Window T}

theorem get_windowPortions (x : T) : P.get (windowPortions P windows) x
    = (windows.filter (x ∈ ·.interval)).getLast?.map some := by
  rw [windowPortions, get_convert_eq]
  simp [valuesAt, filter_map, Function.comp_def]

/-- Something is left of the window: an instant that neither a booking nor a later window of the
list has. -/
def Left (windows : List (Window T)) (bookings : List (Segment T)) (w : Window T) : Prop :=
  ∃ x, (∀ b ∈ bookings, x ∉ b.interval) ∧ (windows.filter (x ∈ ·.interval)).getLast? = some w

theorem mem_removeExisting : w ∈ removeExistingItemBookings P windows bookings
    ↔ Left windows bookings w := by
  -- the first booking at an instant leaves no window there
  have hcut : ∀ (vs : List (Option (Window T))) (o : Option (Option (Window T))),
      (∀ v ∈ vs, v = none) → (vs.foldl (fun v w => overlay (fun _ _ => none) v (some w)) o
        = some (some w) ↔ vs = [] ∧ o = some (some w)) := by
    intro vs
    induction vs with
    | nil => simp
    | cons v vs ih =>
      intro o hvs
      obtain rfl := hvs v (.head _)
      rw [foldl_cons, ih _ fun v hv => hvs v (.tail _ hv)]
      cases o <;> simp [overlay]
  have hget : ∀ x, P.get (P.overlayAll (fun _ _ => none) (windowPortions P windows)
      (bookings.map fun b => (b.interval, none))) x = some (some w)
      ↔ (∀ b ∈ bookings, x ∉ b.interval)
        ∧ (windows.filter (x ∈ ·.interval)).getLast? = some w := by
    intro x
    have hnone : ∀ v ∈ valuesAt
        (bookings.map fun b => (b.interval, (none : Option (Window T)))) x, v = none := by
      simp +contextual [valuesAt, eq_comm]
    rw [get_overlayAll, hcut _ _ hnone, get_windowPortions]
    simp [valuesAt]
  simp only [Left, ← hget, P.mem_items, removeExistingItemBookings, mem_filterMap,
    sortedAtomicItems, mem_insertionSort]
  constructor
  · rintro ⟨⟨i, _⟩, hi, rfl⟩
    obtain ⟨x, hx⟩ := P.items_nonempty _ _ _ hi
    exact ⟨x, i, hi, hx⟩
  · rintro ⟨_, i, hi, _⟩
    exact ⟨(i, some w), hi, rfl⟩

theorem of_mem_removeExisting (hw : w ∈ removeExistingItemBookings P windows bookings) :
    w ∈ windows := by
  obtain ⟨x, -, hlast⟩ := mem_removeExisting.mp hw
  exact mem_of_mem_filter (mem_of_getLast? hlast)

theorem get_joined {kept : List (Window T)} {v : EventType}
    (h : P.get (joinedPortions P kept) t = some v) :
    ∃ w ∈ kept, t ∈ w.interval ∧ w.eventType = v := by
  have hhow : ∀ x y : EventType, (if x = y then x else y) = x ∨ (if x = y then x else y) = y := by
    intro x y
    split
    · exact .inl rfl
    · exact .inr rfl
  obtain ⟨p, hp, hin, rfl⟩ := (mem_of_get_overlayAll hhow h).resolve_right
    (by simp [P.get_empty])
  obtain ⟨w, hw, rfl⟩ := mem_map.mp hp
  exact ⟨w, hw, ⟨hin.1, le_of_lt hin.2⟩, rfl⟩

section Joined

variable {kept : List (Window T)} (hP : P.Sharp)

include hP

theorem joined_within : ∀ p ∈ P.items (joinedPortions P kept),
    p.1.Within (Bound (kept.map Window.interval)) := by
  refine hP.overlayAll (by simp [items_empty]) fun p hp => ?_
  obtain ⟨w, hw, rfl⟩ := mem_map.mp hp
  exact within_bound (i := w.interval) (mem_map_of_mem hw)

/-- Around an instant that is no endpoint, the joined windows are those of the value there. -/
theorem exists_joined_iff (ht : ¬ Bound (kept.map Window.interval) t) {v : EventType} :
    (∃ u ∈ joinConsecutivePlans P kept, t ∈ u.interval ∧ u.eventType = v)
      ↔ P.get (joinedPortions P kept) t = some v := by
  rw [← exists_piece_iff (joined_within hP) ht]
  constructor
  · rintro ⟨u, hu, hin, rfl⟩
    obtain ⟨p, hp, rfl⟩ := mem_map.mp hu
    exact ⟨p, hp, hin, rfl⟩
  · rintro ⟨p, hp, hin, rfl⟩
    exact ⟨_, mem_map_of_mem hp, hin, rfl⟩

omit hP in
theorem exists_get_joined (ht : ¬ Bound (kept.map Window.interval) t) (hw : w ∈ kept)
    (hin : t ∈ w.interval) : ∃ v, P.get (joinedPortions P kept) t = some v := by
  have hend : t < w.end_ := hin.2.lt_of_ne fun h => ht ⟨_, mem_map_of_mem hw, .inr h.symm⟩
  exact exists_get_overlayAll.mpr (.inr ⟨_, mem_map_of_mem hw, hin.1, hend⟩)

theorem exists_joined_of_mem (ht : ¬ Bound (kept.map Window.interval) t) :
    (∃ u ∈ joinConsecutivePlans P kept, t ∈ u.interval) ↔ ∃ w ∈ kept, t ∈ w.interval := by
  constructor
  · rintro ⟨u, hu, hin⟩
    obtain ⟨w, hw, hin, -⟩ := get_joined ((exists_joined_iff hP ht).mp ⟨u, hu, hin, rfl⟩)
    exact ⟨w, hw, hin⟩
  · rintro ⟨w, hw, hin⟩
    obtain ⟨v, hget⟩ := exists_get_joined ht hw hin
    obtain ⟨u, hu, hin, -⟩ := (exists_joined_iff hP ht).mpr hget
    exact ⟨u, hu, hin⟩

end Joined

end Cut

/-- A date as a caller passes it. -/
inductive DateArg (T : Type)
  | str (text : String)
  | datetime (t : T)

inductive MoveError
  | notFound
  | doesNotFit
  | typeError
  | valueError
  | indexError
  deriving DecidableEq

/-- `_parse_booking_window_bound`: `strptime` takes a text, and raises on anything else. -/
def parseBookingWindowBound (strptime : String → Option T) :
    Option (DateArg T) → Except MoveError (Option T)
  | none => .ok none
  | some (.str text) => (strptime text).elim (.error .valueError) fun t => .ok (some t)
  | some (.datetime _) => .error .typeError

/-- What the tables hold for the reservables of a booking: the plans of each profile, and the
bookings of others and of the item itself within the bounds of a query. -/
structure Demand (T : Type) where
  profiles : List (String × List (Segment T))
  overridable : Option T → Option T → List (Segment T)
  nonoverridable : Option T → Option T → List (Segment T)
  own : Option (DateArg T) → Option (DateArg T) → List (Segment T)

def Demand.plans (P : Portion T) (d : Demand T) : Except MoveError (List (Segment T)) :=
  match d.profiles with
  | [] => .error .indexError
  | [profile] => .ok (intersectSameSubitemPlan P profile.2 profile.1)
  | profiles => .ok (intersectDifferentSubitemPlan P (profiles.flatMap fun profile =>
      (intersectSameSubitemPlan P profile.2 profile.1).map (profile.1, ·)) profiles.length)

def bookingProvisioning (P : Portion T) (strptime : String → Option T) (d : Demand T) (units : Int)
    (fromDate toDate : Option (DateArg T)) : Except MoveError (List (Window T)) := do
  let plans ← d.plans P
  let toBound ← parseBookingWindowBound strptime toDate
  let fromBound ← parseBookingWindowBound strptime fromDate
  let windows := computeOverridableBookings P (d.overridable fromBound toBound)
    (d.nonoverridable fromBound toBound) plans units
  return joinConsecutivePlans P (removeExistingItemBookings P windows (d.own fromDate toDate))

/-- Exactly one window contains the new one. The keys of the dictionary are those of its distinct
values. -/
def fitsOne (P : Portion T) (plans : List (Window T)) (start end_ : T) : Bool :=
  let portionPlans := convertPlansToPortions P (plans.map fun w => (w.interval, w))
  let fits := ((sortedAtomicItems P portionPlans).filter fun item =>
    item.1.contains (.closed start end_)).map Prod.snd
  fits.dedup.length == 1

/-- `existing_booking_update_fits`. A text is not compared with a `datetime`. -/
def existingBookingUpdateFits (P : Portion T) (strptime : String → Option T) (d : Demand T)
    (units : Int) (start end_ : DateArg T) : Except MoveError Bool := do
  let plans ← bookingProvisioning P strptime d units (some start) (some end_)
  match start, end_ with
  | .datetime start, .datetime end_ => return fitsOne P plans start end_
  | _, _ => if plans.isEmpty then return false else throw .typeError

/-- `BookingsProcessed.update`, which parses the dates itself. -/
def updateBooking (P : Portion T) (strptime : String → Option T) (demand : Booking T → Demand T)
    (bookings : List (Booking T)) (id title start end_ : String) :
    Except MoveError Unit × List (Booking T) :=
  match bookings.find? (·.id = id) with
  | none => (.error .notFound, bookings)
  | some booking =>
    match strptime start, strptime end_ with
    | some newStart, some newEnd =>
      match existingBookingUpdateFits P strptime (demand booking) booking.units
          (.datetime newStart) (.datetime newEnd) with
      | .error err => (.error err, bookings)
      | .ok false => (.error .doesNotFit, bookings)
      | .ok true => (.ok (), bookings.map fun row =>
          if row.id = id then { row with title, start := newStart, end_ := newEnd } else row)
    | _, _ => (.error .valueError, bookings)

-- the test of the windows alone does not look at their event type
example : fitsOne (pieces ℚ) [⟨0, 10, .unavailable⟩] 2 4 = true := by
  decide

end IsardVDI.Bookings
