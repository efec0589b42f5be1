import IsardVDI.Storage.QueueTiers
import Mathlib

/-!
# `lib/governed_worker.py` — the dequeue order of one poll

`_fair_ordered_queues` lists the queues a worker polls, most wanted first: for each base lane
its per-category queues in weighted round-robin order, then the flat lane itself. A worker takes
its job from the first non-empty queue, so what leads is what is served when everything is busy.

The *floor* worker is never governed. It also rotates its base lanes, so that no lane starves
behind the first. One cursor drives both rotations: the lanes modulo their number `n`, the
categories of a lane modulo their total weight `W`.

* **`weightedRotation_head?`**, **`orderedBaseForPoll_head?`** — what leads each rotation.
-/

namespace IsardVDI.Storage

open List Option

/-! ## The weighted rotation -/

variable {α : Type} (l : List α)

section Rotation

variable {C : Type} [LinearOrder C]

variable (categories : List C) (weights : C → Option Int)

/-- The ring of `_weighted_rotation`: the categories in order, each as often as its weight. -/
def weightRing : List C :=
  (categories.insertionSort (· ≤ ·)).flatMap fun c =>
    List.replicate (max 1 ((weights c).getD 1)).toNat c

def rotated {α : Type} (l : List α) (off : Nat) : List α := l.drop off ++ l.take off

/-- `_weighted_rotation`: the ring from the cursor on, each category at its first occurrence. -/
def weightedRotation (cursor : Nat) : List C :=
  let expanded := weightRing categories weights
  (rotated expanded (cursor % expanded.length)).eraseDups

theorem rotated_head? (k : Nat) : (rotated l (k % l.length)).head? = l[k % l.length]? := by
  cases l with
  | nil => simp [rotated]
  | cons a l =>
    have hlt : k % (a :: l).length < (a :: l).length := Nat.mod_lt _ (by simp)
    rw [rotated, head?_append, head?_drop, getElem?_eq_getElem hlt]
    rfl

theorem eraseDups_head? [DecidableEq α] : l.eraseDups.head? = l.head? := by
  cases l with
  | nil => rfl
  | cons a l => simp [eraseDups_cons]

theorem weightedRotation_head? (cursor : Nat) : (weightedRotation categories weights cursor).head?
      = (weightRing categories weights)[cursor % (weightRing categories weights).length]? := by
  rw [weightedRotation, eraseDups_head?, rotated_head?]

theorem nodup_eraseDups [DecidableEq α] : l.eraseDups.Nodup := by
  induction hn : l.length using Nat.strong_induction_on generalizing l with
  | _ n ih =>
    cases l with
    | nil => simp
    | cons a l =>
      have hlt : (l.filter fun b => !b == a).length < n := by
        have := length_filter_le (fun b => !b == a) l
        simp only [length_cons] at hn
        omega
      rw [eraseDups_cons, nodup_cons]
      exact ⟨by simp [mem_eraseDups], ih _ hlt _ rfl⟩

variable {categories : List C}

theorem count_weightRing (hnodup : categories.Nodup) (weights : C → Option Int) {c : C}
    (hc : c ∈ categories) :
    (weightRing categories weights).count c = (max 1 ((weights c).getD 1)).toNat := by
  have hperm := perm_insertionSort (· ≤ ·) categories
  rw [weightRing, count_flatMap, sum_map_eq_nsmul_single c, hperm.count_eq,
    count_eq_one_of_mem hnodup hc, one_nsmul]
  · simp
  · intro d hd _
    simp [count_replicate, hd]

theorem countP_turn (ring : List C) (cursor : Nat) (c : C) :
    (List.range ring.length).countP (fun k => ring[(cursor + k) % ring.length]? = some c)
      = ring.count c := by
  have hturn : (range ring.length).map (fun k => ring[(cursor + k) % ring.length]?)
      = (ring.rotate cursor).map some := by
    refine ext_getElem? fun k => ?_
    by_cases hk : k < ring.length
    · simp [hk, Nat.add_comm cursor]
    · simp [hk]
  rw [← (ring.rotate_perm cursor).count_eq,
    ← count_map_of_injective _ _ (Option.some_injective C), ← hturn, count,
    countP_map]
  exact countP_congr (by simp)

theorem mem_weightRing {weights : C → Option Int} {c : C} :
    c ∈ weightRing categories weights ↔ c ∈ categories := by
  simp [weightRing, mem_replicate]

/-- **The rotation is proportionally fair.** -/
theorem weightedRotation_fair {categories : List C} (hnodup : categories.Nodup)
    (weights : C → Option Int) (cursor : Nat) :
    (weightedRotation categories weights cursor).Perm categories
      ∧ ∀ c ∈ categories,
        (List.range (categories.map fun c => (max 1 ((weights c).getD 1)).toNat).sum).countP
            (fun k => (weightedRotation categories weights (cursor + k)).head? = some c)
          = (max 1 ((weights c).getD 1)).toNat := by
  refine ⟨?_, fun c hc => ?_⟩
  · refine (perm_ext_iff_of_nodup (nodup_eraseDups _) hnodup).mpr fun c => ?_
    show c ∈ (rotated _ _).eraseDups ↔ _
    rw [mem_eraseDups, rotated, ← rotate_eq_drop_append_take_mod, mem_rotate, mem_weightRing]
  · have hlength : (categories.map fun c => (max 1 ((weights c).getD 1)).toNat).sum
        = (weightRing categories weights).length := by
      rw [weightRing, length_flatMap]
      simp only [length_replicate]
      exact ((perm_insertionSort _ categories).symm.map _).sum_eq
    simp only [weightedRotation_head?, hlength]
    rw [countP_turn, count_weightRing hnodup weights hc]

/-- Category 1 weighs 2 and leads two of three polls. -/
theorem heavierCategory_leads : [2, 1].Nodup
    ∧ (List.range 3).countP (fun k => (weightedRotation [2, 1]
        (fun c => if c = 1 then some 2 else none) (5 + k)).head? = some 1) = 2 :=
  ⟨by decide, (weightedRotation_fair (by decide) _ 5).2 1 (by decide)⟩

end Rotation

/-! ## The order of one poll -/

section Worker

variable {P C β : Type}

/-- What the order depends on, of a `GovernedWorker`. -/
structure Worker (P C : Type) where
  orderedQueues : List (QueueName P C)
  floor : Bool
  govEnabled : Bool
  categoryWeights : C → Option Int
  wrrCursor : Nat

def Worker.isGoverning (w : Worker P C) : Bool := w.govEnabled && !w.floor

def fairBase (q : QueueName P C) : Option (P × Tier) :=
  match parseStorageQueue q with
  | some (pool, none, .tier tier) => if tier.fair then some (pool, tier) else none
  | _ => none

def Worker.fairTargets (w : Worker P C) : List (P × Tier) := w.orderedQueues.filterMap fairBase

def Worker.orderedBaseForPoll (w : Worker P C) : List (QueueName P C) :=
  if !w.floor || w.orderedQueues.length < 2 then w.orderedQueues
  else rotated w.orderedQueues (w.wrrCursor % w.orderedQueues.length)

variable {w : Worker P C} {q : QueueName P C} {lane : P × Tier}

theorem Worker.isGoverning_floor (hfloor : w.floor = true) : w.isGoverning = false := by
  simp [isGoverning, hfloor]

theorem Worker.orderedBaseForPoll_head? (hfloor : w.floor = true) :
    w.orderedBaseForPoll.head? = w.orderedQueues[w.wrrCursor % w.orderedQueues.length]? := by
  unfold orderedBaseForPoll
  by_cases hlen : w.orderedQueues.length < 2
  · match w.orderedQueues, hlen with
    | [], _ => simp
    | [q], _ => simp [Nat.mod_one]
  · simp only [hfloor, hlen, decide_false, Bool.not_true, Bool.or_false, Bool.false_eq_true,
      if_false]
    exact rotated_head? _ _

theorem Worker.mem_orderedBaseForPoll (hq : q ∈ w.orderedBaseForPoll) : q ∈ w.orderedQueues := by
  unfold orderedBaseForPoll at hq
  split at hq
  · exact hq
  · rcases mem_append.mp hq with hdrop | htake
    · exact mem_of_mem_drop hdrop
    · exact mem_of_mem_take htake

theorem fairBase_eq_some (h : fairBase q = some lane) :
    q = .storage lane.1 none (.tier lane.2) := by
  unfold fairBase at h
  split at h
  case h_2 => cases h
  case h_1 hparse =>
  split at h
  case isFalse => cases h
  case isTrue =>
  cases h
  cases q with
  | other name => cases hparse
  | storage pool category segment =>
    cases hparse
    rfl

variable [DecidableEq P]

/-- `_discover_fair_queues`: the categories of a lane among the members of `rq:queues`. -/
def Worker.discoverFairQueues (w : Worker P C) (members : List (QueueName P C))
    (lane : P × Tier) : List C :=
  if lane ∈ w.fairTargets then
    members.filterMap fun name =>
      match parseStorageQueue name with
      | some (pool, some c, .tier tier) => if (pool, tier) = lane then some c else none
      | _ => none
  else []

variable [LinearOrder C]

/-- The queues one base lane contributes. `atCap` answers `_category_at_cap`. -/
def Worker.laneQueues (w : Worker P C) (nullCategory : C) (members : List (QueueName P C))
    (atCap : P → C → Bool) (deferBg : Bool) (q : QueueName P C) : List (QueueName P C) :=
  match fairBase q with
  | none => if deferBg && isDeferrableQueue q then [] else [q]
  | some (pool, tier) =>
    if tier.deferrable && deferBg then []
    else
      let cats := w.discoverFairQueues members (pool, tier)
      let cats := if w.isGoverning then cats.filter fun c => !atCap pool c else cats
      (weightedRotation cats w.categoryWeights w.wrrCursor).map
          (fun c => .storage pool (some c) (.tier tier))
        ++ if w.isGoverning && atCap pool nullCategory then [] else [q]

def Worker.fairOrderedQueues (w : Worker P C) (nullCategory : C)
    (members : List (QueueName P C)) (atCap : P → C → Bool) (deferBg : Bool) :
    Worker P C × List (QueueName P C) :=
  let w := { w with wrrCursor := w.wrrCursor + 1 }
  (w, w.orderedBaseForPoll.flatMap (w.laneQueues nullCategory members atCap deferBg))

/-! ## The floor worker

It governs nothing, so it hides no lane and drops no category. Its base lanes are all fair
ones: it serves the governed tiers only. -/

def Worker.laneRing (w : Worker P C) (members : List (QueueName P C)) (lane : P × Tier) :
    List C :=
  weightRing (w.discoverFairQueues members lane) w.categoryWeights

theorem Worker.laneQueues_floor (hfloor : w.floor = true) (hq : fairBase q = some lane)
    (nullCategory : C) (members : List (QueueName P C)) (atCap : P → C → Bool) :
    w.laneQueues nullCategory members atCap false q
      = (weightedRotation (w.discoverFairQueues members lane) w.categoryWeights
          w.wrrCursor).map (fun c => .storage lane.1 (some c) (.tier lane.2)) ++ [q] := by
  simp [laneQueues, hq, isGoverning_floor hfloor]

theorem Worker.laneQueues_head? (hfloor : w.floor = true) (hq : fairBase q = some lane)
    (nullCategory : C) (members : List (QueueName P C)) (atCap : P → C → Bool) :
    (w.laneQueues nullCategory members atCap false q).head?
      = ((w.laneRing members lane)[w.wrrCursor % (w.laneRing members lane).length]?.map
          fun c => .storage lane.1 (some c) (.tier lane.2)).or (some q) := by
  rw [laneQueues_floor hfloor hq, head?_append, head?_map, weightedRotation_head?]
  rfl

omit [DecidableEq P] [LinearOrder C] in
theorem flatMap_head? {l : List α} {f : α → List β} (hf : ∀ a ∈ l, f a ≠ []) :
    (l.flatMap f).head? = l.head?.bind fun a => (f a).head? := by
  cases l with
  | nil => rfl
  | cons a l =>
    have hne := hf a (.head _)
    cases hfa : f a with
    | nil => exact absurd hfa hne
    | cons b bs => simp [hfa]

def Worker.Leads (w : Worker P C) (nullCategory : C) (members : List (QueueName P C))
    (atCap : P → C → Bool) (cursor : Nat) (lane : P × Tier) (c : C) : Prop :=
  ({ w with wrrCursor := cursor }.fairOrderedQueues nullCategory members atCap false).2.head?
    = some (.storage lane.1 (some c) (.tier lane.2))

/-- **What leads a poll of the floor worker.** The cursor is advanced before it is used. -/
theorem Worker.leads_iff_residues (hfloor : w.floor = true)
    (hbase : ∀ q ∈ w.orderedQueues, (fairBase q).isSome) (nullCategory : C)
    (members : List (QueueName P C)) (atCap : P → C → Bool) (cursor : Nat) (lane : P × Tier)
    (c : C) : w.Leads nullCategory members atCap cursor lane c
      ↔ w.orderedQueues[(cursor + 1) % w.orderedQueues.length]?
            = some (.storage lane.1 none (.tier lane.2))
        ∧ (w.laneRing members lane)[(cursor + 1) % (w.laneRing members lane).length]?
            = some c := by
  have hfloor' : { w with wrrCursor := cursor + 1 }.floor = true := hfloor
  have hne : ∀ q ∈ { w with wrrCursor := cursor + 1 }.orderedBaseForPoll,
      { w with wrrCursor := cursor + 1 }.laneQueues nullCategory members atCap false q ≠ [] := by
    intro q hq
    have hmem := mem_orderedBaseForPoll hq
    obtain ⟨lane', hlane'⟩ := isSome_iff_exists.mp (hbase q hmem)
    rw [laneQueues_floor hfloor' hlane']
    simp
  show (flatMap _ _).head? = _ ↔ _
  rw [flatMap_head? hne, orderedBaseForPoll_head? hfloor']
  cases hq : w.orderedQueues[(cursor + 1) % w.orderedQueues.length]? with
  | none => simp
  | some q =>
    obtain ⟨lane', hlane'⟩ := isSome_iff_exists.mp (hbase q (mem_of_getElem? hq))
    have hname := fairBase_eq_some hlane'
    simp only [bind_some, laneQueues_head? hfloor' hlane']
    show ((w.laneRing members lane')[(cursor + 1) % (w.laneRing members lane').length]?.map _).or _
      = _ ↔ _
    rw [hname]
    by_cases hsame : lane' = lane
    · subst hsame
      cases hc : (w.laneRing members lane')[
          (cursor + 1) % (w.laneRing members lane').length]? with
      | none | some c' => simp
    · -- the lane that leads is another one, and so are its queues
      have hparts : ¬ (lane'.1 = lane.1 ∧ lane'.2 = lane.2) := fun h => hsame (Prod.ext h.1 h.2)
      cases hc : (w.laneRing members lane')[
          (cursor + 1) % (w.laneRing members lane').length]? with
      | none | some c' => simp; tauto

/-! ## When a category leads at all -/

omit [DecidableEq P] [LinearOrder C] in
/-- Two rings turned by one cursor: a pair of positions comes up together iff the positions
agree modulo the greatest common divisor of the lengths. -/
theorem exists_cursor_iff (r : List β) (a : α) (b : β) :
    (∃ k, l[(k + 1) % l.length]? = some a ∧ r[(k + 1) % r.length]? = some b)
      ↔ ∃ i p, l[i]? = some a ∧ r[p]? = some b ∧ i ≡ p [MOD l.length.gcd r.length] := by
  constructor
  · rintro ⟨k, ha, hb⟩
    refine ⟨_, _, ha, hb, ?_⟩
    have hl : (k + 1) % l.length ≡ k + 1 [MOD l.length.gcd r.length] :=
      (Nat.mod_modEq _ _).of_dvd (Nat.gcd_dvd_left _ _)
    have hr : (k + 1) % r.length ≡ k + 1 [MOD l.length.gcd r.length] :=
      (Nat.mod_modEq _ _).of_dvd (Nat.gcd_dvd_right _ _)
    exact hl.trans hr.symm
  · rintro ⟨i, p, ha, hb, hip⟩
    obtain ⟨hi, -⟩ := List.getElem?_eq_some_iff.mp ha
    obtain ⟨hp, -⟩ := List.getElem?_eq_some_iff.mp hb
    obtain ⟨k, hki, hkp⟩ := Nat.chineseRemainder' hip
    -- one full turn further, so that the cursor has been advanced at least once
    have hpos : 0 < l.length * r.length := Nat.mul_pos (by omega) (by omega)
    refine ⟨k + l.length * r.length - 1, ?_, ?_⟩
    · have hk : k + l.length * r.length - 1 + 1 = k + l.length * r.length := by omega
      rw [hk, Nat.add_mul_mod_self_left, hki, Nat.mod_eq_of_lt hi, ha]
    · have hk : k + l.length * r.length - 1 + 1 = k + l.length * r.length := by omega
      rw [hk, Nat.add_mul_mod_self_right, hkp, Nat.mod_eq_of_lt hp, hb]

/-- **Which queues the floor worker ever puts first.** A category of a lane leads some poll iff
some position of the lane among the base lanes and some position of the category in the lane's
ring agree modulo the greatest common divisor of the number of lanes and the ring's length. -/
theorem floor_leads_iff {w : Worker P C} (hfloor : w.floor = true)
    (hbase : ∀ q ∈ w.orderedQueues, (fairBase q).isSome) (nullCategory : C)
    (members : List (QueueName P C)) (atCap : P → C → Bool) (lane : P × Tier) (c : C) :
    (∃ cursor, w.Leads nullCategory members atCap cursor lane c)
      ↔ ∃ i p, w.orderedQueues[i]? = some (.storage lane.1 none (.tier lane.2))
        ∧ (w.laneRing members lane)[p]? = some c
        ∧ i ≡ p [MOD w.orderedQueues.length.gcd (w.laneRing members lane).length] := by
  simp only [Worker.leads_iff_residues hfloor hbase]
  exact exists_cursor_iff _ _ _ _

end Worker

/-! ## Two lanes, two categories -/

def twoLaneFloor : Worker Nat Nat where
  orderedQueues := [.storage 0 none (.tier .template), .storage 0 none (.tier .maintenance)]
  floor := true
  govEnabled := true
  categoryWeights := fun _ => none
  wrrCursor := 0

def twoCategories : List (QueueName Nat Nat) :=
  [.storage 0 (some 1) (.tier .template), .storage 0 (some 2) (.tier .template)]

theorem twoLaneFloor_ring : twoLaneFloor.laneRing twoCategories (0, .template) = [1, 2] := by
  decide

/-- The template lane leads the even polls, and on even polls category 1 leads the lane:
category 2 never comes first. -/
theorem floor_starves_category :
    2 ∈ twoLaneFloor.laneRing twoCategories (0, .template)
      ∧ ¬ ∃ cursor, twoLaneFloor.Leads 0 twoCategories (fun _ _ => false) cursor
        (0, .template) 2 := by
  refine ⟨by decide, ?_⟩
  rintro ⟨cursor, hleads⟩
  rw [Worker.leads_iff_residues rfl (by decide), twoLaneFloor_ring] at hleads
  obtain ⟨hlane, hc⟩ := hleads
  rcases Nat.mod_two_eq_zero_or_one (cursor + 1) with heven | hodd
  · simp [heven] at hc
  · simp [twoLaneFloor, hodd] at hlane

/-- Category 1 is at a position of the lane's parity, and it does lead. -/
theorem floor_leads_category_one :
    ∃ cursor, twoLaneFloor.Leads 0 twoCategories (fun _ _ => false) cursor (0, .template) 1 :=
  (floor_leads_iff rfl (by decide) 0 twoCategories (fun _ _ => false) (0, .template) 1).mpr
    ⟨0, 0, rfl, by rw [twoLaneFloor_ring]; rfl, Nat.ModEq.refl 0⟩

end IsardVDI.Storage
