import Mathlib.Order.Lattice
import Mathlib.Data.List.Basic

/-!
# Interval dictionaries

Dictionaries whose keys are intervals of a linear order, in the manner of the Python
package `portion`: `combine` overlays two of them, applying a function where both are
defined, and iterating a dictionary gives its atomic (connected, non-empty) pieces.
-/

namespace IsardVDI

open List

/-! ## Intervals -/

structure Interval (T : Type) where
  lower : T
  upper : T
  lowerClosed : Bool
  upperClosed : Bool
  deriving DecidableEq, Repr

namespace Interval

variable {T : Type} [LinearOrder T]

def closed (a b : T) : Interval T := ⟨a, b, true, true⟩

def AboveLower (i : Interval T) (x : T) : Prop :=
  if i.lowerClosed then i.lower ≤ x else i.lower < x

def BelowUpper (i : Interval T) (x : T) : Prop :=
  if i.upperClosed then x ≤ i.upper else x < i.upper

instance (i : Interval T) (x : T) : Decidable (i.AboveLower x) := by
  unfold AboveLower; infer_instance

instance (i : Interval T) (x : T) : Decidable (i.BelowUpper x) := by
  unfold BelowUpper; infer_instance

instance : Membership T (Interval T) := ⟨fun i x => i.AboveLower x ∧ i.BelowUpper x⟩

instance (i : Interval T) (x : T) : Decidable (x ∈ i) :=
  inferInstanceAs (Decidable (i.AboveLower x ∧ i.BelowUpper x))

variable {i j : Interval T} {x : T}

theorem mem_iff : x ∈ i ↔ i.AboveLower x ∧ i.BelowUpper x := Iff.rfl

@[simp] theorem mem_closed {a b : T} : x ∈ closed a b ↔ a ≤ x ∧ x ≤ b := Iff.rfl

def isEmpty (i : Interval T) : Bool :=
  !(decide (i.lower < i.upper)
    || (decide (i.lower = i.upper) && i.lowerClosed && i.upperClosed))

/-- `j in i`: the empty interval is in every interval, any other by its bounds. -/
def contains (i j : Interval T) : Bool :=
  j.isEmpty
    || ((decide (i.lower < j.lower)
          || (decide (i.lower = j.lower) && (i.lowerClosed || !j.lowerClosed)))
        && (decide (j.upper < i.upper)
          || (decide (j.upper = i.upper) && (i.upperClosed || !j.upperClosed))))

theorem aboveLower_of_lt (h : i.lower < x) : i.AboveLower x := by
  unfold AboveLower; split
  · exact h.le
  · exact h

theorem belowUpper_of_lt (h : x < i.upper) : i.BelowUpper x := by
  unfold BelowUpper; split
  · exact h.le
  · exact h

theorem AboveLower.lower_le (h : i.AboveLower x) : i.lower ≤ x := by
  unfold AboveLower at h; split at h
  · exact h
  · exact h.le

theorem BelowUpper.le_upper (h : i.BelowUpper x) : x ≤ i.upper := by
  unfold BelowUpper at h; split at h
  · exact h
  · exact h.le

theorem exists_mem_of_not_isEmpty [DenselyOrdered T] (h : i.isEmpty = false) : ∃ x, x ∈ i := by
  simp only [isEmpty, Bool.not_eq_false', Bool.or_eq_true, Bool.and_eq_true, decide_eq_true_eq] at h
  rcases h with h | ⟨⟨heq, hlower⟩, hupper⟩
  · obtain ⟨x, hx1, hx2⟩ := exists_between h
    exact ⟨x, aboveLower_of_lt hx1, belowUpper_of_lt hx2⟩
  · refine ⟨i.lower, ?_, ?_⟩
    · unfold AboveLower; rw [if_pos hlower]
    · unfold BelowUpper; rw [if_pos hupper, heq]

theorem not_isEmpty_of_mem (h : x ∈ i) : i.isEmpty = false := by
  obtain ⟨h1, h2⟩ := h
  unfold AboveLower at h1
  unfold BelowUpper at h2
  simp only [isEmpty, Bool.not_eq_false', Bool.or_eq_true, Bool.and_eq_true, decide_eq_true_eq]
  split at h1 <;> split at h2
  · next hl hu =>
    rcases (h1.trans h2).lt_or_eq with h | h
    · exact .inl h
    · exact .inr ⟨⟨h, hl⟩, hu⟩
  · exact .inl (lt_of_le_of_lt h1 h2)
  · exact .inl (lt_of_lt_of_le h1 h2)
  · exact .inl (h1.trans h2)

/-- The larger of the two lower bounds and the smaller of the two upper bounds. -/
def inter (i j : Interval T) : Interval T where
  lower := if i.lower < j.lower then j.lower else i.lower
  lowerClosed :=
    if i.lower < j.lower then j.lowerClosed
    else if j.lower < i.lower then i.lowerClosed
    else i.lowerClosed && j.lowerClosed
  upper := if j.upper < i.upper then j.upper else i.upper
  upperClosed :=
    if j.upper < i.upper then j.upperClosed
    else if i.upper < j.upper then i.upperClosed
    else i.upperClosed && j.upperClosed

theorem aboveLower_inter : (inter i j).AboveLower x ↔ i.AboveLower x ∧ j.AboveLower x := by
  rcases lt_trichotomy i.lower j.lower with h | h | h
  · have hinter : (inter i j).AboveLower x ↔ j.AboveLower x := by simp [AboveLower, inter, h]
    rw [hinter]
    exact ⟨fun hx => ⟨aboveLower_of_lt (h.trans_le hx.lower_le), hx⟩, fun hx => hx.2⟩
  · unfold AboveLower inter
    simp only [h, lt_irrefl, if_false]
    cases i.lowerClosed <;> cases j.lowerClosed <;> simp +contextual [le_of_lt]
  · have hinter : (inter i j).AboveLower x ↔ i.AboveLower x := by
      simp [AboveLower, inter, h, h.not_gt]
    rw [hinter]
    exact ⟨fun hx => ⟨hx, aboveLower_of_lt (h.trans_le hx.lower_le)⟩, fun hx => hx.1⟩

theorem belowUpper_inter : (inter i j).BelowUpper x ↔ i.BelowUpper x ∧ j.BelowUpper x := by
  rcases lt_trichotomy i.upper j.upper with h | h | h
  · have hinter : (inter i j).BelowUpper x ↔ i.BelowUpper x := by
      simp [BelowUpper, inter, h, h.not_gt]
    rw [hinter]
    exact ⟨fun hx => ⟨hx, belowUpper_of_lt (hx.le_upper.trans_lt h)⟩, fun hx => hx.1⟩
  · unfold BelowUpper inter
    simp only [h, lt_irrefl, if_false]
    cases i.upperClosed <;> cases j.upperClosed <;> simp +contextual [le_of_lt]
  · have hinter : (inter i j).BelowUpper x ↔ j.BelowUpper x := by simp [BelowUpper, inter, h]
    rw [hinter]
    exact ⟨fun hx => ⟨belowUpper_of_lt (hx.le_upper.trans_lt h), hx⟩, fun hx => hx.2⟩

theorem mem_inter : x ∈ inter i j ↔ x ∈ i ∧ x ∈ j := by
  rw [mem_iff, mem_iff, mem_iff, aboveLower_inter, belowUpper_inter]
  tauto

/-- The part of `i` below `j` and the part of `i` above `j`, without the empty ones. -/
def diff (i j : Interval T) : List (Interval T) :=
  [inter i ⟨i.lower, j.lower, i.lowerClosed, !j.lowerClosed⟩,
    inter i ⟨j.upper, i.upper, !j.upperClosed, i.upperClosed⟩].filter fun k => !k.isEmpty

theorem mem_below :
    x ∈ inter i ⟨i.lower, j.lower, i.lowerClosed, !j.lowerClosed⟩
      ↔ x ∈ i ∧ ¬ j.AboveLower x := by
  have hupper : BelowUpper ⟨i.lower, j.lower, i.lowerClosed, !j.lowerClosed⟩ x
      ↔ ¬ j.AboveLower x := by
    unfold BelowUpper AboveLower
    cases j.lowerClosed <;> simp
  rw [mem_inter, mem_iff, mem_iff, hupper]
  constructor
  · exact fun h => ⟨h.1, h.2.2⟩
  · exact fun h => ⟨h.1, h.1.1, h.2⟩

theorem mem_above :
    x ∈ inter i ⟨j.upper, i.upper, !j.upperClosed, i.upperClosed⟩
      ↔ x ∈ i ∧ ¬ j.BelowUpper x := by
  have hlower : AboveLower ⟨j.upper, i.upper, !j.upperClosed, i.upperClosed⟩ x
      ↔ ¬ j.BelowUpper x := by
    unfold BelowUpper AboveLower
    cases j.upperClosed <;> simp
  rw [mem_inter, mem_iff, mem_iff, hlower]
  constructor
  · exact fun h => ⟨h.1, h.2.1⟩
  · exact fun h => ⟨h.1, h.2, h.1.2⟩

theorem mem_diff : (∃ k ∈ diff i j, x ∈ k) ↔ x ∈ i ∧ x ∉ j := by
  constructor
  · intro ⟨k, hk, hx⟩
    simp only [diff, mem_filter, mem_cons, not_mem_nil, or_false] at hk
    rcases hk.1 with rfl | rfl
    · obtain ⟨hi, hj⟩ := mem_below.mp hx
      exact ⟨hi, fun h => hj h.1⟩
    · obtain ⟨hi, hj⟩ := mem_above.mp hx
      exact ⟨hi, fun h => hj h.2⟩
  · intro ⟨hi, hj⟩
    -- a point outside `j` is below it or above it
    by_cases hl : j.AboveLower x
    · have hx := mem_above.mpr ⟨hi, fun hu => hj ⟨hl, hu⟩⟩
      exact ⟨_, by simp [diff, not_isEmpty_of_mem hx], hx⟩
    · have hx := mem_below.mpr ⟨hi, hl⟩
      exact ⟨_, by simp [diff, not_isEmpty_of_mem hx], hx⟩

def diffAll (i : Interval T) : List (Interval T) → List (Interval T)
  | [] => [i]
  | j :: js => (diff i j).flatMap fun k => diffAll k js

variable {js : List (Interval T)}

theorem mem_diffAll : (∃ k ∈ diffAll i js, x ∈ k) ↔ x ∈ i ∧ ∀ j ∈ js, x ∉ j := by
  induction js generalizing i with
  | nil => simp [diffAll]
  | cons j js ih =>
    have hstep : (∃ k ∈ diffAll i (j :: js), x ∈ k)
        ↔ ∃ m ∈ diff i j, ∃ k ∈ diffAll m js, x ∈ k := by
      simp only [diffAll, mem_flatMap]
      constructor
      · intro ⟨k, ⟨m, hm, hk⟩, hx⟩
        exact ⟨m, hm, k, hk, hx⟩
      · intro ⟨m, hm, k, hk, hx⟩
        exact ⟨k, ⟨m, hm, hk⟩, hx⟩
    rw [hstep]
    simp only [ih, forall_mem_cons]
    constructor
    · intro ⟨m, hm, hxm, hjs⟩
      obtain ⟨hi, hj⟩ := mem_diff.mp ⟨m, hm, hxm⟩
      exact ⟨hi, hj, hjs⟩
    · intro ⟨hi, hj, hjs⟩
      obtain ⟨m, hm, hxm⟩ := mem_diff.mpr ⟨hi, hj⟩
      exact ⟨m, hm, hxm, hjs⟩

variable {k : Interval T}

theorem mem_of_contains (h : i.contains j) (hx : x ∈ j) : x ∈ i := by
  rw [contains, not_isEmpty_of_mem hx, Bool.false_or] at h
  rw [mem_iff, AboveLower, BelowUpper] at hx ⊢
  grind

theorem mem_iff_of_ne (hlower : i.lower ≠ x) (hupper : i.upper ≠ x) :
    x ∈ i ↔ i.lower ≤ x ∧ x ≤ i.upper := by
  constructor
  · exact fun h => ⟨h.1.lower_le, h.2.le_upper⟩
  · intro ⟨hl, hu⟩
    exact ⟨aboveLower_of_lt (hl.lt_of_ne hlower), belowUpper_of_lt (hu.lt_of_ne hupper.symm)⟩

def Within (B : T → Prop) (i : Interval T) : Prop := B i.lower ∧ B i.upper

variable {B : T → Prop}

theorem Within.inter (hi : i.Within B) (hj : j.Within B) : (i.inter j).Within B := by
  unfold Within Interval.inter
  dsimp only
  constructor
  · split
    · exact hj.1
    · exact hi.1
  · split
    · exact hj.2
    · exact hi.2

theorem Within.diffAll (hi : i.Within B) (hjs : ∀ j ∈ js, j.Within B) (hk : k ∈ i.diffAll js) :
    k.Within B := by
  induction js generalizing i with
  | nil => rwa [mem_singleton.mp hk]
  | cons j js ih =>
    obtain ⟨m, hm, hk⟩ := mem_flatMap.mp hk
    have hj := hjs j (.head _)
    refine ih ?_ (fun j hj => hjs j (.tail _ hj)) hk
    rw [diff, mem_filter, List.mem_pair] at hm
    rcases hm.1 with rfl | rfl
    · exact hi.inter ⟨hi.1, hj.1⟩
    · exact hi.inter ⟨hj.2, hi.2⟩

end Interval

/-! ## The package -/

def overlay {V : Type} (how : V → V → V) : Option V → Option V → Option V
  | some v, some w => some (how v w)
  | some v, none => some v
  | none, w => w

theorem foldl_overlay {V : Type} (how : V → V → V) (v : V) (ws : List V) :
    ws.foldl (fun v w => overlay how v (some w)) (some v) = some (ws.foldl how v) := by
  induction ws generalizing v with
  | nil => rfl
  | cons w ws ih => exact ih (how v w)

/-- `portion`'s interval dictionaries. `get d x` is `d[x]`; `items d` lists the atomic
intervals of the keys with their values. -/
structure Portion (T : Type) [LinearOrder T] where
  IntervalDict : Type → Type
  empty : {V : Type} → IntervalDict V
  single : {V : Type} → Interval T → V → IntervalDict V
  combine : {V : Type} → IntervalDict V → IntervalDict V → (V → V → V) → IntervalDict V
  items : {V : Type} → IntervalDict V → List (Interval T × V)
  get : {V : Type} → IntervalDict V → T → Option V
  get_empty : ∀ {V : Type} (x : T), get (empty : IntervalDict V) x = none
  get_single : ∀ {V : Type} (i : Interval T) (v : V) (x : T),
    get (single i v) x = if x ∈ i then some v else none
  get_combine : ∀ {V : Type} (d e : IntervalDict V) (how : V → V → V) (x : T),
    get (combine d e how) x = overlay how (get d x) (get e x)
  mem_items : ∀ {V : Type} (d : IntervalDict V) (x : T) (v : V),
    get d x = some v ↔ ∃ i, (i, v) ∈ items d ∧ x ∈ i
  items_nonempty : ∀ {V : Type} (d : IntervalDict V) (i : Interval T) (v : V),
    (i, v) ∈ items d → ∃ x, x ∈ i

namespace Portion

variable {T : Type} [LinearOrder T]

/-! ## An implementation by pieces -/

variable {V : Type}

def Functional (l : List (Interval T × V)) : Prop :=
  ∀ p ∈ l, ∀ q ∈ l, ∀ x, x ∈ p.1 → x ∈ q.1 → p.2 = q.2

/-- The value of the first piece that contains the point. -/
def lookup (l : List (Interval T × V)) (x : T) : Option V :=
  (l.find? fun p => decide (x ∈ p.1)).map Prod.snd

theorem lookup_eq_some {l : List (Interval T × V)} (hl : Functional l) {x : T}
    {v : V} : lookup l x = some v ↔ ∃ i, (i, v) ∈ l ∧ x ∈ i := by
  unfold lookup
  constructor
  · intro h
    obtain ⟨p, hp, hv⟩ := Option.map_eq_some_iff.mp h
    have hmem := mem_of_find?_eq_some hp
    have hx := find?_some hp
    rw [decide_eq_true_eq] at hx
    exact ⟨p.1, by rw [← hv]; exact hmem, hx⟩
  · intro ⟨i, hi, hx⟩
    cases hf : l.find? fun p => decide (x ∈ p.1) with
    | none =>
      have := find?_eq_none.mp hf (i, v) hi
      simp only [decide_eq_true_eq] at this
      exact absurd hx this
    | some q =>
      have hq := mem_of_find?_eq_some hf
      have hxq := find?_some hf
      rw [decide_eq_true_eq] at hxq
      rw [Option.map_some, hl q hq (i, v) hi x hxq hx]

theorem lookup_eq_none {l : List (Interval T × V)} {x : T} :
    lookup l x = none ↔ ∀ j ∈ l.map Prod.fst, x ∉ j := by
  simp [lookup]

/-- The common parts with the combined values, then what each side has alone. -/
def combinePieces (l m : List (Interval T × V)) (how : V → V → V) : List (Interval T × V) :=
  ((l.flatMap fun p => m.map fun q => (p.1.inter q.1, how p.2 q.2))
    ++ (l.flatMap fun p => (p.1.diffAll (m.map Prod.fst)).map fun k => (k, p.2))
    ++ (m.flatMap fun q => (q.1.diffAll (l.map Prod.fst)).map fun k => (k, q.2))).filter
      fun p => !p.1.isEmpty

variable {l m : List (Interval T × V)}

theorem exists_mem_combinePieces {how : V → V → V} {x : T} {v : V} :
    (∃ i, (i, v) ∈ combinePieces l m how ∧ x ∈ i) ↔
      (∃ p ∈ l, ∃ q ∈ m, how p.2 q.2 = v ∧ x ∈ p.1 ∧ x ∈ q.1)
        ∨ (∃ p ∈ l, p.2 = v ∧ ∃ k ∈ p.1.diffAll (m.map Prod.fst), x ∈ k)
        ∨ (∃ q ∈ m, q.2 = v ∧ ∃ k ∈ q.1.diffAll (l.map Prod.fst), x ∈ k) := by
  unfold combinePieces
  simp only [mem_filter, mem_append, mem_flatMap, mem_map, Prod.mk.injEq]
  constructor
  · rintro ⟨i, ⟨(⟨p, hp, q, hq, rfl, rfl⟩ | ⟨p, hp, k, hk, rfl, rfl⟩)
      | ⟨q, hq, k, hk, rfl, rfl⟩, _⟩, hx⟩
    · obtain ⟨hxp, hxq⟩ := Interval.mem_inter.mp hx
      exact .inl ⟨p, hp, q, hq, rfl, hxp, hxq⟩
    · exact .inr (.inl ⟨p, hp, rfl, _, hk, hx⟩)
    · exact .inr (.inr ⟨q, hq, rfl, _, hk, hx⟩)
  · rintro (⟨p, hp, q, hq, rfl, hxp, hxq⟩ | ⟨p, hp, rfl, k, hk, hx⟩ | ⟨q, hq, rfl, k, hk, hx⟩)
    · have hx := Interval.mem_inter.mpr ⟨hxp, hxq⟩
      exact ⟨_, ⟨.inl (.inl ⟨p, hp, q, hq, rfl, rfl⟩),
        by simp [Interval.not_isEmpty_of_mem hx]⟩, hx⟩
    · exact ⟨_, ⟨.inl (.inr ⟨p, hp, k, hk, rfl, rfl⟩),
        by simp [Interval.not_isEmpty_of_mem hx]⟩, hx⟩
    · exact ⟨_, ⟨.inr ⟨q, hq, k, hk, rfl, rfl⟩,
        by simp [Interval.not_isEmpty_of_mem hx]⟩, hx⟩

theorem mem_combinePieces (hl : Functional l)
    (hm : Functional m) {how : V → V → V} {x : T} {v : V} :
    (∃ i, (i, v) ∈ combinePieces l m how ∧ x ∈ i)
      ↔ overlay how (lookup l x) (lookup m x) = some v := by
  rw [exists_mem_combinePieces]
  simp only [Interval.mem_diffAll]
  -- which of the three kinds of pieces can have the point depends on who has it
  cases hvl : lookup l x with
  | none =>
    have hnl := lookup_eq_none.mp hvl
    have hnp : ∀ p ∈ l, x ∉ p.1 := fun p hp => hnl p.1 (mem_map_of_mem hp)
    constructor
    · rintro (⟨p, hp, _, _, _, hx, _⟩ | ⟨p, hp, _, hx, _⟩ | ⟨q, hq, rfl, hx, _⟩)
      · exact absurd hx (hnp p hp)
      · exact absurd hx (hnp p hp)
      · exact (lookup_eq_some hm).mpr ⟨q.1, hq, hx⟩
    · intro h
      obtain ⟨i, hi, hx⟩ := (lookup_eq_some hm).mp h
      exact .inr (.inr ⟨(i, v), hi, rfl, hx, hnl⟩)
  | some u =>
    obtain ⟨i, hi, hxi⟩ := (lookup_eq_some hl).mp hvl
    have hin : ¬ ∀ j ∈ l.map Prod.fst, x ∉ j :=
      fun h => h i (mem_map_of_mem hi) hxi
    cases hvm : lookup m x with
    | none =>
      have hnm := lookup_eq_none.mp hvm
      simp only [overlay, Option.some.injEq]
      constructor
      · rintro (⟨_, _, q, hq, _, _, hx⟩ | ⟨p, hp, rfl, hx, _⟩ | ⟨_, _, _, _, h⟩)
        · exact absurd hx (hnm q.1 (mem_map_of_mem hq))
        · exact hl (i, u) hi p hp x hxi hx
        · exact absurd h hin
      · rintro rfl
        exact .inr (.inl ⟨(i, u), hi, rfl, hxi, hnm⟩)
    | some w =>
      obtain ⟨j, hj, hxj⟩ := (lookup_eq_some hm).mp hvm
      have hjn : ¬ ∀ k ∈ m.map Prod.fst, x ∉ k :=
        fun h => h j (mem_map_of_mem hj) hxj
      simp only [overlay, Option.some.injEq]
      constructor
      · rintro (⟨p, hp, q, hq, rfl, hxp, hxq⟩ | ⟨_, _, _, _, h⟩ | ⟨_, _, _, _, h⟩)
        · have hu : u = p.2 := hl (i, u) hi p hp x hxi hxp
          have hw : w = q.2 := hm (j, w) hj q hq x hxj hxq
          rw [hu, hw]
        · exact absurd h hjn
        · exact absurd h hin
      · rintro rfl
        exact .inl ⟨(i, u), hi, (j, w), hj, rfl, hxi, hxj⟩

theorem functional_combinePieces (hl : Functional l)
    (hm : Functional m) (how : V → V → V) : Functional (combinePieces l m how) := by
  rintro ⟨i, v⟩ hi ⟨j, w⟩ hj x hxi hxj
  have hv := (mem_combinePieces hl hm).mp ⟨i, hi, hxi⟩
  have hw := (mem_combinePieces hl hm).mp ⟨j, hj, hxj⟩
  rw [hv] at hw
  exact Option.some.inj hw

/-- Lists of non-empty pieces that agree where they overlap. -/
structure Pieces (T : Type) [LinearOrder T] (V : Type) where
  list : List (Interval T × V)
  functional : Functional list
  nonempty : ∀ p ∈ list, p.1.isEmpty = false

def pieces (T : Type) [LinearOrder T] [DenselyOrdered T] : Portion T where
  IntervalDict V := Pieces T V
  empty := ⟨[], by simp [Functional], by simp⟩
  single i v :=
    ⟨if i.isEmpty then [] else [(i, v)],
      by split <;> simp [Functional],
      by split <;> simp_all⟩
  combine d e how :=
    ⟨combinePieces d.list e.list how, functional_combinePieces d.functional e.functional how,
      fun p hp => by simpa using (List.mem_filter.mp hp).2⟩
  items d := d.list
  get d x := lookup d.list x
  get_empty _ := rfl
  get_single i v x := by
    by_cases hx : x ∈ i
    · simp [lookup, Interval.not_isEmpty_of_mem hx, hx]
    · by_cases hi : i.isEmpty <;> simp [lookup, hi, hx]
  get_combine d e how x := by
    have hfun := functional_combinePieces d.functional e.functional how
    refine Option.ext fun v => ?_
    show lookup (combinePieces d.list e.list how) x = some v ↔ _
    rw [lookup_eq_some hfun, mem_combinePieces d.functional e.functional]
  mem_items d x v := lookup_eq_some d.functional
  items_nonempty d i v h := Interval.exists_mem_of_not_isEmpty (d.nonempty (i, v) h)

/-- The pieces of a dictionary begin and end where the overlaid windows do. -/
structure Sharp (P : Portion T) : Prop where
  single : ∀ {V : Type} (i : Interval T) (v : V) (B : T → Prop), i.Within B →
    ∀ p ∈ P.items (P.single i v), p.1.Within B
  combine : ∀ {V : Type} (d e : P.IntervalDict V) (how : V → V → V) (B : T → Prop),
    (∀ p ∈ P.items d, p.1.Within B) → (∀ p ∈ P.items e, p.1.Within B) →
      ∀ p ∈ P.items (P.combine d e how), p.1.Within B

theorem pieces_sharp [DenselyOrdered T] : (pieces T).Sharp where
  single i v B hi p hp := by
    have hp : p ∈ if i.isEmpty then [] else [(i, v)] := hp
    split at hp
    · cases hp
    · rwa [mem_singleton.mp hp]
  combine d e how B hd he p hp := by
    have hp := (mem_filter.mp hp).1
    rcases mem_append.mp hp with hp | hp
    · rcases mem_append.mp hp with hp | hp
      · obtain ⟨q, hq, hp⟩ := mem_flatMap.mp hp
        obtain ⟨r, hr, rfl⟩ := mem_map.mp hp
        exact (hd q hq).inter (he r hr)
      · obtain ⟨q, hq, hp⟩ := mem_flatMap.mp hp
        obtain ⟨k, hk, rfl⟩ := mem_map.mp hp
        exact (hd q hq).diffAll (forall_mem_map.mpr he) hk
    · obtain ⟨q, hq, hp⟩ := mem_flatMap.mp hp
      obtain ⟨k, hk, rfl⟩ := mem_map.mp hp
      exact (he q hq).diffAll (forall_mem_map.mpr hd) hk

/-! ## Overlaying one window after the other -/

section OverlayAll

variable (P : Portion T) {V : Type} (how : V → V → V) (d : P.IntervalDict V)
  (l : List (Interval T × V))

def overlayAll : P.IntervalDict V := l.foldl (fun d p => P.combine d (P.single p.1 p.2) how) d

def valuesAt (l : List (Interval T × V)) (x : T) : List V :=
  (l.filter fun p => decide (x ∈ p.1)).map Prod.snd

theorem get_overlayAll (x : T) : P.get (P.overlayAll how d l) x
    = (valuesAt l x).foldl (fun v w => overlay how v (some w)) (P.get d x) := by
  induction l generalizing d with
  | nil => rfl
  | cons p l ih =>
    refine (ih (P.combine d (P.single p.1 p.2) how)).trans ?_
    rw [P.get_combine, P.get_single, valuesAt, valuesAt, filter_cons]
    by_cases hx : x ∈ p.1
    · simp [hx]
    · cases hd : P.get d x with
      | none | some v => simp [hx, overlay]

variable {P how d l} {B : T → Prop} {x : T} {v : V}

theorem mem_valuesAt : v ∈ valuesAt l x ↔ ∃ p ∈ l, x ∈ p.1 ∧ p.2 = v := by
  simp [valuesAt, and_assoc]

theorem exists_get_overlayAll : (∃ v, P.get (P.overlayAll how d l) x = some v)
    ↔ (∃ v, P.get d x = some v) ∨ ∃ p ∈ l, x ∈ p.1 := by
  have hlaid : (∃ p ∈ l, x ∈ p.1) ↔ ∃ v, v ∈ valuesAt l x := by
    simp only [mem_valuesAt]
    exact ⟨fun ⟨p, hp, hx⟩ => ⟨p.2, p, hp, hx, rfl⟩, fun ⟨_, p, hp, hx, _⟩ => ⟨p, hp, hx⟩⟩
  rw [get_overlayAll, hlaid]
  cases P.get d x with
  | some v => simp [foldl_overlay]
  | none =>
    cases valuesAt l x with
    | nil => simp
    | cons v vs =>
      have hsome : (v :: vs).foldl (fun v w => overlay how v (some w)) none
          = some (vs.foldl how v) := foldl_overlay how v vs
      simp [hsome]

theorem mem_of_get_overlayAll (hhow : ∀ v w, how v w = v ∨ how v w = w)
    (h : P.get (P.overlayAll how d l) x = some v) :
    (∃ p ∈ l, x ∈ p.1 ∧ p.2 = v) ∨ P.get d x = some v := by
  rw [get_overlayAll] at h
  rw [← mem_valuesAt]
  generalize P.get d x = o at h ⊢
  generalize valuesAt l x = vs at h ⊢
  induction vs generalizing o with
  | nil => exact .inr h
  | cons w vs ih =>
    rcases ih _ h with h | h
    · exact .inl (.tail _ h)
    · cases o with
      | none =>
        cases h
        exact .inl (.head _)
      | some u =>
        cases h
        rcases hhow u w with hu | hw
        · exact .inr (by rw [hu])
        · exact .inl (by simp [hw])

theorem Sharp.overlayAll (hP : P.Sharp) (hd : ∀ p ∈ P.items d, p.1.Within B)
    (hl : ∀ p ∈ l, p.1.Within B) : ∀ p ∈ P.items (P.overlayAll how d l), p.1.Within B := by
  induction l generalizing d with
  | nil => exact hd
  | cons p l ih =>
    refine ih (hP.combine _ _ _ _ hd (hP.single _ _ _ (hl p (.head _)))) ?_
    exact fun q hq => hl q (.tail _ hq)

theorem items_empty : P.items (P.empty : P.IntervalDict V) = [] := by
  refine eq_nil_iff_forall_not_mem.mpr fun p hp => ?_
  obtain ⟨x, hx⟩ := P.items_nonempty _ p.1 p.2 hp
  have hget := (P.mem_items P.empty x p.2).mpr ⟨p.1, hp, hx⟩
  rw [P.get_empty] at hget
  cases hget

theorem exists_item_iff (hB : ∀ p ∈ P.items d, p.1.Within B) (hx : ¬ B x) :
    (∃ p ∈ P.items d, (p.1.lower ≤ x ∧ x ≤ p.1.upper) ∧ p.2 = v) ↔ P.get d x = some v := by
  rw [P.mem_items]
  have hmem : ∀ p ∈ P.items d, x ∈ p.1 ↔ p.1.lower ≤ x ∧ x ≤ p.1.upper := fun p hp =>
    Interval.mem_iff_of_ne (fun h => hx (h ▸ (hB p hp).1)) fun h => hx (h ▸ (hB p hp).2)
  constructor
  · rintro ⟨p, hp, hin, rfl⟩
    exact ⟨p.1, hp, (hmem p hp).mpr hin⟩
  · rintro ⟨i, hi, hin⟩
    exact ⟨(i, v), hi, (hmem _ hi).mp hin, rfl⟩

end OverlayAll

end Portion

end IsardVDI
