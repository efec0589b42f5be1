import IsardVDI.Storage.Rows

/-!
# `models/storage.py` — `set_maintenance`

A disk is parked with its domains, one after the other: an excluded one without a test, every other
one while its status allows it. When a status does not, the flipped ones are put back. Others may
write to the domains at any time.
-/

namespace IsardVDI.Storage.Maintenance

open Function

inductive Access where
  | write
  | read
  | create
  deriving DecidableEq

structure DiskAction (S : Type) where
  access : Access
  statuses : Option (List StorageStatus)
  domains : Option (List S)

structure Row (S A : Type) where
  status : S
  currentAction : Option A
  deriving DecidableEq

abbrev Rows (D S A : Type) := D → Row S A

/-- What others write: before the turn of a domain, within it and before it is put back. -/
structure Others (D S A : Type) where
  before : Rows D S A → Rows D S A
  within : Rows D S A → Rows D S A
  undo : Rows D S A → Rows D S A

structure Outcome (D S A : Type) where
  raised : Bool
  status : StorageStatus
  rows : Rows D S A

/-- What `set_maintenance` is called with, and what others do meanwhile. -/
structure Call (D S A : Type) where
  parked : S
  action : A
  excluded : List D
  others : D → Others D S A

namespace Call

variable {D S A : Type} [DecidableEq D] [DecidableEq S] (c : Call D S A)

def undo (flipped : List (D × S)) (rows : Rows D S A) : Rows D S A :=
  flipped.foldl (fun rows turn =>
    update ((c.others turn.1).undo rows) turn.1 ⟨turn.2, none⟩) rows

/-- An excluded domain: its action first, then its status. -/
def parkExcluded (item : D) (rows : Rows D S A) : Rows D S A :=
  let rows := (c.others item).within
    (update rows item { rows item with currentAction := some c.action })
  update rows item { rows item with status := c.parked }

/-- One turn of the loop: what it adds to `flipped` and the rows it leaves, or the rows that refuse
it. -/
def turn (allowed : List S) (item : D) (rows : Rows D S A) :
    Except (Rows D S A) (List (D × S) × Rows D S A) :=
  let rows := (c.others item).before rows
  if item ∈ c.excluded then .ok ([], c.parkExcluded item rows)
  else
    let prior := (rows item).status
    let rows := (c.others item).within rows
    if (rows item).status ∈ allowed then
      .ok ([(item, prior)], update rows item ⟨c.parked, some c.action⟩)
    else .error rows

/-- The loop over the domains, and whether it came to its end. -/
def flip (allowed : List S) : List D → List (D × S) → Rows D S A → Bool × Rows D S A
  | [], _, rows => (true, rows)
  | item :: rest, flipped, rows =>
    match c.turn allowed item rows with
    | .ok (done, rows) => flip allowed rest (flipped ++ done) rows
    | .error rows => (false, c.undo flipped rows)

/-- `refused` is the answer of `_refusal`. -/
def setMaintenance (entry : DiskAction S) (refused : Bool) (domains : List D)
    (was : StorageStatus) (rows : Rows D S A) : Outcome D S A :=
  let fresh : Bool := entry.access = .create && entry.statuses.isNone
  if !fresh && (entry.access ≠ .write || entry.domains.isNone) then ⟨true, was, rows⟩
  else if !fresh && refused then ⟨true, was, rows⟩
  else if entry.statuses.any (was ∉ ·) then ⟨true, was, rows⟩
  else if fresh then ⟨false, .maintenance, rows⟩
  else
    let (done, rows) := c.flip (entry.domains.getD []) domains [] rows
    ⟨!done, if done then .maintenance else was, rows⟩

/-- The loop gets past the turn of `d`: up to it, every domain is excluded or has an allowed
status. -/
def passes (allowed : List S) (d : D) : List D → Rows D S A → Bool
  | [], _ => false
  | item :: rest, rows =>
    match c.turn allowed item rows with
    | .ok (_, rows) => d = item || passes allowed d rest rows
    | .error _ => false

/-- Nobody else writes to the domain. -/
def Untouched (d : D) : Prop :=
  ∀ item rows, (c.others item).before rows d = rows d ∧ (c.others item).within rows d = rows d
    ∧ (c.others item).undo rows d = rows d

/-- What a call that raises after the turn of the domain leaves of its row. -/
def left (d : D) (r : Row S A) : Row S A :=
  if d ∈ c.excluded then ⟨c.parked, some c.action⟩ else ⟨r.status, none⟩

/-- The rows that the call leaves or puts back: an excluded domain that was parked already, and one
that is not excluded and has no action. -/
def Restorable (d : D) (r : Row S A) : Prop :=
  if d ∈ c.excluded then r = ⟨c.parked, some c.action⟩ else r.currentAction = none

variable {c} {d : D} {rows rows' : Rows D S A} {flipped : List (D × S)} {allowed : List S}
  {items : List D}

omit [DecidableEq S] in
theorem left_eq_iff {r : Row S A} : c.left d r = r ↔ c.Restorable d r := by
  obtain ⟨status, currentAction⟩ := r
  unfold left Restorable
  split_ifs <;> simp [eq_comm]

omit [DecidableEq S] in
theorem undo_append (done : List (D × S)) :
    c.undo (flipped ++ done) rows = c.undo done (c.undo flipped rows) :=
  List.foldl_append

section Spared

variable (hspared : c.Untouched d)

include hspared

omit [DecidableEq S] in
theorem undo_congr (h : rows d = rows' d) : c.undo flipped rows d = c.undo flipped rows' d := by
  induction flipped generalizing rows rows' with
  | nil => exact h
  | cons turn flipped ih =>
    refine ih ?_
    dsimp only
    by_cases hitem : d = turn.1
    · rw [hitem, update_self, update_self]
    · rw [update_of_ne hitem, update_of_ne hitem, (hspared _ _).2.2, (hspared _ _).2.2, h]

omit [DecidableEq S] in
theorem undo_of_not_mem (hd : d ∉ flipped.map Prod.fst) : c.undo flipped rows d = rows d := by
  induction flipped generalizing rows with
  | nil => rfl
  | cons turn flipped ih =>
    obtain ⟨hne, hd⟩ := not_or.mp (List.mem_cons.not.mp hd)
    exact (ih hd).trans ((update_of_ne hne ..).trans (hspared _ _).2.2)

variable {item : D} {done : List (D × S)}

/-- A turn leaves the other domains alone. -/
theorem turn_other (hne : d ≠ item) (h : c.turn allowed item rows = .ok (done, rows')) :
    rows' d = rows d ∧ d ∉ done.map Prod.fst := by
  have hbefore := (hspared item rows).1
  unfold turn at h
  dsimp only at h
  split_ifs at h <;> cases h
  · refine ⟨?_, List.not_mem_nil⟩
    rw [parkExcluded, update_of_ne hne, (hspared item _).2.1, update_of_ne hne, hbefore]
  · refine ⟨?_, by simpa using hne⟩
    rw [update_of_ne hne, (hspared item _).2.1, hbefore]

theorem turn_own (hd : d ∉ flipped.map Prod.fst)
    (h : c.turn allowed d rows = .ok (done, rows')) :
    c.undo (flipped ++ done) rows' d = c.left d (rows d) := by
  unfold turn at h
  dsimp only at h
  rw [undo_append]
  split_ifs at h with hexcluded hallowed <;> cases h
  · rw [left, if_pos hexcluded]
    show c.undo flipped _ d = _
    rw [undo_of_not_mem hspared hd, parkExcluded, update_self, (hspared d _).2.1, update_self]
  · rw [left, if_neg hexcluded, ← (hspared d rows).1]
    exact update_self ..

theorem turn_refused (h : c.turn allowed item rows = .error rows') : rows' d = rows d := by
  unfold turn at h
  dsimp only at h
  split_ifs at h
  cases h
  rw [(hspared item _).2.1, (hspared item _).1]

omit hspared in
theorem passes_of_not_mem (hd : d ∉ items) : c.passes allowed d items rows = false := by
  induction items generalizing rows with
  | nil => rfl
  | cons item items ih =>
    obtain ⟨hne, hd⟩ := not_or.mp (List.mem_cons.not.mp hd)
    unfold passes
    split
    · simp [hne, ih hd]
    · rfl

theorem flip_row (hnodup : items.Nodup) (hflipped : d ∈ items → d ∉ flipped.map Prod.fst)
    (hfailed : (c.flip allowed items flipped rows).1 = false) :
    (c.flip allowed items flipped rows).2 d
      = if c.passes allowed d items rows then c.left d (rows d) else c.undo flipped rows d := by
  induction items generalizing flipped rows with
  | nil => cases hfailed
  | cons item items ih =>
    obtain ⟨hitem, hrest⟩ := List.nodup_cons.mp hnodup
    unfold flip at hfailed ⊢
    unfold passes
    split at hfailed
    · next done rows₁ hturn =>
      by_cases hd : d = item
      · subst hd
        rw [ih hrest (absurd · hitem) hfailed]
        simp [passes_of_not_mem hitem, turn_own hspared (hflipped List.mem_cons_self) hturn]
      · obtain ⟨hsame, hdone⟩ := turn_other hspared hd hturn
        rw [ih hrest ?_ hfailed, undo_append, undo_of_not_mem hspared hdone,
          undo_congr hspared hsame, hsame]
        · simp [hd]
        · intro hmem
          rw [List.map_append, List.mem_append]
          exact not_or.mpr ⟨hflipped (.tail _ hmem), hdone⟩
    · next rows₁ hturn =>
      exact undo_congr hspared (turn_refused hspared hturn)

end Spared

/-- The call gets to the loop. -/
def Parks (entry : DiskAction S) (refused : Bool) (was : StorageStatus) : Prop :=
  entry.access = .write ∧ entry.domains.isSome ∧ refused = false
    ∧ ∀ statuses, entry.statuses = some statuses → was ∈ statuses

/-- **What a call that raises leaves.** The disk is as it was; and all domains that nobody else
writes to are, exactly when those that the loop gets past are restorable. -/
theorem setMaintenance_restores_iff (entry : DiskAction S) (refused : Bool) {domains : List D}
    (hnodup : domains.Nodup) (was : StorageStatus) (rows : Rows D S A)
    (hraised : (c.setMaintenance entry refused domains was rows).raised) :
    (c.setMaintenance entry refused domains was rows).status = was
      ∧ ((∀ d ∈ domains, c.Untouched d →
          (c.setMaintenance entry refused domains was rows).rows d = rows d)
        ↔ (Parks entry refused was → ∀ d ∈ domains, c.Untouched d →
          c.passes (entry.domains.getD []) d domains rows → c.Restorable d (rows d))) := by
  unfold setMaintenance at hraised ⊢
  dsimp only at hraised ⊢
  split_ifs at hraised ⊢ with hentry hrefused hstatuses hfresh hdone
  · refine ⟨rfl, iff_of_true (fun _ _ _ => rfl) fun hparks => ?_⟩
    simp [hparks.1, Option.isNone_eq_false_iff.mpr hparks.2.1] at hentry
  · refine ⟨rfl, iff_of_true (fun _ _ _ => rfl) fun hparks => ?_⟩
    simp [hparks.2.2.1] at hrefused
  · refine ⟨rfl, iff_of_true (fun _ _ _ => rfl) fun hparks => ?_⟩
    cases hsome : entry.statuses with
    | none => simp [hsome] at hstatuses
    | some statuses => simp [hsome, hparks.2.2.2 statuses hsome] at hstatuses
  · rw [hdone] at hraised
    cases hraised
  · have hparks : Parks entry refused was := by
      simp only [Bool.not_eq_true] at hentry hrefused hstatuses hfresh
      obtain ⟨hwrite, hdomains⟩ : entry.access = .write ∧ entry.domains.isSome := by
        simpa [hfresh] using hentry
      refine ⟨hwrite, hdomains, ?_, fun statuses hsome => ?_⟩
      · simpa [hfresh] using hrefused
      · simpa [hsome] using hstatuses
    have hfailed : (c.flip (entry.domains.getD []) domains [] rows).1 = false := by
      simpa using hraised
    refine ⟨rfl, ?_⟩
    rw [forall_prop_of_true hparks]
    refine forall₃_congr fun d hd hspared => ?_
    dsimp only
    rw [flip_row hspared hnodup (fun _ => List.not_mem_nil) hfailed, ← left_eq_iff]
    split_ifs with hpass <;> simp [hpass, undo]

end Call

open Call

/-- Statuses are 0 for stopped, 1 for started and 2 for maintenance. Others start domain 2 while
domain 1 is parked. -/
def parkExcept (excluded : List Nat) : Call Nat Nat Nat where
  parked := 2
  action := 7
  excluded := excluded
  others _ := ⟨id, fun rows => update rows 2 ⟨1, none⟩, id⟩

def parkThree (excluded : List Nat) : Outcome Nat Nat Nat :=
  (parkExcept excluded).setMaintenance ⟨.write, some [.ready], some [0]⟩ false [1, 2, 3] .ready
    fun _ => ⟨0, none⟩

/-- Domain 1 is put back, and the excluded domain 3 is not reached. -/
theorem parkThree_restored : (parkThree [3]).raised = true
    ∧ (parkThree [3]).rows 1 = ⟨0, none⟩ ∧ (parkThree [3]).rows 3 = ⟨0, none⟩ := by
  have hspared : ∀ d, d ≠ 2 → (parkExcept [3]).Untouched d :=
    fun d hd _ _ => ⟨rfl, update_of_ne hd .., rfl⟩
  have hrows : ∀ d ∈ [1, 2, 3], (parkExcept [3]).Untouched d →
      (parkThree [3]).rows d = ⟨0, none⟩ := by
    refine (setMaintenance_restores_iff _ _ (by decide) _ _ (by decide)).2.mpr ?_
    simp only [List.forall_mem_cons]
    exact fun _ => ⟨fun _ _ => rfl, fun _ _ => rfl, fun _ hpass => absurd hpass (by decide),
      List.forall_mem_nil _⟩
  exact ⟨by decide, hrows 1 (by decide) (hspared 1 (by decide)),
    hrows 3 (by decide) (hspared 3 (by decide))⟩

/-- Domain 1 is excluded, and stays parked. -/
theorem excluded_stays : (parkThree [1]).raised = true ∧ (parkThree [1]).rows 1 = ⟨2, some 7⟩ := by
  decide

end IsardVDI.Storage.Maintenance
