import IsardVDI.Lib.Machine
import IsardVDI.Migration.Saga

/-!
# `migration_run.py` — the autostart of the desktops whose disks move

Before a tree moves, `prepare` writes into each of its rows which desktops of the disk had
`server_autostart` on, and turns it off. When the tree has settled, `reactivate` turns it on again
for the desktops its rows remember, unless `_hand_over` finds another disk of the desktop still
moving: then the row of that disk is made to remember the desktop.

The memory is thus a token that is passed from tree to tree. It is written to the table, but a
tick decides with the rows it has read at its start, and `_hand_over` does not write those.

* `Owned` — a desktop that is to be on is on, or a row of a tree that has not settled remembers it.

What a step of the saga does to the states of a tree's rows is left open here: a step takes them to
any states at all. A disk is in one migration only.
-/

namespace IsardVDI.Migration.Autostart

open IsardVDI.Migration.Saga (ItemState)
open List Option

variable {I T D : Type}

/-! ## Desktops and rows -/

/-- The desktops and their disks, read from both ends, and the desktops that are servers. -/
structure Desktops (I D : Type) where
  /-- The `storage_id`s of `create_dict.hardware.disks`. -/
  disks : D → List I
  /-- `Domain.get_with_storage`. -/
  domains : I → List D
  mem_domains : ∀ d i, d ∈ domains i ↔ i ∈ disks d
  server : D → Bool

/-- A row of the ledger, as far as the autostart is concerned. `autostartDomains` is `none` until
`prepare` has recorded the desktops of the disk, each with its `was_on`. -/
structure Row (T D : Type) where
  tree : T
  state : ItemState
  autostartDomains : Option (List (D × Bool))

def Row.remembered (r : Row T D) : List D :=
  ((r.autostartDomains.getD []).filter (·.2)).map (·.1)

variable {r : Row T D}

theorem Row.mem_remembered {d : D} :
    d ∈ r.remembered ↔ ∃ recs, r.autostartDomains = some recs ∧ (d, true) ∈ recs := by
  cases h : r.autostartDomains with
  | none | some recs => simp [Row.remembered, h]

variable (writes : List (I × List (D × Bool))) {states : I → ItemState} {row'' : I → Row T D}

section Code

variable [DecidableEq I] [DecidableEq T] [DecidableEq D] (dk : Desktops I D)

/-! ## Suppression -/

/-- What `prepare` records in a row: the desktops of the disk and what they have now. -/
def records (on : D → Bool) (i : I) : List (D × Bool) :=
  (dk.domains i).map fun d => (d, on d)

/-- `plan_autostart_deactivation`: the records to write, and the desktops to turn off. -/
def planAutostartDeactivation (on : D → Bool) (items : List I) (row : I → Row T D) :
    List (I × List (D × Bool)) × List D :=
  (items.filterMap fun i =>
      match (row i).autostartDomains with
      | none => some (i, records dk on i)
      | some _ => none,
    items.flatMap fun i =>
      match (row i).autostartDomains with
      | none => (dk.domains i).filter on
      -- already recorded: only those that are on although they were to be off
      | some _ => (row i).remembered.filter fun d => decide (d ∈ dk.domains i) && on d)

/-- The table, the rows the pass has in hand, and the `server_autostart` of the desktops. -/
structure View (I T D : Type) where
  row : I → Row T D
  kept : I → Row T D
  on : D → Bool

def record (writes : List (I × List (D × Bool))) (row : I → Row T D) (i : I) : Row T D :=
  match writes.lookup i with
  | some recs => { row i with autostartDomains := some recs }
  | none => row i

variable (items : List I)

/-- `prepare`: the records are written first, then `deactivate_autostart`. -/
def View.prepare (v : View I T D) : View I T D :=
  let plan := planAutostartDeactivation dk v.on items v.kept
  { row := record plan.1 v.row
    kept := record plan.1 v.kept
    on := fun d => v.on d && decide (d ∉ plan.2) }

/-! ## Restoration -/

/-- `_hand_over`'s write: the row remembers the desktop too. -/
def Row.takeOver (d : D) (r : Row T D) : Row T D :=
  { r with
    autostartDomains := r.autostartDomains.map fun recs =>
      recs.map fun rec => (rec.1, rec.2 || decide (rec.1 = d)) }

variable (ids : List I)

/-- The first row of a disk of the desktop that is of another tree, prepared and not settled. -/
def heir (d : D) (mine : List I) (row : I → Row T D) : Option I :=
  ((dk.disks d).filter (· ∈ ids)).find? fun i =>
    decide (i ∉ mine) && (row i).autostartDomains.isSome && !(row i).state.terminal

/-- `_hand_over`: the table with the heir's row marked, or nothing when there is no heir. -/
def handOver (d : D) (mine : List I) (row : I → Row T D) : Option (I → Row T D) :=
  (heir dk ids d mine row).map fun i => Function.update row i ((row i).takeOver d)

/-- The comprehension of `reactivate`: the table after every hand-over, and the desktops that
found no heir. -/
def handOverAll (ids mine : List I) : List D → (I → Row T D) → (I → Row T D) × List D
  | [], row => (row, [])
  | d :: ds, row =>
    match handOver dk ids d mine row with
    | some row' => handOverAll ids mine ds row'
    | none => ((handOverAll ids mine ds row).1, d :: (handOverAll ids mine ds row).2)

/-- `reactivate`: what the rows in hand remember is handed over in the table or turned on.
`activate_autostart` writes the servers only. -/
def View.reactivate (ids items : List I) (v : View I T D) : View I T D :=
  let toActivate := (items.flatMap fun i => (v.kept i).remembered).eraseDups
  let done := handOverAll dk ids items toActivate v.row
  { v with
    row := done.1
    on := fun d => v.on d || (decide (d ∈ done.2) && dk.server d) }

/-! ## A tree's turn -/

/-- What a step of the saga does to rows: their states are new, all else stays. -/
def setStates (states : I → ItemState) (row : I → Row T D) (i : I) : Row T D :=
  if i ∈ items then { row i with state := states i } else row i

variable (row : I → Row T D)

def treeOf (t : T) : List I :=
  ids.filter fun i => (row i).tree = t

/-- `tree_phase(...) == "done"`. -/
def settled (row : I → Row T D) : Bool :=
  items.all fun i => (row i).state.terminal

/-- The step of the saga on the table and on the rows in hand. -/
def View.step (states keptStates : I → ItemState) (v : View I T D) : View I T D :=
  { v with
    row := setStates items states v.row
    kept := setStates items keptStates v.kept }

def View.tickTree (ids items : List I) (prepares : Bool) (states : I → ItemState)
    (v : View I T D) : View I T D :=
  let running := !settled items v.kept
  let prepared := if prepares && running then v.prepare dk items else v
  let stepped := prepared.step items states states
  if running && settled items stepped.kept then stepped.reactivate dk ids items else stepped

/-- `_drive_tree`, after the `prepare` of `_admit` when the tree is only now started. -/
def View.driveTree (ids items : List I) (admits : Bool) (states keptStates : I → ItemState)
    (v : View I T D) : View I T D :=
  let prepared := if admits then v.prepare dk items else v
  let stepped := prepared.step items states keptStates
  if settled items stepped.kept then stepped.reactivate dk ids items else stepped

end Code

variable (dk : Desktops I D) (ids : List I) (row : I → Row T D)

/-! ## Rows with more remembered -/

/-- The row `r'` is the row `r` after hand-overs: it may remember more, of the desktops it has
recorded, and is otherwise the same. -/
structure Row.Marked (r r' : Row T D) : Prop where
  tree : r'.tree = r.tree
  state : r'.state = r.state
  domains : r'.autostartDomains.map (·.map Prod.fst) = r.autostartDomains.map (·.map Prod.fst)
  remembered : ∀ d ∈ r.remembered, d ∈ r'.remembered

def Marks (row row' : I → Row T D) : Prop :=
  ∀ i, (row i).Marked (row' i)

theorem Row.Marked.refl (r : Row T D) : r.Marked r :=
  ⟨rfl, rfl, rfl, fun _ hd => hd⟩

namespace Marks

theorem refl : Marks row row :=
  fun i => Row.Marked.refl (row i)

variable {row row' : I → Row T D}

theorem trans (h : Marks row row') (h' : Marks row' row'') : Marks row row'' := by
  intro i
  exact ⟨(h' i).tree.trans (h i).tree, (h' i).state.trans (h i).state,
    (h' i).domains.trans (h i).domains,
    fun d hd => (h' i).remembered d ((h i).remembered d hd)⟩

theorem eq_none_iff (h : Marks row row') (i : I) :
    (row' i).autostartDomains = none ↔ (row i).autostartDomains = none := by
  have hdomains := (h i).domains
  cases hrow : (row i).autostartDomains <;> cases hrow' : (row' i).autostartDomains <;>
    simp_all

end Marks

/-! ## The owner of a desktop's autostart -/

def Unsettled (t : T) : Prop :=
  ∃ j ∈ ids, (row j).tree = t ∧ (row j).state.terminal = false

/-- A row of a tree still to be settled remembers the desktop. -/
def Held (d : D) : Prop :=
  ∃ i ∈ ids, d ∈ (row i).remembered ∧ Unsettled ids row (row i).tree

def Owned (want : D → Prop) (ids : List I) (row : I → Row T D) (on : D → Bool) : Prop :=
  ∀ d, want d → on d = true ∨ Held ids row d

/-- What a row has recorded are the desktops of its disk. -/
def Recorded : Prop :=
  ∀ i ∈ ids, ∀ recs, (row i).autostartDomains = some recs → recs.map Prod.fst = dk.domains i

variable {ids items : List I} {row row' kept : I → Row T D} {t : T} {d : D} {want : D → Prop}
  {on : D → Bool} {i : I} {v : View I T D}

theorem Unsettled.mono (h : Unsettled ids row t) (htree : ∀ i, (row' i).tree = (row i).tree)
    (hstate : ∀ i, (row' i).state = (row i).state) : Unsettled ids row' t := by
  obtain ⟨j, hj, hjt, hopen⟩ := h
  exact ⟨j, hj, (htree j).trans hjt, by rw [hstate j]; exact hopen⟩

theorem Held.mono (h : Held ids row d) (hmarks : Marks row row') : Held ids row' d := by
  obtain ⟨i, hi, hd, hopen⟩ := h
  refine ⟨i, hi, (hmarks i).remembered d hd, ?_⟩
  rw [(hmarks i).tree]
  exact hopen.mono (fun j => (hmarks j).tree) (fun j => (hmarks j).state)

theorem Owned.keep {ids' : List I} (h : Owned want ids row on) (hids : ∀ i ∈ ids, i ∈ ids')
    (hrow : ∀ i ∈ ids, Unsettled ids row (row i).tree →
      (row' i).remembered = (row i).remembered ∧ (row' i).tree = (row i).tree
        ∧ (row' i).state.terminal = (row i).state.terminal) : Owned want ids' row' on := by
  intro d hwant
  rcases h d hwant with hon | ⟨i, hi, hd, j, hj, hji, hopen⟩
  · exact .inl hon
  · obtain ⟨hremembered, htree, -⟩ := hrow i hi ⟨j, hj, hji, hopen⟩
    obtain ⟨-, htree', hterminal⟩ := hrow j hj ⟨j, hj, rfl, hopen⟩
    refine .inr ⟨i, hids i hi, ?_, j, hids j hj, ?_, hterminal.trans hopen⟩
    · rw [hremembered]
      exact hd
    · rw [htree, htree']
      exact hji

theorem Recorded.mono (h : Recorded dk ids row) (hmarks : Marks row row') :
    Recorded dk ids row' := by
  intro i hi recs hrecs
  have hdomains := (hmarks i).domains
  rw [hrecs] at hdomains
  cases hrow : (row i).autostartDomains with
  | none => simp [hrow] at hdomains
  | some recs' =>
    simp only [hrow, map_some, Option.some.injEq] at hdomains
    rw [hdomains]
    exact h i hi recs' hrow

theorem Recorded.mem_disks (h : Recorded dk ids row) (hi : i ∈ ids) (hd : d ∈ (row i).remembered) :
    i ∈ dk.disks d := by
  obtain ⟨recs, hrecs, hmem⟩ := Row.mem_remembered.mp hd
  rw [← dk.mem_domains, ← h i hi recs hrecs]
  exact mem_map_of_mem hmem

/-! ## Settled trees -/

theorem settled_eq_false :
    settled items row = false ↔ ∃ i ∈ items, (row i).state.terminal = false := by
  simp [settled]

theorem settled_iff : settled items row = true ↔ ∀ i ∈ items, (row i).state.terminal = true := by
  simp [settled]

def Same (row row' : I → Row T D) : Prop :=
  ∀ i, (row' i).tree = (row i).tree ∧ (row' i).state = (row i).state

theorem Marks.same (h : Marks row row') : Same row row' :=
  fun i => ⟨(h i).tree, (h i).state⟩

theorem Same.settled (h : Same row row') (items : List I) :
    settled items row' = Autostart.settled items row := by
  simp only [Autostart.settled, fun i => (h i).2]

theorem Same.trans (h : Same row row') (h' : Same row' row'') : Same row row'' :=
  fun i => ⟨(h' i).1.trans (h i).1, (h' i).2.trans (h i).2⟩

section

variable [DecidableEq T]

theorem mem_treeOf : i ∈ treeOf ids row t ↔ i ∈ ids ∧ (row i).tree = t := by
  simp [treeOf]

theorem Same.treeOf (h : Same row row') (ids : List I) (t : T) :
    treeOf ids row' t = Autostart.treeOf ids row t := by
  simp only [Autostart.treeOf, fun i => (h i).1]

theorem unsettled_of_running (h : settled (treeOf ids row t) row = false) :
    ∀ i ∈ treeOf ids row t, i ∈ ids ∧ Unsettled ids row (row i).tree := by
  intro i hi
  obtain ⟨j, hj, hopen⟩ := settled_eq_false.mp h
  obtain ⟨hjids, hjt⟩ := mem_treeOf.mp hj
  obtain ⟨hiids, hit⟩ := mem_treeOf.mp hi
  exact ⟨hiids, j, hjids, hjt.trans hit.symm, hopen⟩

end

variable [DecidableEq I]

namespace Marks

theorem setStates (h : Marks row row') (items : List I) (states : I → ItemState) :
    Marks (setStates items states row) (Autostart.setStates items states row') := by
  intro i
  simp only [Autostart.setStates]
  split
  · exact ⟨(h i).tree, rfl, (h i).domains, (h i).remembered⟩
  · exact h i

theorem record (h : Marks row row') (writes : List (I × List (D × Bool))) :
    Marks (record writes row) (Autostart.record writes row') := by
  intro i
  simp only [Autostart.record]
  split
  · exact ⟨(h i).tree, (h i).state, rfl, fun _ hd => hd⟩
  · exact h i

end Marks

theorem lookup_writes (f : I → List (D × Bool)) (items : List I) (row : I → Row T D) (i : I) :
    (items.filterMap fun j =>
        match (row j).autostartDomains with
        | none => some (j, f j)
        | some _ => none).lookup i =
      if i ∈ items ∧ (row i).autostartDomains = none then some (f i) else none := by
  induction items with
  | nil => simp
  | cons j items ih =>
    rw [filterMap_cons]
    by_cases hij : i = j
    · subst hij
      cases hrow : (row i).autostartDomains with
      | none => simp
      | some recs => simpa [hrow] using ih
    · cases hrow : (row j).autostartDomains with
      | none => simpa [lookup_cons, hij, beq_eq_false_iff_ne.mpr hij] using ih
      | some recs => simpa [hij] using ih

theorem record_tree (row : I → Row T D) (i : I) : (record writes row i).tree = (row i).tree := by
  rw [record]
  split <;> rfl

theorem record_state (row : I → Row T D) (i : I) : (record writes row i).state = (row i).state := by
  rw [record]
  split <;> rfl

theorem setStates_tree (items : List I) (states : I → ItemState) (row : I → Row T D) (i : I) :
    (setStates items states row i).tree = (row i).tree := by
  rw [setStates]
  split <;> rfl

theorem setStates_domains (items : List I) (states : I → ItemState) (row : I → Row T D) (i : I) :
    (setStates items states row i).autostartDomains = (row i).autostartDomains := by
  rw [setStates]
  split <;> rfl

theorem setStates_remembered (items : List I) (states : I → ItemState) (row : I → Row T D)
    (i : I) : (setStates items states row i).remembered = (row i).remembered := by
  rw [Row.remembered, setStates_domains, Row.remembered]

theorem setStates_of_notMem (hi : i ∉ items) (states : I → ItemState) (row : I → Row T D) :
    setStates items states row i = row i := by
  rw [setStates, if_neg hi]

theorem Recorded.setStates (h : Recorded dk ids row) (items : List I) (states : I → ItemState) :
    Recorded dk ids (setStates items states row) := by
  intro i hi recs hrecs
  rw [setStates_domains] at hrecs
  exact h i hi recs hrecs

theorem Owned.setStates [DecidableEq T] (h : Owned want ids row on) (t : T) (states : I → ItemState)
    (hwant : want d) :
    on d = true ∨ Held ids (setStates (treeOf ids row t) states row) d ∨
      (settled (treeOf ids row t) row = false ∧
        settled (treeOf ids row t) (setStates (treeOf ids row t) states row) = true ∧
        ∃ i ∈ treeOf ids row t, d ∈ (row i).remembered) := by
  rcases h d hwant with hon | ⟨i, hi, hd, j, hj, hji, hopen⟩
  · exact .inl hon
  right
  have hd' : d ∈ (Autostart.setStates (treeOf ids row t) states row i).remembered := by
    rw [setStates_remembered]
    exact hd
  by_cases hit : (row i).tree = t
  · have hmemi : i ∈ treeOf ids row t := mem_treeOf.mpr ⟨hi, hit⟩
    have hmemj : j ∈ treeOf ids row t := mem_treeOf.mpr ⟨hj, hji.trans hit⟩
    cases hafter : settled (treeOf ids row t)
        (Autostart.setStates (treeOf ids row t) states row) with
    | true => exact .inr ⟨settled_eq_false.mpr ⟨j, hmemj, hopen⟩, rfl, i, hmemi, hd⟩
    | false =>
      obtain ⟨k, hk, hkopen⟩ := settled_eq_false.mp hafter
      refine .inl ⟨i, hi, hd', k, (mem_treeOf.mp hk).1, ?_, hkopen⟩
      rw [setStates_tree, setStates_tree, (mem_treeOf.mp hk).2, hit]
  · -- a row of another tree: neither it nor its unsettled row is touched
    have hnotj : j ∉ treeOf ids row t := fun hmem =>
      hit (hji.symm.trans (mem_treeOf.mp hmem).2)
    refine .inl ⟨i, hi, hd', j, hj, ?_, ?_⟩
    · rw [setStates_tree, setStates_tree]
      exact hji
    · rw [setStates_of_notMem hnotj]
      exact hopen

theorem Same.record (row : I → Row T D) : Same row (record writes row) :=
  fun i => ⟨record_tree writes row i, record_state writes row i⟩

theorem Same.setStates (h : Same row row') (items : List I) (states : I → ItemState) :
    Same (setStates items states row) (Autostart.setStates items states row') := by
  intro i
  simp only [Autostart.setStates]
  split
  · exact ⟨(h i).1, rfl⟩
  · exact h i

theorem settled_setStates :
    settled items (setStates items states row) = items.all fun i => (states i).terminal := by
  rw [Bool.eq_iff_iff, settled_iff, List.all_eq_true]
  exact forall₂_congr fun i hi => by rw [setStates, if_pos hi]

/-! ### Suppression -/

variable [DecidableEq D]

theorem record_plan (on : D → Bool) (items : List I) (kept row : I → Row T D) (i : I) :
    record (planAutostartDeactivation dk on items kept).1 row i =
      if i ∈ items ∧ (kept i).autostartDomains = none then
        { row i with autostartDomains := some (records dk on i) }
      else row i := by
  rw [record, planAutostartDeactivation, lookup_writes]
  split_ifs <;> rfl

theorem mem_remembered_record (hmarks : Marks kept row) (hd : d ∈ (row i).remembered) :
    d ∈ (record (planAutostartDeactivation dk on items kept).1 row i).remembered := by
  rw [record_plan, if_neg]
  · exact hd
  · rintro ⟨-, hnone⟩
    obtain ⟨recs, hrecs, -⟩ := Row.mem_remembered.mp hd
    rw [← hmarks.eq_none_iff, hrecs] at hnone
    exact some_ne_none recs hnone

theorem remembered_of_deactivated (hmarks : Marks kept row)
    (hd : d ∈ (planAutostartDeactivation dk on items kept).2) :
    ∃ i ∈ items,
      d ∈ (record (planAutostartDeactivation dk on items kept).1 row i).remembered := by
  obtain ⟨i, hi, hmem⟩ := mem_flatMap.mp hd
  refine ⟨i, hi, ?_⟩
  cases hkept : (kept i).autostartDomains with
  | none =>
    simp only [hkept, mem_filter] at hmem
    rw [record_plan, if_pos ⟨hi, hkept⟩, Row.mem_remembered]
    refine ⟨_, rfl, mem_map.mpr ⟨d, hmem.1, ?_⟩⟩
    rw [hmem.2]
  | some recs =>
    simp only [hkept, mem_filter] at hmem
    exact mem_remembered_record dk hmarks ((hmarks i).remembered d hmem.1)

theorem Recorded.prepare (h : Recorded dk ids v.row) :
    Recorded dk ids (v.prepare dk items).row := by
  intro i hi recs hrecs
  change (record _ v.row i).autostartDomains = some recs at hrecs
  rw [record_plan] at hrecs
  split_ifs at hrecs with hwritten
  · obtain rfl : records dk v.on i = recs := by simpa using hrecs
    simp [records, Function.comp_def]
  · exact h i hi recs hrecs

theorem Owned.prepare (h : Owned want ids v.row v.on) (hmarks : Marks v.kept v.row)
    (hopen : ∀ i ∈ items, i ∈ ids ∧ Unsettled ids v.row (v.row i).tree) :
    Owned want ids (v.prepare dk items).row (v.prepare dk items).on := by
  intro d hwant
  have hunsettled : ∀ {t : T}, Unsettled ids v.row t → Unsettled ids (v.prepare dk items).row t :=
    fun hu => hu.mono (record_tree _ v.row) (record_state _ v.row)
  by_cases hoff : d ∈ (planAutostartDeactivation dk v.on items v.kept).2
  · -- it is turned off now: the row it was found in holds it
    obtain ⟨i, hi, hd⟩ := remembered_of_deactivated dk hmarks hoff
    refine .inr ⟨i, (hopen i hi).1, hd, ?_⟩
    have htree : ((v.prepare dk items).row i).tree = (v.row i).tree := record_tree _ v.row i
    rw [htree]
    exact hunsettled (hopen i hi).2
  · rcases h d hwant with hon | ⟨i, hi, hd, hu⟩
    · left
      simp [View.prepare, hon, hoff]
    · refine .inr ⟨i, hi, mem_remembered_record dk hmarks hd, ?_⟩
      have htree : ((v.prepare dk items).row i).tree = (v.row i).tree := record_tree _ v.row i
      rw [htree]
      exact hunsettled hu

/-! ### Restoration -/

theorem Row.mem_remembered_takeOver {recs : List (D × Bool)}
    (hrecs : r.autostartDomains = some recs) (hd : d ∈ recs.map Prod.fst) :
    d ∈ (r.takeOver d).remembered := by
  obtain ⟨rec, hrec, rfl⟩ := mem_map.mp hd
  refine Row.mem_remembered.mpr ⟨_, by rw [Row.takeOver, hrecs, map_some], ?_⟩
  exact mem_map.mpr ⟨rec, hrec, by simp⟩

theorem Row.marked_takeOver (r : Row T D) (d : D) : r.Marked (r.takeOver d) where
  tree := rfl
  state := rfl
  domains := by
    simp only [Row.takeOver, Option.map_map]
    congr 1
    funext recs
    simp
  remembered := by
    intro d' hd'
    obtain ⟨recs, hrecs, hmem⟩ := Row.mem_remembered.mp hd'
    refine Row.mem_remembered.mpr ⟨_, by rw [Row.takeOver, hrecs, map_some], ?_⟩
    exact mem_map.mpr ⟨(d', true), hmem, by simp⟩

theorem Marks.takeOver (row : I → Row T D) (i : I) (d : D) :
    Marks row (Function.update row i ((row i).takeOver d)) := by
  intro j
  by_cases hji : j = i
  · subst hji
    rw [Function.update_self]
    exact (row j).marked_takeOver d
  · rw [Function.update_of_ne hji]
    exact Row.Marked.refl (row j)

theorem handOver_some {mine : List I} (hrecorded : Recorded dk ids row)
    (h : handOver dk ids d mine row = some row') : Marks row row' ∧ Held ids row' d := by
  obtain ⟨i, hheir, rfl⟩ := map_eq_some_iff.mp h
  have hmem := mem_of_find?_eq_some hheir
  have hfound := find?_some hheir
  simp only [mem_filter, decide_eq_true_eq] at hmem
  simp only [Bool.and_eq_true, Bool.not_eq_true'] at hfound
  obtain ⟨recs, hrecs⟩ := isSome_iff_exists.mp hfound.1.2
  have hmarks := Marks.takeOver row i d
  refine ⟨hmarks, i, hmem.2, ?_, i, hmem.2, rfl, ?_⟩
  · rw [Function.update_self]
    refine Row.mem_remembered_takeOver hrecs ?_
    rw [hrecorded i hmem.2 recs hrecs]
    exact (dk.mem_domains d i).mpr hmem.1
  · rw [(hmarks i).state]
    exact hfound.2

theorem handOverAll_spec (mine : List I) (ds : List D) (hrecorded : Recorded dk ids row) :
    Marks row (handOverAll dk ids mine ds row).1 ∧
      ∀ d ∈ ds, d ∈ (handOverAll dk ids mine ds row).2 ∨
        Held ids (handOverAll dk ids mine ds row).1 d := by
  induction ds generalizing row with
  | nil => exact ⟨Marks.refl row, nofun⟩
  | cons d ds ih =>
    rw [handOverAll]
    cases hgiven : handOver dk ids d mine row with
    | some row' =>
      obtain ⟨hmarks, hheld⟩ := handOver_some dk hrecorded hgiven
      obtain ⟨hrest, hall⟩ := ih (hrecorded.mono dk hmarks)
      refine ⟨hmarks.trans hrest, fun e he => ?_⟩
      rcases mem_cons.mp he with rfl | he
      · exact .inr (hheld.mono hrest)
      · exact hall e he
    | none =>
      obtain ⟨hrest, hall⟩ := ih hrecorded
      refine ⟨hrest, fun e he => ?_⟩
      rcases mem_cons.mp he with rfl | he
      · exact .inl (.head _)
      · exact (hall e he).imp_left (mem_cons_of_mem d)

theorem View.reactivate_marks (items : List I) (hrecorded : Recorded dk ids v.row) :
    Marks v.row (v.reactivate dk ids items).row :=
  (handOverAll_spec dk items _ hrecorded).1

/-- **Restoration.** What is on, held, or remembered by one of the rows in hand is on or held
afterwards. -/
theorem View.reactivate_owned (hserver : ∀ d, want d → dk.server d = true)
    (hrecorded : Recorded dk ids v.row) (h : ∀ d, want d → v.on d = true ∨ Held ids v.row d ∨
      ∃ i ∈ items, d ∈ (v.kept i).remembered) :
    Owned want ids (v.reactivate dk ids items).row (v.reactivate dk ids items).on := by
  intro d hwant
  rcases h d hwant with hon | hheld | ⟨i, hi, hd⟩
  · left
    simp [View.reactivate, hon]
  · exact .inr (hheld.mono (View.reactivate_marks dk _ hrecorded))
  · have hlisted : d ∈ (items.flatMap fun i => (v.kept i).remembered).eraseDups :=
      mem_eraseDups.mpr (mem_flatMap.mpr ⟨i, hi, hd⟩)
    rcases (handOverAll_spec dk items _ hrecorded).2 d hlisted with hleft | hheld
    · left
      simp only [View.reactivate, hleft, hserver d hwant, decide_true, Bool.and_self, Bool.or_true]
    · exact .inr hheld

/-! ### What a turn keeps -/

structure View.Ok (want : D → Prop) (ids : List I) (v : View I T D) : Prop where
  recorded : Recorded dk ids v.row
  marks : Marks v.kept v.row
  owned : Owned want ids v.row v.on

theorem View.Ok.prepare (h : v.Ok dk want ids)
    (hopen : ∀ i ∈ items, i ∈ ids ∧ Unsettled ids v.row (v.row i).tree) :
    (v.prepare dk items).Ok dk want ids where
  recorded := h.recorded.prepare dk
  marks := h.marks.record _
  owned := h.owned.prepare dk h.marks hopen

theorem View.Ok.prepared (h : v.Ok dk want ids) (items : List I) (prepares : Bool)
    (hopen : prepares = true → ∀ i ∈ items, i ∈ ids ∧ Unsettled ids v.row (v.row i).tree) :
    let w := if prepares then v.prepare dk items else v
    w.Ok dk want ids ∧ Same v.row w.row ∧
      ∀ i, (v.kept i).remembered = (v.row i).remembered →
        (w.kept i).remembered = (w.row i).remembered := by
  intro w
  cases prepares with
  | false => exact ⟨h, fun i => ⟨rfl, rfl⟩, fun i hi => hi⟩
  | true =>
    refine ⟨h.prepare dk (hopen rfl), Same.record _ v.row, fun i hi => ?_⟩
    change (record _ v.kept i).remembered = (record _ v.row i).remembered
    rw [record, record]
    split
    · rfl
    · exact hi

variable [DecidableEq T]

/-- The step of a tree and the restoration after it. `back` says that the tree is restored: it has
to be, with all the table remembers, when the tree has settled with the step. -/
theorem View.Ok.step (h : v.Ok dk want ids) (hserver : ∀ d, want d → dk.server d = true)
    (hitems : items = treeOf ids v.row t) (states keptStates : I → ItemState) (back : Bool)
    (hback : settled items v.row = false → settled items (setStates items states v.row) = true →
      back = true ∧ ∀ i ∈ items, (v.kept i).remembered = (v.row i).remembered) :
    let stepped := v.step items states keptStates
    let w := if back then stepped.reactivate dk ids items else stepped
    Recorded dk ids w.row ∧ Owned want ids w.row w.on ∧ Marks stepped.row w.row := by
  intro stepped w
  have hrecorded : Recorded dk ids stepped.row := h.recorded.setStates dk _ states
  have howned {d : D} (hwant : want d) := h.owned.setStates t states hwant
  rw [← hitems] at howned
  cases hcase : back with
  | false =>
    have hw : w = stepped := by simp [w, hcase]
    rw [hw]
    refine ⟨hrecorded, fun d hwant => ?_, Marks.refl _⟩
    rcases howned hwant with hon | hheld | ⟨hbefore, hafter, -⟩
    · exact .inl hon
    · exact .inr hheld
    · exact absurd ((hback hbefore hafter).1.symm.trans hcase) (by decide)
  | true =>
    have hw : w = stepped.reactivate dk ids items := by simp [w, hcase]
    have hmarks : Marks stepped.row w.row := by
      rw [hw]
      exact View.reactivate_marks dk _ hrecorded
    refine ⟨hrecorded.mono dk hmarks, ?_, hmarks⟩
    rw [hw]
    refine View.reactivate_owned dk hserver hrecorded fun d hwant => ?_
    rcases howned hwant with hon | hheld | ⟨hbefore, hafter, i, hi, hd⟩
    · exact .inl hon
    · exact .inr (.inl hheld)
    · refine .inr (.inr ⟨i, hi, ?_⟩)
      change d ∈ (setStates _ keptStates v.kept i).remembered
      rw [setStates_remembered, (hback hbefore hafter).2 i hi]
      exact hd

/-- **A tree's turn in a tick.** When the tree settles, what the tick has in hand of it must be
what the table has. -/
theorem View.Ok.tickTree (h : v.Ok dk want ids) (hserver : ∀ d, want d → dk.server d = true)
    (hitems : items = treeOf ids v.row t) (prepares : Bool)
    (hfresh : settled items (setStates items states v.row) = true →
      ∀ i ∈ items, (v.kept i).remembered = (v.row i).remembered) :
    (v.tickTree dk ids items prepares states).Ok dk want ids ∧
      Same (setStates items states v.row) (v.tickTree dk ids items prepares states).row := by
  have hsettled : settled items v.kept = settled items v.row :=
    (h.marks.same.settled items).symm
  obtain ⟨hpok, hsame, hremembered⟩ := h.prepared dk items (prepares && !settled items v.kept) (by
    intro hrun
    simp only [Bool.and_eq_true, Bool.not_eq_true', hsettled] at hrun
    rw [hitems]
    exact unsettled_of_running (hitems ▸ hrun.2))
  unfold View.tickTree
  dsimp only
  generalize (if (prepares && !settled items v.kept) = true then v.prepare dk items else v)
    = prepared at hpok hsame hremembered ⊢
  rw [settled_setStates] at hfresh
  obtain ⟨hrecorded, howned, hmarks⟩ := hpok.step dk hserver
    (hitems.trans (hsame.treeOf ids t).symm) states states
    (!settled items v.kept && settled items (prepared.step items states states).kept) (by
      intro hb ha
      rw [settled_setStates] at ha
      refine ⟨?_, fun i hi => hremembered i (hfresh ha i hi)⟩
      rw [hsettled, ← hsame.settled items, hb]
      exact settled_setStates.trans ha)
  refine ⟨⟨hrecorded, .trans ?_ hmarks, howned⟩, (hsame.setStates items states).trans hmarks.same⟩
  split <;> exact hpok.marks.setStates items states

/-- **A drive of a tree.** Its rows are fresh; when the table has the tree settled, so must the
rows in hand. -/
theorem View.Ok.driveTree (h : View.Ok dk want ids ⟨row, row, on⟩)
    (hserver : ∀ d, want d → dk.server d = true) (hitems : items = treeOf ids row t) {admits : Bool}
    (hadmits : admits = true → ∀ i ∈ items, (row i).state = .pending) {keptStates : I → ItemState}
    (hseen : settled items (setStates items states row) = true →
      ∀ i ∈ items, (keptStates i).terminal = true) :
    let w := View.driveTree dk ids items admits states keptStates ⟨row, row, on⟩
    Recorded dk ids w.row ∧ Owned want ids w.row w.on ∧
      Same (setStates items states row) w.row := by
  obtain ⟨hpok, hsame, hremembered⟩ := h.prepared dk items admits (by
    intro hadmit i hi
    have hiids := (mem_treeOf.mp (hitems ▸ hi)).1
    exact ⟨hiids, i, hiids, rfl, by rw [hadmits hadmit i hi]; rfl⟩)
  unfold View.driveTree
  dsimp only
  generalize (if admits = true then View.prepare dk items ⟨row, row, on⟩ else ⟨row, row, on⟩)
    = prepared at hpok hsame hremembered ⊢
  rw [settled_setStates] at hseen
  obtain ⟨hrecorded, howned, hmarks⟩ := hpok.step dk hserver
    (hitems.trans (hsame.treeOf ids t).symm) states keptStates
    (settled items (prepared.step items states keptStates).kept) (by
      intro _ ha
      rw [settled_setStates] at ha
      refine ⟨settled_setStates.trans ?_, fun i _ => hremembered i rfl⟩
      exact List.all_eq_true.mpr (hseen ha))
  exact ⟨hrecorded, howned, (hsame.setStates items states).trans hmarks.same⟩

end IsardVDI.Migration.Autostart
