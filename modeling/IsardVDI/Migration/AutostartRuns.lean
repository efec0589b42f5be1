import IsardVDI.Migration.Autostart

/-!
# `migration_run.py` — the autostart over the passes of a job

A job is driven by ticks, which take its trees in turn with the rows they read at their start, and
by drives of single trees, which read the rows of the tree afresh. A recurring job is re-scanned at
the start of a tick: trees are skipped, rows re-armed or quarantined, new disks inserted.

* `Orderly` — the steps after which the autostart is sure to come back.
-/

namespace IsardVDI.Migration.Autostart

open IsardVDI.Migration.Saga (ItemState)

variable {I T D : Type}

/-! ## Passes -/

/-- The ledger, the desktops' flags, and, during a tick, the rows it has read and `_restored`. -/
structure State (I T D : Type) where
  ids : List I
  row : I → Row T D
  on : D → Bool
  pass : Option ((I → Row T D) × List I)

inductive Event (I T D : Type) where
  /-- A tick starts: the rows are read, `_restored` is empty. -/
  | beginTick
  /-- A tree's turn in a tick: `prepare` when the window and the job allow it, one step of the
  saga, and `reactivate` if the tree has settled with it. -/
  | tickTree (t : T) (prepares : Bool) (states : I → ItemState)
  /-- A tree that has not started is skipped: the job is finishing, or the selection has moved on
  (`_skip_stale_trees`). -/
  | skipTree (t : T)
  /-- `_rearm_item`, and `_rearm_returned` before it, for the rows of a new occurrence. -/
  | rearm (items : List I)
  | quarantine (i : I)
  /-- A disk the re-scan has found. The rows are read again. -/
  | insert (i : I) (t : T)
  /-- The tick ends; when the job is complete and its status changes, what has not been restored
  in this tick is. -/
  | endTick (transition : Bool)
  /-- The tick is left in the middle: the lease is lost, or there is no space. -/
  | leaveTick
  /-- A drive of one tree, its rows read afresh. `admits` when the tree is only now started.
  A failure is written through other copies of the rows, so what the drive has in hand at the end
  may differ from the table. -/
  | driveTree (t : T) (admits : Bool) (states keptStates : I → ItemState)

variable {states : I → ItemState} {ids : List I}

section Code

variable [DecidableEq I] [DecidableEq T] [DecidableEq D] (dk : Desktops I D)

/-- `_rearm_item`: the row starts afresh, its record forgotten. -/
def rearm (items : List I) (row : I → Row T D) (i : I) : Row T D :=
  if i ∈ items then { row i with state := .pending, autostartDomains := none } else row i

def State.next (s : State I T D) : Event I T D → Option (State I T D)
  | .beginTick =>
    match s.pass with
    | none => some { s with pass := some (s.row, []) }
    | some _ => none
  | .tickTree t prepares states =>
    match s.pass with
    | none => none
    | some (kept, restored) =>
      let items := treeOf s.ids kept t
      let v := View.tickTree dk s.ids items prepares states ⟨s.row, kept, s.on⟩
      some { s with
        row := v.row
        on := v.on
        pass := some (v.kept,
          if !settled items kept && settled items v.kept then restored ++ items else restored) }
  | .skipTree t =>
    match s.pass with
    | none => none
    | some (kept, restored) =>
      let items := treeOf s.ids kept t
      if ∀ i ∈ items, (kept i).state = .pending then
        some { s with
          row := setStates items (fun _ => .skipped) s.row
          pass := some (setStates items (fun _ => .skipped) kept, restored) }
      else none
  | .rearm items =>
    match s.pass with
    | none => none
    | some (kept, restored) =>
      if ∀ i ∈ items, i ∈ s.ids ∧ (kept i).state.terminal then
        some { s with
          row := rearm items s.row
          pass := some (rearm items kept, restored) }
      else none
  | .quarantine i =>
    match s.pass with
    | none => none
    | some (kept, restored) =>
      if i ∈ s.ids ∧ (kept i).state = .failed then
        some { s with
          row := setStates [i] (fun _ => .quarantined) s.row
          pass := some (setStates [i] (fun _ => .quarantined) kept, restored) }
      else none
  | .insert i t =>
    match s.pass with
    | none => none
    | some (_, restored) =>
      if i ∉ s.ids then
        let row := Function.update s.row i ⟨t, .pending, none⟩
        some { s with ids := s.ids ++ [i], row := row, pass := some (row, restored) }
      else none
  | .endTick transition =>
    match s.pass with
    | none => none
    | some (kept, restored) =>
      let rest := s.ids.filter (· ∉ restored)
      if transition && settled s.ids kept then
        let v := View.reactivate dk s.ids rest ⟨s.row, kept, s.on⟩
        some { s with row := v.row, on := v.on, pass := none }
      else some { s with pass := none }
  | .leaveTick => some { s with pass := none }
  | .driveTree t admits states keptStates =>
    let items := treeOf s.ids s.row t
    if s.pass.isNone ∧ (admits = true → ∀ i ∈ items, (s.row i).state = .pending) then
      let v := View.driveTree dk s.ids items admits states keptStates ⟨s.row, s.row, s.on⟩
      some { s with row := v.row, on := v.on }
    else none

def machine : Machine (State I T D) (Event I T D) where
  next := State.next dk

/-- A desktop's disks settle with their trees: when the last of them has settled, no tree with one
of them has a row still to be settled. -/
def Together (ids : List I) (row : I → Row T D) : Prop :=
  ∀ i ∈ ids, ∀ d ∈ dk.domains i,
    (∀ k ∈ ids, k ∈ dk.disks d → (row k).state.terminal = true) →
      ∀ j ∈ ids, (row j).tree = (row i).tree → (row j).state.terminal = true

instance (ids : List I) (row : I → Row T D) : Decidable (Together dk ids row) :=
  inferInstanceAs (Decidable (∀ i ∈ ids, ∀ d ∈ dk.domains i, _ → _))

/-- The steps after which the autostart is sure to come back.

* A tree that settles in a tick has not been handed a desktop in the same tick.
* A drive that settles a tree in the table has it settled in hand.
* A tree that is skipped before it started remembers no desktop that is off.
* A row is re-armed when its tree has settled.
* The disks of a desktop settle with their trees. -/
def Orderly (s : State I T D) : Event I T D → Prop
  | .tickTree t _ states =>
    let items := treeOf s.ids s.row t
    Together dk s.ids (setStates items states s.row) ∧
      (settled items (setStates items states s.row) = true →
        ∀ p ∈ s.pass, ∀ i ∈ items, (p.1 i).remembered = (s.row i).remembered)
  | .driveTree t _ states keptStates =>
    let items := treeOf s.ids s.row t
    Together dk s.ids (setStates items states s.row) ∧
      (settled items (setStates items states s.row) = true →
        ∀ i ∈ items, (keptStates i).terminal = true)
  | .skipTree t =>
    let items := treeOf s.ids s.row t
    Together dk s.ids (setStates items (fun _ => .skipped) s.row) ∧
      ∀ i ∈ items, ∀ d ∈ (s.row i).remembered, s.on d = true
  | .rearm items =>
    ∀ i ∈ items, ∀ j ∈ s.ids, (s.row j).tree = (s.row i).tree → (s.row j).state.terminal = true
  | _ => True

instance (s : State I T D) (e : Event I T D) : Decidable (Orderly dk s e) := by
  cases e <;> unfold Orderly <;> infer_instance

end Code

variable (dk : Desktops I D)

variable {row row' : I → Row T D} {want : D → Prop} {s s' : State I T D} {t : T}

theorem Marks.rearm [DecidableEq I] (h : Marks row row') (items : List I) :
    Marks (rearm items row) (Autostart.rearm items row') := by
  intro i
  simp only [Autostart.rearm]
  split
  · exact ⟨(h i).tree, rfl, rfl, fun _ hd => hd⟩
  · exact h i

/-! ## Runs -/

/-- The start of a job: no row has a record yet, and no tick is running. -/
structure State.Start (s : State I T D) : Prop where
  unrecorded : ∀ i ∈ s.ids, (s.row i).autostartDomains = none
  idle : s.pass = none

structure Inv (want : D → Prop) (s : State I T D) : Prop where
  recorded : Recorded dk s.ids s.row
  marks : ∀ p ∈ s.pass, Marks p.1 s.row
  owned : Owned want s.ids s.row s.on
  restored : ∀ d, want d → (∀ i ∈ s.ids, i ∈ dk.disks d → (s.row i).state.terminal = true) →
    s.on d = true

theorem Together.congr (h : Together dk ids row) (hsame : Same row row') :
    Together dk ids row' := by
  intro i hi d hd hall j hj hji
  rw [(hsame j).2]
  refine h i hi d hd (fun k hk hkd => ?_) j hj ?_
  · rw [← (hsame k).2]
    exact hall k hk hkd
  · rw [← (hsame j).1, ← (hsame i).1]
    exact hji

theorem Together.inv (h : Together dk s.ids s.row) (hrecorded : Recorded dk s.ids s.row)
    (hmarks : ∀ p ∈ s.pass, Marks p.1 s.row) (howned : Owned want s.ids s.row s.on) :
    Inv dk want s where
  recorded := hrecorded
  marks := hmarks
  owned := howned
  restored d hwant hall := by
    rcases howned d hwant with hon | ⟨i, hi, hd, j, hj, hji, hopen⟩
    · exact hon
    · have hid := hrecorded.mem_disks dk hi hd
      have hterminal := h i hi d ((dk.mem_domains d i).mpr hid) hall j hj hji
      rw [hterminal] at hopen
      exact absurd hopen (by decide)

theorem Inv.view (h : Inv dk want s) {p : (I → Row T D) × List I} (hp : s.pass = some p) :
    View.Ok dk want s.ids ⟨s.row, p.1, s.on⟩ :=
  ⟨h.recorded, h.marks p hp, h.owned⟩

theorem Inv.leave (h : Inv dk want s) : Inv dk want { s with pass := none } :=
  ⟨h.recorded, fun _ hp => (nomatch hp), h.owned, h.restored⟩

theorem State.Start.inv (h : s.Start) : Inv dk (fun d => s.on d = true ∧ dk.server d = true) s where
  recorded i hi recs hrecs := by
    rw [h.unrecorded i hi] at hrecs
    cases hrecs
  marks p hp := absurd (h.idle.symm.trans hp) (by simp)
  owned _ hwant := .inl hwant.1
  restored _ hwant _ := hwant.1

theorem Inv.treeOf_eq [DecidableEq T] {kept : I → Row T D} {restored : List I}
    (h : Inv dk want s) (hpass : s.pass = some (kept, restored)) (t : T) :
    treeOf s.ids kept t = treeOf s.ids s.row t :=
  ((h.marks _ hpass).same.treeOf s.ids t).symm

variable [DecidableEq I] [DecidableEq T] [DecidableEq D]

theorem Inv.driveTree (h : Inv dk want s) (hserver : ∀ d, want d → dk.server d = true)
    {admits : Bool} {keptStates : I → ItemState}
    (hP : Orderly dk s (.driveTree t admits states keptStates))
    (hnext : s.next dk (.driveTree t admits states keptStates) = some s') : Inv dk want s' := by
  simp only [State.next] at hnext
  split_ifs at hnext with hguard
  cases hnext
  obtain ⟨hidle, hadmits⟩ := hguard
  obtain ⟨htogether, hseen⟩ := hP
  have hview : View.Ok dk want s.ids ⟨s.row, s.row, s.on⟩ :=
    ⟨h.recorded, Marks.refl s.row, h.owned⟩
  obtain ⟨hrecorded, howned, hsame⟩ := hview.driveTree dk hserver rfl hadmits hseen
  refine (htogether.congr dk hsame).inv dk hrecorded (fun p hp => ?_) howned
  rw [Option.isNone_iff_eq_none] at hidle
  exact absurd (hidle.symm.trans hp) (by simp)

section InTick

variable {kept : I → Row T D} {restored : List I} (h : Inv dk want s)
  (hpass : s.pass = some (kept, restored))

include h hpass

theorem Inv.tickTree (hserver : ∀ d, want d → dk.server d = true) {prepares : Bool}
    (hP : Orderly dk s (.tickTree t prepares states))
    (hnext : s.next dk (.tickTree t prepares states) = some s') : Inv dk want s' := by
  simp only [State.next, hpass, h.treeOf_eq dk hpass] at hnext
  cases hnext
  obtain ⟨htogether, hfresh⟩ := hP
  obtain ⟨hok, hsame⟩ := (h.view dk hpass).tickTree dk hserver rfl prepares
    fun hsettled i hi => hfresh hsettled _ hpass i hi
  refine (htogether.congr dk hsame).inv dk hok.recorded (fun p hp => ?_) hok.owned
  cases hp
  exact hok.marks

theorem Inv.skipTree (hP : Orderly dk s (.skipTree t))
    (hnext : s.next dk (.skipTree t) = some s') : Inv dk want s' := by
  simp only [State.next, hpass, h.treeOf_eq dk hpass] at hnext
  split_ifs at hnext
  cases hnext
  obtain ⟨htogether, hnone⟩ := hP
  have hrecorded := h.recorded.setStates dk (treeOf s.ids s.row t) fun _ => .skipped
  have howned : Owned want s.ids
      (setStates (treeOf s.ids s.row t) (fun _ => .skipped) s.row) s.on := by
    intro d hwant
    rcases h.owned.setStates t (fun _ => .skipped) hwant with hon | hheld | ⟨-, -, i, hi, hd⟩
    · exact .inl hon
    · exact .inr hheld
    · exact .inl (hnone i hi d hd)
  refine htogether.inv dk hrecorded (fun p hp => ?_) howned
  cases hp
  exact (h.marks _ hpass).setStates _ _

theorem Inv.rearm {items : List I} (hP : Orderly dk s (.rearm items))
    (hnext : s.next dk (.rearm items) = some s') : Inv dk want s' := by
  simp only [State.next, hpass] at hnext
  split_ifs at hnext with hguard
  cases hnext
  have hout : ∀ {i : I}, Unsettled s.ids s.row (s.row i).tree → i ∉ items := by
    rintro i ⟨j, hj, hji, hopen⟩ hi
    rw [hP i hi j hj hji] at hopen
    exact absurd hopen (by decide)
  refine ⟨?_, ?_, ?_, ?_⟩
  · intro i hi recs hrecs
    change (Autostart.rearm items s.row i).autostartDomains = some recs at hrecs
    rw [Autostart.rearm] at hrecs
    split_ifs at hrecs
    exact h.recorded i hi recs hrecs
  · intro p hp
    cases hp
    exact (h.marks _ hpass).rearm items
  · refine h.owned.keep (fun i hi => hi) fun i hi hopen => ?_
    have hsame : Autostart.rearm items s.row i = s.row i := if_neg (hout hopen)
    dsimp only
    rw [hsame]
    exact ⟨rfl, rfl, rfl⟩
  · intro d hwant hall
    refine h.restored d hwant fun i hi hid => ?_
    have hafter := hall i hi hid
    change (Autostart.rearm items s.row i).state.terminal = true at hafter
    rw [Autostart.rearm] at hafter
    split_ifs at hafter
    · exact absurd hafter (by simp [ItemState.terminal])
    · exact hafter

theorem Inv.quarantine {i : I} (hnext : s.next dk (.quarantine i) = some s') :
    Inv dk want s' := by
  simp only [State.next, hpass] at hnext
  split_ifs at hnext with hguard
  cases hnext
  have hfailed : (s.row i).state = .failed := (h.marks _ hpass i).state.trans hguard.2
  -- failed and quarantined are both settled
  have hterminal : ∀ j, (setStates [i] (fun _ => .quarantined) s.row j).state.terminal =
      (s.row j).state.terminal := by
    intro j
    rw [setStates]
    split_ifs with hj
    · rw [List.mem_singleton.mp hj, hfailed]
      rfl
    · rfl
  refine ⟨h.recorded.setStates dk _ _, ?_, ?_, ?_⟩
  · intro p hp
    cases hp
    exact (h.marks _ hpass).setStates _ _
  · exact h.owned.keep (fun j hj => hj) fun j _ _ =>
      ⟨setStates_remembered _ _ s.row j, setStates_tree _ _ s.row j, hterminal j⟩
  · intro d hwant hall
    exact h.restored d hwant fun j hj hjd => (hterminal j).symm.trans (hall j hj hjd)

theorem Inv.insert {i : I} (hnext : s.next dk (.insert i t) = some s') :
    Inv dk want s' := by
  simp only [State.next, hpass] at hnext
  split_ifs at hnext with hnew
  cases hnext
  have hkeep : ∀ j ∈ s.ids, Function.update s.row i ⟨t, .pending, none⟩ j = s.row j := by
    intro j hj
    rw [Function.update_of_ne]
    rintro rfl
    exact hnew hj
  have hmem : ∀ j ∈ s.ids, j ∈ s.ids ++ [i] := fun j hj => List.mem_append_left [i] hj
  refine ⟨?_, ?_, ?_, ?_⟩
  · intro j hj recs hrecs
    rcases List.mem_append.mp hj with hj | hj
    · change (Function.update s.row i _ j).autostartDomains = some recs at hrecs
      rw [hkeep j hj] at hrecs
      exact h.recorded j hj recs hrecs
    · change (Function.update s.row i _ j).autostartDomains = some recs at hrecs
      rw [List.mem_singleton.mp hj, Function.update_self] at hrecs
      cases hrecs
  · intro p hp
    cases hp
    exact Marks.refl _
  · refine h.owned.keep hmem fun j hj _ => ?_
    dsimp only
    rw [hkeep j hj]
    exact ⟨rfl, rfl, rfl⟩
  · intro d hwant hall
    refine h.restored d hwant fun j hj hjd => ?_
    have hafter := hall j (hmem j hj) hjd
    change (Function.update s.row i _ j).state.terminal = true at hafter
    rw [hkeep j hj] at hafter
    exact hafter

theorem Inv.endTick (hserver : ∀ d, want d → dk.server d = true)
    {transition : Bool} (hnext : s.next dk (.endTick transition) = some s') : Inv dk want s' := by
  simp only [State.next, hpass] at hnext
  split_ifs at hnext
  · cases hnext
    have hmarks := View.reactivate_marks dk (s.ids.filter (· ∉ restored))
      (v := ⟨s.row, kept, s.on⟩) h.recorded
    refine ⟨h.recorded.mono dk hmarks, fun _ hp => (nomatch hp), ?_, ?_⟩
    · exact View.reactivate_owned dk hserver (v := ⟨s.row, kept, s.on⟩) h.recorded
        fun d hwant => (h.owned d hwant).imp_right .inl
    · intro d hwant hall
      have hon := h.restored d hwant fun i hi hid => by
        rw [← (hmarks i).state]
        exact hall i hi hid
      simp [View.reactivate, hon]
  · cases hnext
    exact h.leave dk

end InTick

theorem Inv.next (hserver : ∀ d, want d → dk.server d = true) (s : State I T D) (e : Event I T D)
    (s' : State I T D) (h : Inv dk want s) (hP : Orderly dk s e)
    (hnext : (machine dk).next s e = some s') : Inv dk want s' := by
  change s.next dk e = some s' at hnext
  cases hpass : s.pass with
  | none =>
    cases e with
    | beginTick =>
      simp only [State.next, hpass] at hnext
      cases hnext
      refine ⟨h.recorded, ?_, h.owned, h.restored⟩
      intro p hp
      cases hp
      exact Marks.refl s.row
    | leaveTick =>
      cases hnext
      exact h.leave dk
    | driveTree t admits states keptStates => exact h.driveTree dk hserver hP hnext
    | _ => simp [State.next, hpass] at hnext
  | some p =>
    cases e with
    | beginTick => simp [State.next, hpass] at hnext
    | tickTree t prepares states => exact h.tickTree dk hpass hserver hP hnext
    | skipTree t => exact h.skipTree dk hpass hP hnext
    | rearm items => exact h.rearm dk hpass hP hnext
    | quarantine i => exact h.quarantine dk hpass hnext
    | insert i t => exact h.insert dk hpass hnext
    | endTick transition => exact h.endTick dk hpass hserver hnext
    | leaveTick =>
      cases hnext
      exact h.leave dk
    | driveTree t admits states keptStates => exact h.driveTree dk hserver hP hnext

/-- **Autostart is restored.** In a run of orderly steps, a server whose autostart was on when the
job started has it on whenever every ledger row of its disks has settled. -/
theorem autostart_restored {s s' : State I T D} {events : List (Event I T D)}
    (hstart : s.Start) (hP : (machine dk).Meets (Orderly dk) s events)
    (hrun : (machine dk).run s events = some s') {d : D} (hserver : dk.server d = true)
    (hon : s.on d = true)
    (hsettled : ∀ i ∈ s'.ids, i ∈ dk.disks d → (s'.row i).state.terminal = true) :
    s'.on d = true :=
  have hinv := (machine dk).run_invariant (Orderly dk) _
    (Inv.next dk fun _ hwant => hwant.2) (hstart.inv dk) hP hrun
  hinv.restored d ⟨hon, hserver⟩ hsettled

/-! ## One desktop, two trees -/

def pair : Desktops Bool Unit where
  disks _ := [false, true]
  domains _ := [()]
  mem_domains := by decide
  server _ := true

def pairPlanned : State Bool Bool Unit where
  ids := [false, true]
  row i := ⟨i, .pending, none⟩
  on _ := true
  pass := none

def tick (first second : ItemState) : List (Event Bool Bool Unit) :=
  [.beginTick, .tickTree false true fun _ => first, .tickTree true true fun _ => second,
    .endTick true]

/-- The second tree starts one tick after the first, and its last step is driven. -/
def staggered : List (Event Bool Bool Unit) :=
  tick .pending .pending ++ tick .moving .pending ++ tick .moved .moving ++
    tick .rebased .moved ++ tick .dbUpdated .rebased ++ tick .released .dbUpdated ++
    [.driveTree true false (fun _ => .released) fun _ => .released]

theorem staggered_restored :
    ∃ s, (machine pair).run pairPlanned staggered = some s ∧
      (∀ i ∈ s.ids, (s.row i).state = .released) ∧ s.on () = true := by
  have hrun : (machine pair).run pairPlanned staggered = some _ := rfl
  exact ⟨_, hrun, by decide, autostart_restored pair ⟨by decide, rfl⟩ (by decide) hrun rfl rfl
    (by decide)⟩

/-- Both trees take their steps in the same ticks. The first to settle hands the desktop to the
second, which settles in the same tick with a row that does not know it. -/
theorem settled_together_off :
    ∃ s, (machine pair).run pairPlanned
        (tick .pending .pending ++ tick .moving .moving ++ tick .moved .moved ++
          tick .rebased .rebased ++ tick .dbUpdated .dbUpdated ++ tick .released .released) =
        some s ∧
      s.pass.isNone ∧ (∀ i ∈ s.ids, (s.row i).state = .released) ∧
      pairPlanned.on () = true ∧ s.on () = false :=
  ⟨_, rfl, rfl, by decide, rfl, rfl⟩

end IsardVDI.Migration.Autostart
