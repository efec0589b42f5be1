import IsardVDI.Migration.Saga

/-!
# What a handler of the saga does

A handler is a list of effects, and what it does is said once here, for the runs of the modules
that follow.
-/

namespace IsardVDI.Migration.Saga

open IsardVDI.Storage
open List

/-! ## Effects on a row -/

section Effects

variable {I D P : Type} [DecidableEq I]

def Effect.onItem (e : Effect I D P) (item : Item I D P) : Item I D P :=
  match e with
  | .set id change => if item.storageId = id then item.update change else item
  | .settle id state =>
    if item.storageId = id then item.update fun p => { p with state } else item
  | _ => item

def after (effects : List (Effect I D P)) (item : Item I D P) : Item I D P :=
  effects.foldl (fun item e => e.onItem item) item

variable (e : Effect I D P)

@[simp] theorem after_nil (item : Item I D P) : after [] item = item := rfl

@[simp] theorem after_cons (effects : List (Effect I D P)) (item : Item I D P) :
    after (e :: effects) item = after effects (e.onItem item) := rfl

@[simp] theorem after_append (first second : List (Effect I D P)) (item : Item I D P) :
    after (first ++ second) item = after second (after first item) :=
  foldl_append

@[simp] theorem toPlanned_onItem (item : Item I D P) :
    (e.onItem item).toPlanned = item.toPlanned := by
  cases e <;> simp only [Effect.onItem] <;> split_ifs <;> rfl

variable {effects : List (Effect I D P)} {item : Item I D P}

theorem after_keeps {α : Type} (f : Item I D P → α)
    (h : ∀ e ∈ effects, ∀ item, f (e.onItem item) = f item) (item : Item I D P) :
    f (after effects item) = f item := by
  induction effects generalizing item with
  | nil => rfl
  | cons e effects ih => rw [after_cons, ih fun x hx => h x (.tail _ hx), h e (.head _)]

theorem after_fixed (h : ∀ e ∈ effects, e.onItem item = item) : after effects item = item := by
  induction effects with
  | nil => rfl
  | cons e effects ih => rw [after_cons, h e (.head _), ih fun x hx => h x (.tail _ hx)]

@[simp] theorem toPlanned_after (effects : List (Effect I D P)) (item : Item I D P) :
    (after effects item).toPlanned = item.toPlanned :=
  after_keeps _ (fun e _ => toPlanned_onItem e) item

def Effect.Silent : Effect I D P → Prop
  | .set .. | .settle .. => False
  | _ => True

theorem after_of_silent (h : ∀ e ∈ effects, e.Silent) (item : Item I D P) :
    after effects item = item := by
  refine after_fixed fun e he => ?_
  have hsilent := h e he
  cases e with
  | set | settle => cases hsilent
  | _ => rfl

/-- The states a disk is left in when its tree is given up. -/
def ItemState.givenUp : ItemState → Bool
  | .skipped | .failed => true
  | _ => false

theorem ItemState.eq_of_givenUp {state : ItemState} (h : state.givenUp) :
    state = .skipped ∨ state = .failed := by
  cases state <;> first | exact .inl rfl | exact .inr rfl | cases h

theorem ItemState.terminal_of_givenUp {state : ItemState} (h : state.givenUp) : state.terminal := by
  cases state <;> first | rfl | cases h

def Item.ended (item : Item I D P) (state : ItemState) : Item I D P :=
  item.update fun p => { p with state }

/-- Effects that write the row of a disk only to give it up. -/
def Effect.Spares (id : I) : Effect I D P → Prop
  | .set other change =>
    other ≠ id ∨ ∃ state, state.givenUp ∧ change = fun p => { p with state }
  | .settle _ state => state.givenUp
  | _ => True

theorem onItem_of_spares {e : Effect I D P} (h : e.Spares item.storageId) :
    e.onItem item = item ∨ ∃ state, state.givenUp ∧ e.onItem item = item.ended state := by
  cases e with
  | set id change =>
    by_cases hid : item.storageId = id
    · rcases h with hne | ⟨state, hstate, rfl⟩
      · exact absurd hid.symm hne
      · exact .inr ⟨state, hstate, if_pos hid⟩
    · exact .inl (if_neg hid)
  | settle id state =>
    by_cases hid : item.storageId = id
    · exact .inr ⟨state, h, if_pos hid⟩
    · exact .inl (if_neg hid)
  | _ => exact .inl rfl

theorem after_of_spares (h : ∀ e ∈ effects, e.Spares item.storageId) :
    after effects item = item ∨ (after effects item).state.givenUp := by
  induction effects generalizing item with
  | nil => exact .inl rfl
  | cons e effects ih =>
    have hrest := fun x hx => h x (.tail _ hx)
    rw [after_cons]
    rcases onItem_of_spares (h e (.head _)) with heq | ⟨state, hstate, heq⟩ <;> rw [heq]
    · exact ih hrest
    · rcases @ih (item.ended state) hrest with heq | hgiven
      · exact .inr (by rw [heq]; exact hstate)
      · exact .inr hgiven

def Effect.Stops (id : I) (e : Effect I D P) : Prop :=
  ∃ state, state.givenUp ∧ (e = .settle id state ∨ e = .set id fun p => { p with state })

theorem givenUp_of_stops (h : ∀ e ∈ effects, e.Spares item.storageId) {e : Effect I D P}
    (hmem : e ∈ effects) (he : e.Stops item.storageId) : (after effects item).state.givenUp := by
  obtain ⟨before, rest, rfl⟩ := append_of_mem hmem
  obtain ⟨state, hstate, he⟩ := he
  rw [after_append, after_cons]
  set item' := after before item with hitem
  have hid : item'.storageId = item.storageId := by rw [hitem, toPlanned_after]
  have hon : e.onItem item' = item'.ended state := by
    rcases he with rfl | rfl <;> exact if_pos hid
  rw [hon]
  -- nothing that comes later takes it back
  have hrest : ∀ e ∈ rest, e.Spares (item'.ended state).storageId := by
    intro e he
    have hid' : (item'.ended state).storageId = item.storageId := hid
    rw [hid']
    exact h e (mem_append_right _ (.tail _ he))
  rcases after_of_spares hrest with heq | hgiven
  · rw [heq]
    exact hstate
  · exact hgiven

def Effect.Misses (id : I) : Effect I D P → Prop
  | .set other _ | .settle other _ => other ≠ id
  | _ => True

theorem after_of_misses (h : ∀ e ∈ effects, e.Misses item.storageId) :
    after effects item = item := by
  refine after_fixed fun e he => ?_
  have hmisses := h e he
  cases e with
  | set | settle => exact if_neg (Ne.symm hmisses)
  | _ => rfl

end Effects

/-! ## Kinds of effects -/

section Handlers

variable {I D P : Type}

def Job.disk : Job I P → I
  | .preflight id _ | .move id _ _ | .rebase id _ _ | .verify id _ _ | .repair id _
  | .removeSource id _ | .removeDestination id _ => id

/-- What is done to a tree that is given up: rows are ended, copies removed, and the rest put
back. -/
def Effect.Abandons : Effect I D P → Prop
  | .set .. | .repoint .. | .park .. | .stop .. => False
  | .settle _ state => state.givenUp
  | .place job => ∃ id path, job = .removeDestination id path
  | _ => True

/-- What the handler of a disk does: it writes its row and no other but to give it up, and places
tasks for it and removals of copies. -/
def Effect.For (id : I) : Effect I D P → Prop
  | .set other _ => other = id
  | .settle _ state => state.givenUp
  | .place job => job.disk = id ∨ ∃ other path, job = .removeDestination other path
  | .repoint other _ => other = id
  | _ => True

variable {e : Effect I D P} {effects : List (Effect I D P)} {x row item : Item I D P}

theorem Effect.Abandons.for (h : e.Abandons) (id : I) : e.For id := by
  cases e with
  | place job => exact .inr h
  | set | repoint | park | stop => cases h
  | _ => exact h

theorem Effect.Abandons.spares (h : e.Abandons) (id : I) : e.Spares id := by
  cases e with
  | set => cases h
  | settle => exact h
  | _ => trivial

theorem Effect.For.spares {id other : I} (h : e.For id) (hne : id ≠ other) : e.Spares other := by
  cases e with
  | set id' change => exact .inl ((show id' = id from h) ▸ hne)
  | settle => exact h
  | _ => trivial

/-- The fields of a row that say where the disk is in the saga. -/
structure Core where
  state : ItemState
  moveTaskId : Option TaskId
  rebaseTaskId : Option TaskId
  verifyTaskId : Option TaskId
  verifyPassed : Bool

def Progress.core (p : Progress D) : Core :=
  ⟨p.state, p.moveTaskId, p.rebaseTaskId, p.verifyTaskId, p.verifyPassed⟩

def placed (effects : List (Effect I D P)) : List (Job I P) :=
  effects.filterMap fun
    | .place job => some job
    | _ => none

variable {job : Job I P}

@[simp] theorem placed_append (first second : List (Effect I D P)) :
    placed (first ++ second) = placed first ++ placed second := filterMap_append

theorem mem_placed : job ∈ placed effects ↔ .place job ∈ effects := by
  unfold placed
  rw [mem_filterMap]
  constructor
  · rintro ⟨e, he, hjob⟩
    cases e with
    | place other =>
      cases hjob
      exact he
    | _ => cases hjob
  · exact fun h => ⟨_, h, rfl⟩

def Effect.Own (x : Item I D P) (action : Action) : Effect I D P → Prop
  | .set id _ | .status id _ => id = x.storageId
  | .place job => job.disk = x.storageId
  | .repoint id path => action = .dbUpdate ∧ id = x.storageId ∧ path = x.dstPath
  | .settle .. | .load => False
  | _ => True

/-- Effects of the handler of a disk that leave it where it is in the saga. -/
def Effect.Beside (x : Item I D P) : Effect I D P → Prop
  | .set id change => id = x.storageId ∧ ∀ p, (change p).core = p.core
  | .status id _ => id = x.storageId
  | .park .. | .unpark .. => True
  | _ => False

/-- Effects that come before a tree is given up: the claims of the disk. -/
def Effect.Prepares (x : Item I D P) : Effect I D P → Prop
  | .set id change => id = x.storageId ∧ ∀ p,
    (change p).storageOrigStatus = p.storageOrigStatus
      ∧ (change p).maintenanceDomains = p.maintenanceDomains
  | _ => False

theorem Effect.Beside.own (h : e.Beside x) (action : Action) : e.Own x action := by
  cases e with
  | set => exact h.1
  | status => exact h
  | place | repoint | settle | load | stop => cases h
  | _ => trivial

theorem Effect.Beside.of_eq {x' : Item I D P} (h : e.Beside x')
    (hid : x'.storageId = x.storageId) : e.Beside x := by
  cases e with
  | set => exact ⟨h.1.trans hid, h.2⟩
  | status => exact h.trans hid
  | _ => exact h

theorem Effect.Prepares.own (h : e.Prepares x) (action : Action) : e.Own x action := by
  cases e with
  | set => exact h.1
  | _ => cases h

theorem Effect.Own.for {action : Action} (h : e.Own x action) : e.For x.storageId := by
  cases e with
  | set => exact h
  | place => exact .inl h
  | repoint => exact h.2.1
  | settle | load => cases h
  | _ => trivial

theorem placed_beside (h : ∀ e ∈ effects, e.Beside x) : placed effects = [] :=
  eq_nil_iff_forall_not_mem.mpr fun _ hjob => h _ (mem_placed.mp hjob)

/-- The row at hand, which may have been claimed in this step. -/
structure AtHand (x x' : Item I D P) : Prop where
  planned : x'.toPlanned = x.toPlanned
  status : x'.storageOrigStatus = x.storageOrigStatus
  domains : x'.maintenanceDomains = x.maintenanceDomains
  opened : x.state.terminal = false → x'.state.terminal = false
  failed : x.state = .failed → x'.state = .failed

theorem AtHand.refl (x : Item I D P) : AtHand x x := ⟨rfl, rfl, rfl, id, id⟩

namespace Call

variable {c : Call I D P}

theorem restoreStorageStatus_mem (h : e ∈ restoreStorageStatus item) :
    (∃ d ∈ item.maintenanceDomains.getD [], e = .unpark d)
      ∨ ∃ status, item.storageOrigStatus = some status ∧ e = .status item.storageId status := by
  rcases mem_append.mp h with h | h
  · obtain ⟨d, hd, rfl⟩ := mem_map.mp h
    exact .inl ⟨d, hd, rfl⟩
  · obtain ⟨status, hstatus, rfl⟩ := mem_map.mp h
    exact .inr ⟨status, by simpa using hstatus, rfl⟩

theorem restoreStorageStatus_silent : ∀ e ∈ restoreStorageStatus item, e.Silent := by
  intro e he
  rcases restoreStorageStatus_mem he with ⟨d, -, rfl⟩ | ⟨status, -, rfl⟩ <;> trivial

theorem restoreStorageStatus_beside : ∀ e ∈ restoreStorageStatus x, e.Beside x := by
  intro e he
  rcases restoreStorageStatus_mem he with ⟨d, -, rfl⟩ | ⟨status, -, rfl⟩
  · trivial
  · rfl

theorem recordStatus_beside {recorded : List (Effect I D P)} {item : Item I D P}
    (h : c.recordStatus x = some (recorded, item)) :
    item.toPlanned = x.toPlanned ∧ ∀ e ∈ recorded, e.Beside x := by
  unfold recordStatus at h
  split at h <;> simp only [Option.some.injEq, Prod.mk.injEq, reduceCtorEq] at h
  · obtain ⟨rfl, rfl⟩ := h
    exact ⟨rfl, nofun⟩
  · obtain ⟨rfl, rfl⟩ := h
    refine ⟨rfl, fun e he => ?_⟩
    rw [mem_singleton.mp he]
    exact ⟨rfl, fun _ => rfl⟩

theorem parkDomains_beside : ∀ e ∈ c.parkDomains x, e.Beside x := by
  intro e he
  unfold parkDomains at he
  split at he
  · cases he
  · rcases mem_cons.mp he with rfl | he
    · exact ⟨rfl, fun _ => rfl⟩
    · obtain ⟨d, -, rfl⟩ := mem_map.mp he
      trivial

end Call

variable [DecidableEq I]

theorem core_after_beside (h : ∀ e ∈ effects, e.Beside x) (item : Item I D P) :
    (after effects item).core = item.core := by
  refine after_keeps (·.core) (fun e he item => ?_) item
  have hbeside := h e he
  cases e with
  | set id change =>
    simp only [Effect.onItem]
    split_ifs
    · exact hbeside.2 item.toProgress
    · rfl
  | settle => cases hbeside
  | _ => rfl

namespace Call

@[simp] theorem onItem_set_self (change : Progress D → Progress D) :
    (Effect.set (P := P) x.storageId change).onItem x = x.update change := by
  simp [Effect.onItem]

theorem after_place_set {id : I} {y : Item I D P} (hid : y.storageId = id) (job : Job I P)
    (change : Progress D → Progress D) :
    after [.place job, .set id change] y = y.update change := if_pos hid

end Call

/-! ## Giving a tree up -/

variable [DecidableEq P]

namespace Call

variable (c : Call I D P)

omit [DecidableEq I] in
theorem discardDestination_mem (h : e ∈ c.discardDestination item) :
    e = .place (.removeDestination item.storageId item.dstPath) := by
  unfold discardDestination at h
  split_ifs at h
  · exact mem_singleton.mp h
  · cases h

inductive Abandoning (row : Item I D P) : Effect I D P → Prop where
  | restore {e : Effect I D P} (h : e ∈ restoreStorageStatus row) : Abandoning row e
  | discard (h : .place (.removeDestination row.storageId row.dstPath) ∈ c.discardDestination row) :
      Abandoning row (.place (.removeDestination row.storageId row.dstPath))
  | settle {state : ItemState} (hstate : state.givenUp) :
      Abandoning row (.settle row.storageId state)

/-- **What is done to a tree that is given up.** -/
theorem terminalize_mem {damaged : Bool} (h : e ∈ c.terminalizeTreeFailure item damaged) :
    e = .load ∨ e ∈ restoreStorageStatus item
      ∨ damaged ∧ e = .status item.storageId .damaged
      ∨ ∃ row ∈ c.items item, row.state.terminal = false ∧ c.Abandoning row e := by
  -- one disk that is not ended
  have hrow : ∀ row, e ∈ c.abandonItem row damaged item.storageId →
      c.Abandoning row e ∨ damaged ∧ e = .status item.storageId .damaged := by
    intro row he
    simp only [abandonItem, append_assoc, mem_append, mem_singleton] at he
    rcases he with he | he | he | rfl
    · exact .inl (.restore he)
    · cases c.discardDestination_mem he
      exact .inl (.discard he)
    · split_ifs at he with hdamaged
      · rw [mem_singleton.mp he, hdamaged.2]
        exact .inr ⟨hdamaged.1, rfl⟩
      · cases he
    · refine .inl (.settle ?_)
      split_ifs <;> rfl
  have hrows : e ∈ ((c.items item).filter (!·.state.terminal)).flatMap
      (fun row => c.abandonItem row damaged item.storageId) →
      damaged ∧ e = .status item.storageId .damaged
        ∨ ∃ row ∈ c.items item, row.state.terminal = false ∧ c.Abandoning row e := by
    intro he
    obtain ⟨row, hmem, he⟩ := mem_flatMap.mp he
    obtain ⟨hmem, hopen⟩ := mem_filter.mp hmem
    rcases hrow row he with he | he
    · exact .inr ⟨row, hmem, by simpa using hopen, he⟩
    · exact .inl he
  rcases mem_cons.mp h with rfl | h
  · exact .inl rfl
  · right
    split_ifs at h with hnone hdamaged
    · cases h
    · simp only [append_assoc, mem_append, mem_singleton] at h
      rcases h with h | rfl | h
      · exact .inl h
      · exact .inr (.inl ⟨hdamaged.1, rfl⟩)
      · exact .inr (hrows h)
    · rw [append_nil] at h
      rcases mem_append.mp h with h | h
      · exact .inl h
      · exact .inr (hrows h)

theorem terminalizeTreeFailure_abandons {damaged : Bool} :
    ∀ e ∈ c.terminalizeTreeFailure item damaged, e.Abandons := by
  have hrestore : ∀ {row : Item I D P}, ∀ e ∈ restoreStorageStatus row, e.Abandons := by
    intro row e he
    rcases restoreStorageStatus_mem he with ⟨d, -, rfl⟩ | ⟨status, -, rfl⟩ <;> trivial
  intro e he
  rcases c.terminalize_mem he with rfl | he | ⟨-, rfl⟩ | ⟨row, -, -, he⟩
  · trivial
  · exact hrestore e he
  · trivial
  · cases he with
    | restore he => exact hrestore e he
    | discard => exact ⟨_, _, rfl⟩
    | settle hstate => exact hstate

theorem mem_terminalize (damaged : Bool) (hrow : row ∈ c.items item)
    (hopen : row.state.terminal = false)
    (he : e ∈ restoreStorageStatus item ∨ e ∈ c.abandonItem row damaged item.storageId) :
    e ∈ c.terminalizeTreeFailure item damaged := by
  have hmem : row ∈ (c.items item).filter (!·.state.terminal) :=
    mem_filter.mpr ⟨hrow, by simp [hopen]⟩
  unfold terminalizeTreeFailure
  dsimp only
  rw [if_neg (by simpa [List.isEmpty_iff] using ne_nil_of_mem hmem)]
  refine .tail _ ?_
  rcases he with he | he
  · exact mem_append_left _ (mem_append_left _ he)
  · exact mem_append_right _ (mem_flatMap.mpr ⟨row, hmem, he⟩)

theorem settle_mem_terminalize (damaged : Bool) (hrow : row ∈ c.items item)
    (hopen : row.state.terminal = false) :
    ∃ state, .settle row.storageId state ∈ c.terminalizeTreeFailure item damaged :=
  ⟨_, c.mem_terminalize damaged hrow hopen (.inr (mem_append_right _ (mem_singleton_self _)))⟩

end Call

/-! ## How far a handler takes its disk -/

/-- The task in a slot is not running: it has ended, or it is gone. -/
def Idle (status : Option JobStatus) : Prop := jobFinished status ∨ jobFailed status ∨ status = none

variable (c : Call I D P)

/-- The disk is to be moved, and no move of it is running. -/
def Movable (x : Item I D P) : Prop :=
  x.state = .pending ∧ x.inPlace = false ∨ x.state = .moving ∧ Idle (c.env.statusOf x.moveTaskId)

/-- One step of a disk: the tasks placed for it, and where it is then. -/
inductive Trans (c : Call I D P) (x : Item I D P) : List (Job I P) → Core → Prop where
  | keep {jobs : List (Job I P)} (hjobs : ∀ job ∈ jobs, ∃ path, job = .preflight x.storageId path) :
      Trans c x jobs x.core
  | claimMove (hx : Movable c x) :
      Trans c x [] { x.core with state := .moving, moveTaskId := some .claim }
  | move (hx : Movable c x) :
      Trans c x [.move x.storageId x.srcPath x.dstPath]
        { x.core with state := .moving, moveTaskId := some (.job c.nextJob) }
  | moved (hx : x.state = .pending ∧ x.inPlace
        ∨ x.state = .moving ∧ jobFinished (c.env.statusOf x.moveTaskId)) :
      Trans c x [] { x.core with state := .moved }
  | rebase (hx : x.state = .moved) (hroot : x.isRoot = false)
      (hidle : Idle (c.env.statusOf x.rebaseTaskId)) :
      Trans c x [.rebase x.storageId x.dstPath x.parentDstPath]
        { x.core with rebaseTaskId := some (.job c.nextJob) }
  | rebased (hx : x.state = .moved)
      (hdone : x.isRoot ∨ jobFinished (c.env.statusOf x.rebaseTaskId)) :
      Trans c x [] { x.core with state := .rebased }
  | verify (hx : x.state = .rebased) (hpassed : x.verifyPassed = false) :
      Trans c x [.verify x.storageId x.dstPath x.parentDstPath]
        { x.core with verifyTaskId := some (.job c.nextJob) }
  | passed (hx : x.state = .rebased) (hdone : jobFinished (c.env.statusOf x.verifyTaskId)) :
      Trans c x [] { x.core with verifyPassed := true }
  | commit (hx : x.state = .rebased) (hpassed : x.inPlace ∨ x.verifyPassed) :
      Trans c x [] { x.core with state := .dbUpdated }
  | release {jobs : List (Job I P)} (hx : x.state = .dbUpdated)
      (hjobs : jobs = [] ∨ x.inPlace = false ∧ jobs = [.removeSource x.storageId x.srcPath]) :
      Trans c x jobs { x.core with state := .released }
  | defer (hx : Movable c x) :
      Trans c x [] { x.core with state := .pending, moveTaskId := none }
  | repair {core : Core} (hx : Movable c x
        ∨ x.state = .moved ∧ Idle (c.env.statusOf x.rebaseTaskId) ∨ x.state = .rebased)
      (hchild : ∀ it ∈ c.tree, it.parentStorageId ≠ some x.storageId)
      (hcore : core.state = .repairing) : Trans c x [.repair x.storageId x.dstPath] core
  | repaired (hx : x.state = .repairing) :
      Trans c x [] { x.core with state := .rebased, verifyPassed := false, verifyTaskId := none }

/-- The effects end with the tree given up, and the disk marked if it is found damaged. -/
def Ends (x : Item I D P) (damaged : Bool) (effects : List (Effect I D P)) : Prop :=
  ∃ (first : List (Effect I D P)) (x' : Item I D P), AtHand x x'
    ∧ effects = first ++ c.terminalizeTreeFailure x' damaged ∧ ∀ e ∈ first, e.Prepares x

/-- What is known of damage when a tree is given up: a destination that is in the way says
nothing. -/
def Call.marks : Action → Bool
  | .destinationExists => false
  | _ => c.env.damaged

def Takes (x : Item I D P) (action : Action) (effects : List (Effect I D P)) : Prop :=
  (∀ e ∈ effects, e.Own x action) ∧ Trans c x (placed effects) (after effects x).core

namespace Call

variable {c : Call I D P} {x : Item I D P} {action : Action} {damaged : Bool}

theorem ends_terminalize {x' : Item I D P} (hhand : AtHand x x') :
    Ends c x damaged (c.terminalizeTreeFailure x' damaged) :=
  ⟨[], x', hhand, rfl, nofun⟩

variable {effects : List (Effect I D P)}

theorem Ends.append {first : List (Effect I D P)} (hfirst : ∀ e ∈ first, e.Prepares x)
    (h : Ends c x damaged effects) : Ends c x damaged (first ++ effects) := by
  obtain ⟨first', x', hhand, rfl, hfirst'⟩ := h
  refine ⟨first ++ first', x', hhand, (append_assoc ..).symm, fun e he => ?_⟩
  exact (mem_append.mp he).elim (hfirst e) (hfirst' e)

theorem Ends.cons (he : e.Prepares x) (h : Ends c x damaged effects) :
    Ends c x damaged (e :: effects) := by
  have hfirst : ∀ e' ∈ [e], e'.Prepares x := fun _ he' => mem_singleton.mp he' ▸ he
  exact Ends.append hfirst h

theorem Ends.for (h : Ends c x damaged effects) : ∀ e ∈ effects, e.For x.storageId := by
  obtain ⟨first, x', -, rfl, hfirst⟩ := h
  intro e he
  rcases mem_append.mp he with he | he
  · exact ((hfirst e he).own .fail).for
  · exact (terminalizeTreeFailure_abandons c e he).for _

theorem resume_cases (x' : Item I D P) (hhand : AtHand x x') (observed : Option TaskId)
    (rest : List (Effect I D P)) :
    Ends c x c.env.damaged (c.resume x' observed rest)
      ∨ ∃ first, c.resume x' observed rest = first ++ rest
        ∧ (first = [] ∨ first = [.set x.storageId fun p =>
          { p with abandonRestarts := p.abandonRestarts + 1 }]) := by
  have hid : x'.storageId = x.storageId := by rw [hhand.planned]
  unfold resume
  split
  · rw [hid]
    split_ifs
    · exact .inl (Ends.cons ⟨rfl, fun _ => ⟨rfl, rfl⟩⟩ (ends_terminalize hhand))
    · exact .inr ⟨_, rfl, .inr rfl⟩
  · exact .inr ⟨[], rfl, .inl rfl⟩

theorem takes_nil : Takes c x action [] :=
  ⟨nofun, .keep nofun⟩

theorem takes_of {jobs : List (Job I P)} {core : Core} (h : Trans c x jobs core)
    (hown : ∀ e ∈ effects, e.Own x action) (hjobs : placed effects = jobs)
    (hcore : (after effects x).core = core) : Takes c x action effects :=
  ⟨hown, hjobs ▸ hcore ▸ h⟩

theorem takes_set {change : Progress D → Progress D}
    (h : Trans c x [] (change x.toProgress).core) :
    Takes c x action [.set x.storageId change] := by
  refine takes_of h (fun e he => ?_) rfl ?_
  · rw [mem_singleton.mp he]
    rfl
  · rw [after_cons, after_nil, onItem_set_self]
    rfl

theorem placing_outcome {claim record : Progress D → Progress D} {observed : Option TaskId}
    {core : Core} (htrans : Trans c x [job] core) (hdisk : job.disk = x.storageId)
    (hclaim : ∀ p, (claim p).storageOrigStatus = p.storageOrigStatus
      ∧ (claim p).maintenanceDomains = p.maintenanceDomains)
    (hcore : ∀ n, (record { claim x.toProgress with abandonRestarts := n }).core = core)
    (hcore' : (record (claim x.toProgress)).core = core) :
    let effects := .set x.storageId claim ::
      c.resume x observed [.place job, .set x.storageId record]
    Ends c x c.env.damaged effects ∨ Takes c x action effects := by
  rcases resume_cases (c := c) x (.refl x) observed [.place job, .set x.storageId record]
    with hends | ⟨first, heq, hfirst⟩
  · exact .inl (Ends.cons ⟨rfl, hclaim⟩ hends)
  · right
    show Takes c x action (.set x.storageId claim :: c.resume x observed _)
    rw [heq]
    refine takes_of htrans ?_ ?_ ?_
    · intro e he
      rcases hfirst with rfl | rfl <;>
        simp only [nil_append, cons_append, mem_cons, not_mem_nil, or_false] at he
      · rcases he with rfl | rfl | rfl <;> first | rfl | exact hdisk
      · rcases he with rfl | rfl | rfl | rfl <;> first | rfl | exact hdisk
    · rcases hfirst with rfl | rfl <;> rfl
    · rcases hfirst with rfl | rfl
      · simpa [Effect.onItem] using hcore'
      · simpa [Effect.onItem] using hcore _

theorem startPreflight_outcome :
    Ends c x c.env.damaged (c.startPreflight x) ∨ Takes c x action (c.startPreflight x) := by
  unfold startPreflight
  split_ifs
  · exact .inr takes_nil
  · have hkeep : Trans c x [.preflight x.storageId x.dstPath] x.core :=
      .keep fun job hjob => ⟨_, mem_singleton.mp hjob⟩
    exact placing_outcome hkeep rfl (fun _ => ⟨rfl, rfl⟩) (fun n => rfl) rfl

theorem startRebase_outcome (hx : x.state = .moved) (hroot : x.isRoot = false)
    (hidle : Idle (c.env.statusOf x.rebaseTaskId)) :
    Ends c x c.env.damaged (c.startRebase x) ∨ Takes c x action (c.startRebase x) := by
  unfold startRebase
  split_ifs
  · exact .inr takes_nil
  · exact placing_outcome (.rebase hx hroot hidle) rfl (fun _ => ⟨rfl, rfl⟩) (fun n => rfl) rfl

theorem startVerify_outcome (hx : x.state = .rebased) (hpassed : x.verifyPassed = false) :
    Ends c x c.env.damaged (c.startVerify x) ∨ Takes c x action (c.startVerify x) := by
  unfold startVerify
  split_ifs
  · exact .inr takes_nil
  · exact placing_outcome (.verify hx hpassed) rfl (fun _ => ⟨rfl, rfl⟩) (fun n => rfl) rfl

/-- A disk that fails. It may have been claimed in this step, and its row `y` written since. -/
theorem fail_outcome (x' y : Item I D P) (hhand : AtHand x x') (hplan : y.toPlanned = x.toPlanned)
    (hsame : { y.core with state := x.state, moveTaskId := x.moveTaskId } = x.core)
    (hx : Movable c x ∨ x.state = .moved ∧ Idle (c.env.statusOf x.rebaseTaskId)
      ∨ x.state = .rebased)
    (hmoving : x'.state = .moving → Movable c x) :
    Ends c x c.env.damaged (c.fail x') ∨ (∀ e ∈ c.fail x', e.Own x action)
      ∧ Trans c x (placed (c.fail x')) (after (c.fail x') y).core := by
  have hid : x'.storageId = x.storageId := by rw [hhand.planned]
  have hid' : y.storageId = x'.storageId := by rw [hhand.planned, hplan]
  have hgive : Ends c x c.env.damaged (c.terminalizeTreeFailure x' c.env.damaged) :=
    ends_terminalize hhand
  unfold fail
  split_ifs with hspace hrepair hchildren hlane
  · right
    constructor
    · intro e he
      rcases mem_append.mp he with he | he
      · exact ((restoreStorageStatus_beside e he).of_eq hid).own action
      · rw [mem_singleton.mp he]
        exact hid
    · rw [deferForSpace, placed_append, placed_beside restoreStorageStatus_beside, after_append,
        after_of_silent restoreStorageStatus_silent, after_cons, after_nil, ← hid',
        onItem_set_self]
      have hcore := congrArg (fun core : Core =>
        { core with state := .pending, moveTaskId := none }) hsame
      have htrans := Trans.defer (hmoving hspace.1)
      rw [← hcore] at htrans
      exact htrans
  · exact .inl (Ends.cons ⟨hid, fun _ => ⟨rfl, rfl⟩⟩ hgive)
  · right
    constructor
    · intro e he
      rcases List.mem_pair.mp he with rfl | rfl <;> exact hid
    · have hnone : ∀ it ∈ c.tree, it.parentStorageId ≠ some x.storageId := by
        simp only [hasDescendants, Bool.or_eq_true, any_eq_true, decide_eq_true_eq, not_or,
          not_exists, not_and, hid] at hchildren
        exact hchildren.1
      rw [after_place_set hid']
      show Trans c x [.repair x'.storageId x'.dstPath] _
      rw [hhand.planned]
      exact .repair hx hnone rfl
  · exact .inl hgive
  · exact .inl hgive

theorem fail_outcome_self (hx : Movable c x ∧ x.state = .moving
      ∨ x.state = .moved ∧ Idle (c.env.statusOf x.rebaseTaskId) ∨ x.state = .rebased) :
    Ends c x c.env.damaged (c.fail x) ∨ Takes c x action (c.fail x) := by
  refine fail_outcome x x (.refl x) rfl rfl (hx.imp_left And.left) fun hmoving => ?_
  rcases hx with hx | hx | hx
  · exact hx.1
  · cases hx.1.symm.trans hmoving
  · cases hx.symm.trans hmoving

theorem launchMove_outcome (action : Action) (x' y : Item I D P) (hhand : AtHand x x')
    (hplan : y.toPlanned = x.toPlanned)
    (hcore : y.core = { x.core with state := .moving, moveTaskId := some .claim })
    (hx : Movable c x) :
    Ends c x c.env.damaged (c.launchMove x') ∨ (∀ e ∈ c.launchMove x', e.Own x action)
      ∧ Trans c x (placed (c.launchMove x')) (after (c.launchMove x') y).core := by
  unfold launchMove
  split
  · refine fail_outcome x' y hhand hplan ?_ (.inl hx) fun _ => hx
    rw [hcore]
    rfl
  · rename_i recorded item hrecord
    -- neither the record of the status nor the parked domains say where the disk is
    obtain ⟨hplan', hrecorded⟩ := recordStatus_beside hrecord
    have heq : item.toPlanned = x.toPlanned := hplan'.trans hhand.planned
    have hid : item.storageId = x.storageId := by rw [heq]
    have hid' : x'.storageId = x.storageId := by rw [hhand.planned]
    set first := recorded ++ [.status item.storageId .maintenance] ++ c.parkDomains item with hfirst
    have hbeside : ∀ e ∈ first, e.Beside x := by
      intro e he
      simp only [hfirst, append_assoc, mem_append, mem_singleton] at he
      rcases he with he | rfl | he
      · exact (hrecorded e he).of_eq hid'
      · exact hid
      · exact (parkDomains_beside e he).of_eq hid
    have hsame : (after first y).core = y.core := core_after_beside hbeside y
    right
    split_ifs
    · constructor
      · intro e he
        rcases mem_append.mp he with he | he
        · exact (hbeside e he).own action
        · rcases List.mem_pair.mp he with rfl | rfl <;> exact hid
      · have hself : (after first y).storageId = item.storageId := by
          rw [toPlanned_after, hplan, hid]
        have htrans := Trans.move hx
        rw [placed_append, placed_beside hbeside, after_append, after_place_set hself]
        show Trans c x [.move item.storageId item.srcPath item.dstPath] _
        rw [heq]
        have hlast := congrArg (fun core : Core =>
          { core with state := .moving, moveTaskId := some (.job c.nextJob) })
          (hsame.trans hcore)
        rw [← hlast] at htrans
        exact htrans
    · rw [append_nil]
      refine ⟨fun e he => (hbeside e he).own action, ?_⟩
      rw [placed_beside hbeside, hsame, hcore]
      exact .claimMove hx

theorem startMove_outcome (hx : Movable c x) :
    Ends c x c.env.damaged (c.startMove x) ∨ Takes c x action (c.startMove x) := by
  unfold startMove
  split
  · split_ifs with hpending
    · set x' := x.update Progress.claimPending
      have hhand : AtHand x x' := ⟨rfl, rfl, rfl, fun _ => rfl, fun hfailed => by
        cases hpending.symm.trans hfailed⟩
      rcases launchMove_outcome action x' x' hhand rfl rfl hx with hends | ⟨hown, htrans⟩
      · exact .inl (Ends.cons ⟨rfl, fun _ => ⟨rfl, rfl⟩⟩ hends)
      · refine .inr ⟨forall_mem_cons.mpr ⟨rfl, hown⟩, ?_⟩
        rw [after_cons, onItem_set_self]
        exact htrans
    · exact .inr takes_nil
  · rename_i observed hobserved
    split_ifs with hmoving
    · set x' := x.update Progress.claimMoving with hx'
      have hhand : AtHand x x' := ⟨rfl, rfl, rfl, id, id⟩
      have hclaim : (Effect.set x.storageId Progress.claimMoving).Prepares x :=
        ⟨rfl, fun _ => ⟨rfl, rfl⟩⟩
      rcases resume_cases (c := c) x' hhand (some observed) (c.launchMove x')
        with hends | ⟨first, heq, hfirst⟩
      · exact .inl (Ends.cons hclaim hends)
      · have hbeside : ∀ e ∈ first, e.Beside x ∧ e.Prepares x := by
          rcases hfirst with rfl | rfl
          · exact nofun
          · intro e he
            rw [mem_singleton.mp he]
            exact ⟨⟨rfl, fun _ => rfl⟩, rfl, fun _ => ⟨rfl, rfl⟩⟩
        have hcore : (after first x').core
            = { x.core with state := .moving, moveTaskId := some .claim } := by
          rw [core_after_beside fun e he => (hbeside e he).1]
          exact congrArg (fun state => { x'.core with state }) hmoving
        have hlaunch := launchMove_outcome action x' (after first x') hhand
          (by rw [toPlanned_after]; rfl) hcore hx
        rw [heq]
        rcases hlaunch with hends | ⟨hown, htrans⟩
        · exact .inl (Ends.cons hclaim (Ends.append (fun e he => (hbeside e he).2) hends))
        · refine .inr ⟨forall_mem_cons.mpr ⟨rfl, fun e he => ?_⟩, ?_⟩
          · rcases mem_append.mp he with he | he
            · exact (hbeside e he).1.own action
            · exact hown e he
          · have hnone : placed (.set x.storageId Progress.claimMoving
                :: (first ++ c.launchMove x')) = placed (c.launchMove x') := by
              show placed (first ++ c.launchMove x') = _
              rw [placed_append, placed_beside fun e he => (hbeside e he).1, nil_append]
            rw [hnone, after_cons, onItem_set_self, after_append]
            exact htrans
    · exact .inr takes_nil

theorem phaseA_outcome (hstate : x.state ≠ .failed) (hphase : x.state.phaseADone = false)
    (hpending : x.state = .pending → x.moveTaskId = none)
    (hdecide : decideItemAction x c.env.statusOf = action) (h : c.handler x action = some effects) :
    Ends c x (c.marks action) effects ∨ Takes c x action effects := by
  unfold decideItemAction at hdecide
  cases hx : x.state with
  | pending =>
    simp only [hx, hpending hx, Option.isSome_none, Bool.false_eq_true, if_false] at hdecide
    split_ifs at hdecide with hplace hfresh hfailed hfinished hgone <;> subst hdecide <;> cases h
    · exact .inr (takes_set (.moved (.inl ⟨hx, hplace⟩)))
    · exact startPreflight_outcome
    · exact .inl (ends_terminalize (.refl x))
    · exact startMove_outcome (.inl ⟨hx, by simpa using hplace⟩)
    · exact startPreflight_outcome
  | moving =>
    simp only [hx] at hdecide
    split_ifs at hdecide with hfinished hfailed hgone <;> subst hdecide <;> cases h
    · exact .inr (takes_set (.moved (.inr ⟨hx, hfinished⟩)))
    · exact fail_outcome_self (.inl ⟨.inr ⟨hx, .inr (.inl hfailed)⟩, hx⟩)
    · exact startMove_outcome (.inr ⟨hx, .inr (.inr (by simpa using hgone))⟩)
  | moved =>
    simp only [hx] at hdecide
    split_ifs at hdecide with hroot hfresh hfinished hfailed hgone <;> subst hdecide <;> cases h
    · exact .inr (takes_set (.rebased hx (.inl hroot)))
    · refine startRebase_outcome hx (by simpa using hroot) (.inr (.inr ?_))
      rw [Option.isNone_iff_eq_none.mp hfresh]
      rfl
    · exact .inr (takes_set (.rebased hx (.inr hfinished)))
    · exact fail_outcome_self (.inr (.inl ⟨hx, .inr (.inl hfailed)⟩))
    · exact startRebase_outcome hx (by simpa using hroot) (.inr (.inr (by simpa using hgone)))
  | failed => exact absurd hx hstate
  | rebased | repairing | dbUpdated | released | skipped | quarantined =>
    rw [hx] at hphase
    cases hphase

theorem release_takes (hstate : x.state = .dbUpdated) (hplace : x.inPlace = false) :
    Takes c x action (c.release x) := by
  -- the source is removed if its lane has a consumer
  obtain ⟨removal, heq, hremoval⟩ : ∃ removal : List (Effect I D P),
      c.release x = restoreStorageStatus x ++ removal
        ++ [.set x.storageId fun p => { p with state := .released }]
      ∧ (removal = [] ∨ removal = [.place (.removeSource x.storageId x.srcPath)]) := by
    unfold release
    split_ifs
    · exact ⟨_, rfl, .inr rfl⟩
    · exact ⟨_, rfl, .inl rfl⟩
  rw [heq]
  have hafter : after removal x = x := by rcases hremoval with rfl | rfl <;> rfl
  have htrans : Trans c x (placed removal) { x.core with state := .released } := by
    refine .release hstate ?_
    rcases hremoval with rfl | rfl
    · exact .inl rfl
    · exact .inr ⟨hplace, rfl⟩
  refine takes_of htrans ?_ ?_ ?_
  · intro e he
    simp only [append_assoc, mem_append, mem_singleton] at he
    rcases he with he | he | rfl
    · exact (restoreStorageStatus_beside e he).own action
    · rcases hremoval with rfl | rfl
      · cases he
      · rw [mem_singleton.mp he]
        rfl
    · rfl
  · rw [placed_append, placed_append, placed_beside restoreStorageStatus_beside, nil_append]
    exact append_nil _
  · rw [after_append, after_append, after_of_silent restoreStorageStatus_silent, hafter,
      after_cons, after_nil, onItem_set_self]
    rfl

theorem skipRelease_takes (hstate : x.state = .dbUpdated) : Takes c x action (skipRelease x) := by
  refine takes_of (.release hstate (.inl rfl)) ?_ ?_ ?_
  · exact forall_mem_cons.mpr
      ⟨rfl, fun e he => (restoreStorageStatus_beside e he).own action⟩
  · show placed (restoreStorageStatus x) = []
    exact placed_beside restoreStorageStatus_beside
  · rw [skipRelease, after_cons, onItem_set_self, core_after_beside restoreStorageStatus_beside]
    rfl

theorem dbUpdate_takes (hstate : x.state = .rebased) (hgate : x.inPlace ∨ x.verifyPassed) :
    Takes c x .dbUpdate (dbUpdate x) := by
  refine takes_of (.commit hstate hgate) ?_ rfl ?_
  · intro e he
    rcases List.mem_pair.mp he with rfl | rfl
    · exact ⟨rfl, rfl, rfl⟩
    · rfl
  · show ((Effect.set (P := P) x.storageId _).onItem x).core = _
    rw [onItem_set_self]
    rfl

/-- **A handler gives the tree up or takes its disk one step further.** -/
theorem handler_outcome (hnext : Next c.tree c.env.statusOf (some x) action)
    (hpending : x.state = .pending → x.moveTaskId = none) (h : c.handler x action = some effects) :
    Ends c x (c.marks action) effects ∨ Takes c x action effects := by
  cases hnext with
  | blocked hmem hstate hbefore =>
    cases h
    exact .inl (ends_terminalize (.refl x))
  | phaseA hmem hstate hphase hbefore => exact phaseA_outcome hstate hphase hpending rfl h
  | repair hmem hstate hall haction =>
    rcases haction with rfl | rfl | rfl
    · cases h
      exact .inl (ends_terminalize (.refl x))
    · cases h
      exact .inr (takes_set (.repaired hstate))
    · cases h
  | gate hmem hstate hall haction =>
    rcases haction with rfl | rfl | ⟨rfl, hgate⟩ | ⟨rfl, hgate, hpassed⟩
    · cases h
      exact fail_outcome_self (.inr (.inr hstate))
    · cases h
    · cases h
      refine startVerify_outcome hstate ?_
      by_contra hpassed
      simp [verifyGateState, eq_true_of_ne_false hpassed] at hgate
    · cases h
      refine .inr (takes_set (.passed hstate ?_))
      simp only [verifyGateState, hpassed, Bool.false_eq_true, if_false] at hgate
      split_ifs at hgate with hnone hfinished
      · exact hfinished
  | commit hmem hstate hall hrepair hpassed =>
    cases h
    refine .inr (dbUpdate_takes hstate ?_)
    cases hplace : x.inPlace with
    | true => exact .inl rfl
    | false => exact .inr (hpassed x hmem hstate hplace)
  | release hmem hstate hall hopen =>
    split_ifs at h with hplace
    · cases h
      exact .inr (skipRelease_takes hstate)
    · cases h
      exact .inr (release_takes hstate (by simpa using hplace))

theorem handler_for (h : Ends c x damaged effects ∨ Takes c x action effects) :
    ∀ e ∈ effects, e.For x.storageId := by
  rcases h with h | h
  · exact Ends.for h
  · exact fun e he => (h.1 e he).for

end Call

end Handlers

end IsardVDI.Migration.Saga
