import IsardVDI.Storage.Rows
import IsardVDI.Tasks.JobStatus

/-!
# `lib/storage/migration.py` and `migration_run.py` — the saga of a tree

The runner moves the disks of a tree one step at a time. `tree_next` reads the rows of the ledger
and the statuses of their tasks and says which disk is next and what is to be done; a handler does
it. A handler is a sequence of writes, to the ledger, to the storage rows and the domains, and of
tasks it places, and an exception can end it after any of them.

* `Item` — a row of the ledger: what the plan fixed (`Planned`) and what the saga writes
  (`Progress`).
* `Effect` — one write or one task. The handlers are the lists of effects they perform.

A media is a tree of its own without a storage row and is left out.
-/

namespace IsardVDI.Migration.Saga

open IsardVDI.Storage
open List Option

/-! ## Rows of the ledger -/

inductive ItemState where
  | pending
  | moving
  | moved
  | rebased
  | repairing
  | dbUpdated
  | released
  | skipped
  | failed
  | quarantined
  deriving DecidableEq, Repr

def ItemState.terminal : ItemState → Bool
  | .released | .skipped | .failed | .quarantined => true
  | _ => false

def ItemState.phaseADone : ItemState → Bool
  | .rebased | .repairing | .dbUpdated | .released | .skipped | .quarantined => true
  | _ => false

def ItemState.committed : ItemState → Bool
  | .dbUpdated | .released => true
  | _ => false

def ItemState.copiedUncommitted : ItemState → Bool
  | .moving | .moved | .rebased => true
  | _ => false

/-- What a task slot holds: the fence of a claim, which no task has for its id, or a task. -/
inductive TaskId where
  | claim
  | job (id : Nat)
  deriving DecidableEq, Repr

structure Planned (I P : Type) where
  storageId : I
  treeId : I
  topoIndex : Nat
  parentStorageId : Option I
  srcPath : P
  dstPath : P
  parentDstPath : Option P
  deriving DecidableEq

structure Progress (D : Type) where
  state : ItemState := .pending
  preflightTaskId : Option TaskId := none
  moveTaskId : Option TaskId := none
  rebaseTaskId : Option TaskId := none
  verifyTaskId : Option TaskId := none
  repairTaskId : Option TaskId := none
  verifyPassed : Bool := false
  repairAttempted : Bool := false
  /-- The destination was proven clear before the copy. -/
  dstOwned : Bool := false
  abandonRestarts : Nat := 0
  attempts : Nat := 0
  storageOrigStatus : Option StorageStatus := none
  maintenanceDomains : Option (List D) := none
  deriving DecidableEq

/-- The claim of a row that is to be moved: a fresh move follows a clear preflight. -/
def Progress.claimPending {D : Type} (p : Progress D) : Progress D :=
  { p with state := .moving, moveTaskId := some .claim, dstOwned := true }

/-- The claim of a row whose move is gone. -/
def Progress.claimMoving {D : Type} (p : Progress D) : Progress D :=
  { p with moveTaskId := some .claim }

structure Item (I D P : Type) extends Planned I P, Progress D
  deriving DecidableEq

namespace Item

variable {I D P : Type}

def update (item : Item I D P) (f : Progress D → Progress D) : Item I D P :=
  ⟨item.toPlanned, f item.toProgress⟩

def inPlace [DecidableEq P] (item : Item I D P) : Bool := item.dstPath = item.srcPath

/-- A disk that has nothing in its tree to be rebased onto. -/
def isRoot (item : Item I D P) : Bool := item.topoIndex = 0 || item.parentDstPath.isNone

variable (item : Item I D P) (f : Progress D → Progress D)

@[simp] theorem toPlanned_update : (item.update f).toPlanned = item.toPlanned := rfl

@[simp] theorem toProgress_update : (item.update f).toProgress = f item.toProgress := rfl

end Item

/-! ## What is next -/

inductive Action where
  | startPreflight
  | destinationExists
  | reconcilePending
  | startMove
  | skipMove
  | markMoved
  | startRebase
  | markRebased
  | skipRebase
  | dbUpdate
  | startVerify
  | markVerified
  | release
  | skipRelease
  | markRepaired
  | repairFailed
  | fail
  | blocked
  | wait
  | noop
  | done
  deriving DecidableEq, Repr

variable (status : Option JobStatus)

def jobFinished : Bool := status = some .finished

def jobFailed : Bool :=
  status = some .failed || status = some .stopped || status = some .canceled

section Next

variable {I D P : Type} [DecidableEq P]

def decideItemAction (item : Item I D P) (jobStatus : Option TaskId → Option JobStatus) : Action :=
  match item.state with
  | .pending =>
    if item.moveTaskId.isSome then .reconcilePending
    else if item.inPlace then .skipMove
    else if item.preflightTaskId.isNone then .startPreflight
    else if jobFailed (jobStatus item.preflightTaskId) then .destinationExists
    else if jobFinished (jobStatus item.preflightTaskId) then .startMove
    else if (jobStatus item.preflightTaskId).isNone then .startPreflight
    else .wait
  | .moving =>
    if jobFinished (jobStatus item.moveTaskId) then .markMoved
    else if jobFailed (jobStatus item.moveTaskId) then .fail
    else if (jobStatus item.moveTaskId).isNone then .startMove
    else .wait
  | .moved =>
    if item.isRoot then .skipRebase
    else if item.rebaseTaskId.isNone then .startRebase
    else if jobFinished (jobStatus item.rebaseTaskId) then .markRebased
    else if jobFailed (jobStatus item.rebaseTaskId) then .fail
    else if (jobStatus item.rebaseTaskId).isNone then .startRebase
    else .wait
  | _ => .noop

inductive Gate where
  | start
  | wait
  | fail
  | passed
  deriving DecidableEq, Repr

def verifyGateState (item : Item I D P) (jobStatus : Option TaskId → Option JobStatus) : Gate :=
  if item.verifyPassed then .passed
  else if item.verifyTaskId.isNone then .start
  else if jobFinished (jobStatus item.verifyTaskId) then .passed
  else if jobFailed (jobStatus item.verifyTaskId) then .fail
  else if (jobStatus item.verifyTaskId).isNone then .start
  else .wait

/-- A tree whose disks are all rebased and not in repair: verify all, then repoint all, then
release all. A failed gate goes before everything else. -/
def phaseB (items : List (Item I D P)) (jobStatus : Option TaskId → Option JobStatus) :
    Option (Item I D P) × Action :=
  let rebased := items.filter (·.state = .rebased)
  let gated := rebased.filter (!·.inPlace)
  match gated.find? (verifyGateState · jobStatus = .fail) with
  | some item => (some item, .fail)
  | none =>
  match gated.find? (verifyGateState · jobStatus = .start) with
  | some item => (some item, .startVerify)
  | none =>
  match gated.find? (fun item =>
      verifyGateState item jobStatus = .passed && !item.verifyPassed) with
  | some item => (some item, .markVerified)
  | none =>
  match gated.find? (verifyGateState · jobStatus = .wait) with
  | some item => (some item, .wait)
  | none =>
  match rebased.head? with
  | some item => (some item, .dbUpdate)
  | none =>
  match (items.filter (·.state = .dbUpdated)).head? with
  | some item => (some item, if item.inPlace then .skipRelease else .release)
  | none => (none, .done)

def treeNext (treeItems : List (Item I D P)) (jobStatus : Option TaskId → Option JobStatus) :
    Option (Item I D P) × Action :=
  let items := treeItems.insertionSort (·.topoIndex ≤ ·.topoIndex)
  if !items.isEmpty && items.all (·.state.terminal) then (none, .done)
  else
    -- phase A: one disk at a time, parents before children
    match items.find? (!·.state.phaseADone) with
    | some item =>
      if item.state = .failed then (some item, .blocked)
      else (some item, decideItemAction item jobStatus)
    | none =>
      match items.find? (·.state = .repairing) with
      | some item =>
        if jobFailed (jobStatus item.repairTaskId) then (some item, .repairFailed)
        else if jobFinished (jobStatus item.repairTaskId) then (some item, .markRepaired)
        else (some item, .wait)
      | none => phaseB items jobStatus

/-- What holds of a tree when `tree_next` chooses. -/
inductive Next (tree : List (Item I D P)) (jobStatus : Option TaskId → Option JobStatus) :
    Option (Item I D P) → Action → Prop where
  | done : Next tree jobStatus none .done
  | blocked {item : Item I D P} (hmem : item ∈ tree) (hstate : item.state = .failed)
      (hbefore : ∀ it ∈ tree, it.topoIndex < item.topoIndex → it.state.phaseADone) :
      Next tree jobStatus (some item) .blocked
  /-- The first disk that is not rebased moves on. -/
  | phaseA {item : Item I D P} (hmem : item ∈ tree) (hstate : item.state ≠ .failed)
      (hphase : item.state.phaseADone = false)
      (hbefore : ∀ it ∈ tree, it.topoIndex < item.topoIndex → it.state.phaseADone) :
      Next tree jobStatus (some item) (decideItemAction item jobStatus)
  | repair {item : Item I D P} {action : Action} (hmem : item ∈ tree)
      (hstate : item.state = .repairing) (hall : ∀ it ∈ tree, it.state.phaseADone)
      (haction : action = .repairFailed ∨ action = .markRepaired ∨ action = .wait) :
      Next tree jobStatus (some item) action
  | gate {item : Item I D P} {action : Action} (hmem : item ∈ tree)
      (hstate : item.state = .rebased) (hall : ∀ it ∈ tree, it.state.phaseADone)
      (haction : action = .fail ∨ action = .wait
        ∨ action = .startVerify ∧ verifyGateState item jobStatus = .start
        ∨ action = .markVerified ∧ verifyGateState item jobStatus = .passed
          ∧ item.verifyPassed = false) :
      Next tree jobStatus (some item) action
  | commit {item : Item I D P} (hmem : item ∈ tree) (hstate : item.state = .rebased)
      (hall : ∀ it ∈ tree, it.state.phaseADone) (hrepair : ∀ it ∈ tree, it.state ≠ .repairing)
      (hpassed : ∀ it ∈ tree, it.state = .rebased → it.inPlace = false → it.verifyPassed) :
      Next tree jobStatus (some item) .dbUpdate
  /-- Every disk is committed. -/
  | release {item : Item I D P} (hmem : item ∈ tree) (hstate : item.state = .dbUpdated)
      (hall : ∀ it ∈ tree, it.state.phaseADone)
      (hopen : ∀ it ∈ tree, it.state.terminal = false → it.state = .dbUpdated) :
      Next tree jobStatus (some item) (if item.inPlace then .skipRelease else .release)

variable {tree : List (Item I D P)}

omit [DecidableEq P] in
theorem before_of_find? {p : Item I D P → Bool} {item : Item I D P}
    (h : (tree.insertionSort (·.topoIndex ≤ ·.topoIndex)).find? p = some item) :
    item ∈ tree ∧ p item ∧ ∀ it ∈ tree, it.topoIndex < item.topoIndex → p it = false := by
  have hperm := perm_insertionSort (·.topoIndex ≤ ·.topoIndex) tree
  have hsorted : (tree.insertionSort (·.topoIndex ≤ ·.topoIndex)).Pairwise
      (·.topoIndex ≤ ·.topoIndex) := pairwise_insertionSort _ tree
  obtain ⟨hp, before, after, hsplit, hbefore⟩ := find?_eq_some_iff_append.mp h
  refine ⟨hperm.mem_iff.mp (mem_of_find?_eq_some h), hp, fun it hit hlt => ?_⟩
  have hmem := hperm.mem_iff.mpr hit
  rw [hsplit] at hmem hsorted
  rcases mem_append.mp hmem with hin | hin
  · simpa using hbefore it hin
  · -- what comes after it in the order is not smaller
    have hafter := (pairwise_cons.mp (pairwise_append.mp hsorted).2.1).1
    rcases mem_cons.mp hin with rfl | hin
    · omega
    · have := hafter it hin
      omega

theorem ItemState.eq_dbUpdated {state : ItemState} (hphase : state.phaseADone)
    (hrepair : state ≠ .repairing) (hrebase : state ≠ .rebased) (hopen : state.terminal = false) :
    state = .dbUpdated := by
  revert hphase hrepair hrebase hopen
  cases state <;> decide

theorem phaseB_next {items : List (Item I D P)} {jobStatus : Option TaskId → Option JobStatus}
    (hmem : ∀ it, it ∈ items ↔ it ∈ tree) (hall : ∀ it ∈ tree, it.state.phaseADone)
    (hrepair : ∀ it ∈ tree, it.state ≠ .repairing) :
    Next tree jobStatus (phaseB items jobStatus).1 (phaseB items jobStatus).2 := by
  have hgated : ∀ {it : Item I D P}, it ∈ (items.filter (·.state = .rebased)).filter (!·.inPlace)
      ↔ it ∈ tree ∧ it.state = .rebased ∧ it.inPlace = false := by
    intro it
    simp only [mem_filter, hmem, decide_eq_true_eq, Bool.not_eq_true', and_assoc]
  unfold phaseB
  dsimp only
  split
  · rename_i item hfind
    obtain ⟨hin, hstate, -⟩ := hgated.mp (mem_of_find?_eq_some hfind)
    exact .gate hin hstate hall (.inl rfl)
  rename_i hfail
  split
  · rename_i item hfind
    obtain ⟨hin, hstate, -⟩ := hgated.mp (mem_of_find?_eq_some hfind)
    have hgate := find?_some hfind
    exact .gate hin hstate hall (.inr (.inr (.inl ⟨rfl, by simpa using hgate⟩)))
  rename_i hstart
  split
  · rename_i item hfind
    obtain ⟨hin, hstate, -⟩ := hgated.mp (mem_of_find?_eq_some hfind)
    have hpassed := find?_some hfind
    simp only [Bool.and_eq_true, decide_eq_true_eq, Bool.not_eq_true'] at hpassed
    exact .gate hin hstate hall (.inr (.inr (.inr ⟨rfl, hpassed⟩)))
  rename_i hmark
  split
  · rename_i item hfind
    obtain ⟨hin, hstate, -⟩ := hgated.mp (mem_of_find?_eq_some hfind)
    exact .gate hin hstate hall (.inr (.inl rfl))
  rename_i hwait
  split
  · rename_i item hhead
    have hin := mem_filter.mp (mem_of_head? hhead)
    refine .commit ((hmem item).mp hin.1) (by simpa using hin.2) hall hrepair ?_
    -- no gate is failed, to be started or waited for, and none has passed unrecorded
    intro it hit hstate hplace
    have hg := hgated.mpr ⟨hit, hstate, hplace⟩
    have h1 := find?_eq_none.mp hfail it hg
    have h2 := find?_eq_none.mp hstart it hg
    have h3 := find?_eq_none.mp hmark it hg
    have h4 := find?_eq_none.mp hwait it hg
    simp only [decide_eq_true_eq, Bool.and_eq_true, Bool.not_eq_true', not_and,
      Bool.not_eq_false] at h1 h2 h3 h4
    cases h : verifyGateState it jobStatus with
    | start => exact absurd h h2
    | wait => exact absurd h h4
    | fail => exact absurd h h1
    | passed => exact h3 h
  rename_i hnone
  split
  · rename_i item hhead
    have hin := mem_filter.mp (mem_of_head? hhead)
    refine .release ((hmem item).mp hin.1) (by simpa using hin.2) hall fun it hit hopen => ?_
    have hnorebase : it.state ≠ .rebased := by
      intro hstate
      have hin : it ∈ items.filter (·.state = .rebased) := by simp [hmem, hit, hstate]
      rw [head?_eq_none_iff.mp hnone] at hin
      cases hin
    exact ItemState.eq_dbUpdated (hall it hit) (hrepair it hit) hnorebase hopen
  · exact .done

/-- **The decision read backwards.** -/
theorem treeNext_next (tree : List (Item I D P)) (jobStatus : Option TaskId → Option JobStatus) :
    Next tree jobStatus (treeNext tree jobStatus).1 (treeNext tree jobStatus).2 := by
  have hperm := perm_insertionSort (·.topoIndex ≤ ·.topoIndex) tree
  unfold treeNext
  dsimp only
  split_ifs with hdone
  · exact .done
  split
  · rename_i item hfind
    obtain ⟨hmem, hphase, hbefore⟩ := before_of_find? hfind
    have hbefore' : ∀ it ∈ tree, it.topoIndex < item.topoIndex → it.state.phaseADone :=
      fun it hit hlt => by simpa using hbefore it hit hlt
    split_ifs with hfailed
    · exact .blocked hmem hfailed hbefore'
    · exact .phaseA hmem hfailed (by simpa using hphase) hbefore'
  rename_i hphase
  have hall : ∀ it ∈ tree, it.state.phaseADone := fun it hit => by
    simpa using find?_eq_none.mp hphase it (hperm.mem_iff.mpr hit)
  split
  · rename_i item hfind
    obtain ⟨hmem, hstate, -⟩ := before_of_find? hfind
    have hstate' : item.state = .repairing := by simpa using hstate
    split_ifs
    · exact .repair hmem hstate' hall (.inl rfl)
    · exact .repair hmem hstate' hall (.inr (.inl rfl))
    · exact .repair hmem hstate' hall (.inr (.inr rfl))
  · rename_i hrepair
    refine phaseB_next (fun it => hperm.mem_iff) hall fun it hit => ?_
    simpa using find?_eq_none.mp hrepair it (hperm.mem_iff.mpr hit)

def cancelSkipsTree (treeItems : List (Item I D P)) (action : Action) (finishing : Bool) : Bool :=
  finishing && (action = .startMove || action = .startRebase || action = .startVerify)
    && !treeItems.any (·.state.committed)

/-! ## What is waited for -/

/-- The task is there, and has not ended. -/
def jobLive : Prop :=
  status.isSome ∧ jobFinished status = false ∧ jobFailed status = false

def Progress.taskIds (p : Progress D) : List (Option TaskId) :=
  [p.preflightTaskId, p.moveTaskId, p.rebaseTaskId, p.verifyTaskId, p.repairTaskId]

theorem jobLive_of_not {status : Option JobStatus} (hfinished : ¬ jobFinished status = true)
    (hfailed : ¬ jobFailed status = true) (hsome : ¬ status.isNone = true) : jobLive status :=
  ⟨by simpa [← isSome_iff_ne_none] using hsome, by simpa using hfinished,
    by simpa using hfailed⟩

section Wait

variable {items : List (Item I D P)} {item : Item I D P}
  {jobStatus : Option TaskId → Option JobStatus}

theorem decideItemAction_wait (h : decideItemAction item jobStatus = .wait) :
    ∃ slot ∈ item.taskIds, jobLive (jobStatus slot) := by
  unfold decideItemAction at h
  split at h
  · split_ifs at h with _ _ _ hfailed hfinished hnone
    exact ⟨_, by simp [Progress.taskIds], jobLive_of_not hfinished hfailed hnone⟩
  · split_ifs at h with hfinished hfailed hnone
    exact ⟨item.moveTaskId, by simp [Progress.taskIds], jobLive_of_not hfinished hfailed hnone⟩
  · split_ifs at h with _ _ hfinished hfailed hnone
    exact ⟨item.rebaseTaskId, by simp [Progress.taskIds], jobLive_of_not hfinished hfailed hnone⟩
  · cases h

omit [DecidableEq P] in
theorem verifyGateState_wait (h : verifyGateState item jobStatus = .wait) :
    ∃ slot ∈ item.taskIds, jobLive (jobStatus slot) := by
  unfold verifyGateState at h
  split_ifs at h with _ _ hfinished hfailed hnone
  exact ⟨item.verifyTaskId, by simp [Progress.taskIds], jobLive_of_not hfinished hfailed hnone⟩

theorem phaseB_wait (h : phaseB items jobStatus = (some item, .wait)) :
    verifyGateState item jobStatus = .wait := by
  unfold phaseB at h
  dsimp only at h
  split at h
  · cases h
  split at h
  · cases h
  split at h
  · cases h
  split at h
  · rename_i hfind
    cases h
    simpa using find?_some hfind
  split at h
  · cases h
  split at h
  · split_ifs at h <;> cases h
  · cases h

/-- The disk holds its tree: every disk has been rebased or has ended, and it is the first of those
in repair. -/
def Holds (tree : List (Item I D P)) (item : Item I D P) : Prop :=
  (∀ it ∈ tree, it.state.phaseADone)
    ∧ (tree.insertionSort (·.topoIndex ≤ ·.topoIndex)).find? (·.state = .repairing) = some item

theorem Holds.treeNext_wait (h : Holds tree item) (hgone : jobStatus item.repairTaskId = none) :
    treeNext tree jobStatus = (some item, .wait) := by
  have hmem {it : Item I D P} : it ∈ tree.insertionSort (·.topoIndex ≤ ·.topoIndex) ↔ it ∈ tree :=
    (perm_insertionSort _ tree).mem_iff
  have hstate : item.state = .repairing := by simpa using find?_some h.2
  have hopen : (tree.insertionSort (·.topoIndex ≤ ·.topoIndex)).all (·.state.terminal) = false := by
    rw [List.all_eq_false]
    exact ⟨item, mem_of_find?_eq_some h.2, by rw [hstate]; decide⟩
  have hphase : (tree.insertionSort (·.topoIndex ≤ ·.topoIndex)).find? (!·.state.phaseADone)
      = none := by
    rw [find?_eq_none]
    exact fun it hit => by simp [h.1 it (hmem.mp hit)]
  simp [treeNext, hopen, hphase, h.2, hgone, jobFailed, jobFinished]

omit [DecidableEq P] in
theorem live_id {jobStatus : TaskId → Option JobStatus}
    (h : ∃ slot ∈ item.taskIds, jobLive (slot.bind jobStatus)) :
    ∃ id, some id ∈ item.taskIds ∧ jobLive (jobStatus id) := by
  obtain ⟨slot, hmem, hlive⟩ := h
  obtain ⟨status, hstatus⟩ := isSome_iff_exists.mp hlive.1
  obtain ⟨id, rfl, -⟩ := bind_eq_some_iff.mp hstatus
  exact ⟨id, hmem, hlive⟩

/-- **Who is waited for.** A task that is there and has not ended, exactly when the task of a disk
in repair that holds the tree has a status, or another task of that disk is there and has not
ended. -/
theorem treeNext_wait_live_iff (tree : List (Item I D P))
    (jobStatus : TaskId → Option JobStatus) :
    (∀ item, treeNext tree (·.bind jobStatus) = (some item, .wait) →
        ∃ id, some id ∈ item.taskIds ∧ jobLive (jobStatus id))
      ↔ ∀ item, Holds tree item → (item.repairTaskId.bind jobStatus).isSome
        ∨ ∃ id, some id ∈ item.taskIds ∧ jobLive (jobStatus id) := by
  constructor
  · intro hlive item hholds
    by_cases hsome : (item.repairTaskId.bind jobStatus).isSome
    · exact .inl hsome
    · exact .inr (hlive item (hholds.treeNext_wait (by simpa using hsome)))
  · intro hrepair item h
    unfold treeNext at h
    dsimp only at h
    split_ifs at h
    · cases h
    split at h
    · split_ifs at h
      · cases h
      · rw [Prod.mk.injEq, Option.some.injEq] at h
        exact live_id (decideItemAction_wait (h.1 ▸ h.2))
    · rename_i hphase
      split at h
      · rename_i hfind
        split_ifs at h with hfailed hfinished
        · cases h
        · cases h
        · cases h
          have hall : ∀ it ∈ tree, it.state.phaseADone := fun it hit => by
            simpa using find?_eq_none.mp hphase it ((perm_insertionSort _ tree).mem_iff.mpr hit)
          rcases hrepair item ⟨hall, hfind⟩ with hsome | hlive
          · exact live_id ⟨_, by simp [Progress.taskIds], hsome, by simpa using hfinished,
              by simpa using hfailed⟩
          · exact hlive
      · exact live_id (verifyGateState_wait (phaseB_wait h))

end Wait

def repairedDisk : Item Nat Nat Nat where
  storageId := 0
  treeId := 0
  topoIndex := 0
  parentStorageId := none
  srcPath := 0
  dstPath := 1
  parentDstPath := none
  state := .repairing
  verifyTaskId := some (.job 0)
  repairTaskId := some (.job 1)
  repairAttempted := true

theorem repairedDisk_live : ∃ id, some id ∈ repairedDisk.taskIds
    ∧ jobLive ((fun _ => some .started : TaskId → Option JobStatus) id) := by
  refine (treeNext_wait_live_iff [repairedDisk] _).mpr (fun item hholds => .inl ?_) _
    (by decide)
  obtain rfl := mem_singleton.mp (mem_of_find?_eq_some hholds.2)
  rfl

/-- The repair was started and its task is gone: the tree waits. -/
theorem repairedDisk_waits :
    treeNext [repairedDisk] (·.bind fun _ => none) = (some repairedDisk, .wait) := by
  decide

end Next

/-! ## Effects -/

inductive DomainState where
  | stopped
  | failed
  | maintenance
  | started
  | stopping
  | other
  deriving DecidableEq, Repr

/-- `quiesce_decision` is `ok`. -/
def DomainState.quiet : DomainState → Bool
  | .stopped | .failed | .maintenance => true
  | _ => false

inductive Job (I P : Type) where
  | preflight (id : I) (dstPath : P)
  | move (id : I) (srcPath dstPath : P)
  | rebase (id : I) (childPath : P) (newBackingPath : Option P)
  | verify (id : I) (dstPath : P) (expectBacking : Option P)
  /-- `qemu_img_check_repair`. -/
  | repair (id : I) (storagePath : P)
  | removeSource (id : I) (path : P)
  /-- The removal `_discard_destination` places. -/
  | removeDestination (id : I) (path : P)
  deriving DecidableEq

inductive Effect (I D P : Type) where
  /-- `_set` of a row that is at hand, or its claim. -/
  | set (id : I) (change : Progress D → Progress D)
  | load
  | settle (id : I) (state : ItemState)
  /-- `_enqueue`. -/
  | place (job : Job I P)
  | status (id : I) (status : StorageStatus)
  /-- The location of a storage row. -/
  | repoint (id : I) (path : P)
  /-- A domain goes into maintenance. -/
  | park (domain : D)
  /-- It comes out, if it is still there. -/
  | unpark (domain : D)
  /-- A running domain is told to stop. -/
  | stop (domain : D)

inductive Lane where
  | preflight
  | move
  | rebase
  | verify
  | repair
  | removal
  deriving DecidableEq, Repr

structure Env (I : Type) where
  /-- The status of a task, `none` if it is gone. -/
  jobStatus : Nat → Option JobStatus
  /-- The job is being cancelled. -/
  finishing : Bool := false
  forceStop : Bool := false
  /-- `lane_is_drainable`, for the disk the lane is asked for. -/
  drainable : Lane → I → Bool := fun _ _ => true
  spaceRefusal : Bool := false
  /-- `damage_from_reason` of the failure reason. -/
  damaged : Bool := false
  /-- `on_damaged` is one of `repair_leaks` and `repair_all`. -/
  repairs : Bool := false
  /-- The disk has children outside the ledger, or they cannot be read. -/
  otherChildren : Bool := false
  sourceStepDone : Bool := false
  /-- The handler raises after so many of its effects. -/
  raises : Option Nat := none

/-- The status of the task in a slot. A fence is not the id of a task. -/
def Env.statusOf {I : Type} (env : Env I) : Option TaskId → Option JobStatus
  | some (.job id) => env.jobStatus id
  | _ => none

def maxAbandonRestarts : Nat := 10

def quiesceMaxAttempts : Nat := 60

structure Call (I D P : Type) where
  env : Env I
  tree : List (Item I D P)
  /-- The rows of the tree `_items` has, given the row at hand. -/
  items : Item I D P → List (Item I D P)
  status : I → Option StorageStatus
  /-- Where a storage row says the disk is. -/
  path : I → P
  domains : D → DomainState
  domainsOf : I → List D
  /-- The id of the next task. -/
  nextJob : Nat

section Handlers

variable {I D P : Type} [DecidableEq I] [DecidableEq P]

namespace Call

variable (c : Call I D P) (item : Item I D P)

/-! ## Putting back -/

def restoreStorageStatus : List (Effect I D P) :=
  (item.maintenanceDomains.getD []).map .unpark
    ++ item.storageOrigStatus.toList.map (.status item.storageId)

/-- `_discard_destination`. Without the proof that the copy is ours it stays. -/
def discardDestination : List (Effect I D P) :=
  if item.state.copiedUncommitted && item.dstOwned && c.path item.storageId ≠ item.dstPath
    && c.env.drainable .removal item.storageId then
    [.place (.removeDestination item.storageId item.dstPath)]
  else []

def abandonItem (damaged : Bool) (failed : I) : List (Effect I D P) :=
  restoreStorageStatus item ++ c.discardDestination item
    ++ (if damaged ∧ item.storageId = failed then [.status item.storageId .damaged] else [])
    ++ [.settle item.storageId (if item.storageId = failed then .failed else .skipped)]

def terminalizeTreeFailure (damaged : Bool) : List (Effect I D P) :=
  let open_ := (c.items item).filter (!·.state.terminal)
  .load :: if open_.isEmpty then []
    else restoreStorageStatus item
      ++ (if damaged ∧ item.state = .failed ∧ item.storageId ∉ open_.map (·.storageId) then
          [.status item.storageId .damaged] else [])
      ++ open_.flatMap fun it => c.abandonItem it damaged item.storageId

/-! ## Starting tasks -/

/-- `_abandon_resume_blocked`: a task that was lost is placed again so many times. -/
def resume (observed : Option TaskId) (rest : List (Effect I D P)) : List (Effect I D P) :=
  match observed with
  | some (.job _) =>
    .set item.storageId (fun p => { p with abandonRestarts := p.abandonRestarts + 1 }) ::
      if item.abandonRestarts + 1 > maxAbandonRestarts then
        c.terminalizeTreeFailure item c.env.damaged
      else rest
  | _ => rest

def startPreflight : List (Effect I D P) :=
  if !c.env.drainable .preflight item.storageId then []
  else
    .set item.storageId (fun p => { p with preflightTaskId := some .claim }) ::
      c.resume item item.preflightTaskId [
        .place (.preflight item.storageId item.dstPath),
        .set item.storageId fun p => { p with preflightTaskId := some (.job c.nextJob) }]

def destinationExists : List (Effect I D P) := c.terminalizeTreeFailure item false

def startRebase : List (Effect I D P) :=
  if !c.env.drainable .rebase item.storageId then []
  else
    .set item.storageId (fun p => { p with rebaseTaskId := some .claim }) ::
      c.resume item item.rebaseTaskId [
        .place (.rebase item.storageId item.dstPath item.parentDstPath),
        .set item.storageId fun p => { p with rebaseTaskId := some (.job c.nextJob) }]

def startVerify : List (Effect I D P) :=
  if !c.env.drainable .verify item.storageId then []
  else
    .set item.storageId (fun p => { p with verifyTaskId := some .claim }) ::
      c.resume item item.verifyTaskId [
        .place (.verify item.storageId item.dstPath item.parentDstPath),
        .set item.storageId fun p => { p with verifyTaskId := some (.job c.nextJob) }]

/-! ## Failing -/

/-- `_has_descendants`: the disks of the tree that are derived from it have rows. -/
def hasDescendants : Bool :=
  c.tree.any (·.parentStorageId = some item.storageId) || c.env.otherChildren

def deferForSpace : List (Effect I D P) :=
  restoreStorageStatus item ++ [.set item.storageId fun p =>
    { p with
      state := .pending, moveTaskId := none, dstOwned := false, maintenanceDomains := none,
      storageOrigStatus := none }]

def fail : List (Effect I D P) :=
  if item.state = .moving ∧ c.env.spaceRefusal then deferForSpace item
  else if c.env.repairs ∧ !item.repairAttempted ∧ c.env.damaged then
    if c.hasDescendants item then
      .set item.storageId (fun p => { p with repairAttempted := true }) ::
        c.terminalizeTreeFailure item c.env.damaged
    else if c.env.drainable .repair item.storageId then
      [.place (.repair item.storageId item.dstPath),
        .set item.storageId fun p =>
          { p with
            state := .repairing, repairTaskId := some (.job c.nextJob),
            repairAttempted := true }]
    else c.terminalizeTreeFailure item c.env.damaged
  else c.terminalizeTreeFailure item c.env.damaged

/-! ## Moving -/

/-- The first part of `_prepare_disk_for_move`: the status to put back is recorded once. -/
def recordStatus : Option (List (Effect I D P) × Item I D P) :=
  match item.storageOrigStatus, c.status item.storageId with
  | some _, _ => some ([], item)
  | none, none => none
  | none, some .maintenance => none
  | none, some current =>
    some ([.set item.storageId fun p => { p with storageOrigStatus := some current }],
      item.update fun p => { p with storageOrigStatus := some current })

def parkDomains : List (Effect I D P) :=
  match item.maintenanceDomains with
  | some _ => []
  | none =>
    let parked := (c.domainsOf item.storageId).filter (c.domains · = .stopped)
    .set item.storageId (fun p => { p with maintenanceDomains := some parked }) ::
      parked.map .park

/-- `_start_move` once the row is claimed. -/
def launchMove : List (Effect I D P) :=
  match c.recordStatus item with
  | none => c.fail item
  | some (recorded, item) =>
    recorded ++ [.status item.storageId .maintenance] ++ c.parkDomains item
      ++ if c.env.drainable .move item.storageId then
        [.place (.move item.storageId item.srcPath item.dstPath),
          .set item.storageId fun p =>
            { p with state := .moving, moveTaskId := some (.job c.nextJob) }]
      else []

/-- `_start_move`: the claim, of a pending row or of a row whose task is gone. -/
def startMove : List (Effect I D P) :=
  match item.moveTaskId with
  | none =>
    if item.state = .pending then
      .set item.storageId Progress.claimPending :: c.launchMove (item.update Progress.claimPending)
    else []
  | some observed =>
    if item.state = .moving then
      .set item.storageId Progress.claimMoving ::
        c.resume (item.update Progress.claimMoving) (some observed)
          (c.launchMove (item.update Progress.claimMoving))
    else []

def reconcilePending : List (Effect I D P) :=
  if item.verifyPassed ∧ c.path item.storageId = item.dstPath then
    [.set item.storageId fun p =>
      { p with
        state := if c.env.sourceStepDone then .released else .dbUpdated
        moveTaskId := none }]
  else if jobFinished (c.env.statusOf item.moveTaskId) then
    [.set item.storageId fun p => { p with state := .moved }]
  else if (c.env.statusOf item.moveTaskId).isSome ∧ !jobFailed (c.env.statusOf item.moveTaskId) then
    [.set item.storageId fun p => { p with state := .moving }]
  else
    restoreStorageStatus item ++ [.set item.storageId fun p =>
      { p with
        preflightTaskId := none, moveTaskId := none, verifyTaskId := none, verifyPassed := false,
        dstOwned := false, storageOrigStatus := none, maintenanceDomains := none }]

/-! ## Committing -/

/-- `_db_update`: the row goes to its new place. -/
def dbUpdate : List (Effect I D P) :=
  [.repoint item.storageId item.dstPath,
    .set item.storageId fun p => { p with state := .dbUpdated, abandonRestarts := 0 }]

/-- `_release`. A lane without a consumer leaves the source where it is. -/
def release : List (Effect I D P) :=
  restoreStorageStatus item
    ++ (if c.env.drainable .removal item.storageId then
        [.place (.removeSource item.storageId item.srcPath)] else [])
    ++ [.set item.storageId fun p => { p with state := .released }]

def skipRelease : List (Effect I D P) :=
  .set item.storageId (fun p => { p with state := .released }) :: restoreStorageStatus item

def markRepaired : List (Effect I D P) :=
  [.set item.storageId fun p =>
    { p with state := .rebased, verifyPassed := false, verifyTaskId := none }]

def handler : Action → Option (List (Effect I D P))
  | .startPreflight => some (c.startPreflight item)
  | .destinationExists => some (c.destinationExists item)
  | .reconcilePending => some (c.reconcilePending item)
  | .startMove => some (c.startMove item)
  | .skipMove => some [.set item.storageId fun p => { p with state := .moved }]
  | .markMoved =>
    some [.set item.storageId fun p => { p with state := .moved, abandonRestarts := 0 }]
  | .startRebase => some (c.startRebase item)
  | .markRebased | .skipRebase =>
    some [.set item.storageId fun p => { p with state := .rebased, abandonRestarts := 0 }]
  | .dbUpdate => some (dbUpdate item)
  | .startVerify => some (c.startVerify item)
  | .markVerified => some [.set item.storageId fun p => { p with verifyPassed := true }]
  | .release => some (c.release item)
  | .skipRelease => some (skipRelease item)
  | .markRepaired => some (markRepaired item)
  | .repairFailed | .blocked => some (c.terminalizeTreeFailure item c.env.damaged)
  | .fail => some (c.fail item)
  | .wait | .noop | .done => none

/-! ## A step -/

def skipTree (state : ItemState) : List (Effect I D P) :=
  c.tree.map fun it => .set it.storageId fun p => { p with state }

/-- `_gate_tree`: before a tree starts, its disks are ready and their domains quiet. -/
def gateTree : Option (List (Effect I D P)) :=
  if c.tree.any (·.state ≠ .pending) then none
  else if c.tree.any (fun it => c.status it.storageId ≠ some .ready) then
    some (c.skipTree .skipped)
  else
    let running := (c.tree.flatMap fun it => c.domainsOf it.storageId).filter
      fun d => !(c.domains d).quiet
    if running.isEmpty then none
    else if !c.env.forceStop then some (c.skipTree .skipped)
    else
      let attempts := (c.tree.map (·.attempts)).foldl max 0 + 1
      some ((running.filter (c.domains · = .started)).map .stop
        ++ if attempts > quiesceMaxAttempts then c.skipTree .failed
          else c.tree.map fun it => .set it.storageId fun p => { p with attempts })

def cancelSkipTree : List (Effect I D P) :=
  c.tree.flatMap fun it => restoreStorageStatus it ++ c.discardDestination it
    ++ [.set it.storageId fun p => { p with state := .skipped }]

/-- A handler that raises leaves its first effects behind, and the disk is failed. -/
def guarded (effects : List (Effect I D P)) : List (Effect I D P) :=
  match c.env.raises with
  | none => effects
  | some n => effects.take n ++ [.set item.storageId fun p => { p with state := .failed }]

def stepTree : List (Effect I D P) :=
  match c.gateTree with
  | some effects => effects
  | none =>
    match treeNext c.tree c.env.statusOf with
    | (none, _) => []
    | (some item, action) =>
      if cancelSkipsTree c.tree action c.env.finishing then c.cancelSkipTree
      else ((c.handler item action).map (c.guarded item)).getD []

end Call

end Handlers

end IsardVDI.Migration.Saga
