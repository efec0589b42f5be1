import IsardVDI.Lib.Fallible
import IsardVDI.Tasks.JobStatus

/-!
# `models/task.py` — task chains

A chain is a set of RQ jobs linked by the ids in their metadata, and the finalize steps they
carry there. A dependent on a `core` queue never becomes a job: it is written into the metadata
of the job it depends on, as a node of a tree. A storage job declared under such a node is a
*knot child*: its id is fixed when the chain is built, the job is created when the step runs.

* `Ident` — ids of jobs and steps. A step's id extends the id of the job or the step it waits on
  by `:cf:<index>`, a knot child's id extends its step's by `:sd:<index>`.
* **`coreFinalizeOf`** — what `Task.__init__` writes into `meta["core_finalize"]`.
-/

namespace IsardVDI

/-! ## Names -/

inductive Segment where
  | cf (index : Nat)
  | sd (index : Nat)
  /-- The id RQ draws for the dependent at this position. -/
  | dep (index : Nat)
  deriving DecidableEq

/-- The id of a job or of a finalize step: the id of the job at the top of the chain and what was
appended to it. -/
structure Ident (U : Type) where
  root : U
  path : List Segment
  deriving DecidableEq

namespace Ident

variable {U : Type}

instance [DecidableEq U] : LawfulBEq (Ident U) := inferInstance

def append (id : Ident U) (segment : Segment) : Ident U := { id with path := id.path ++ [segment] }

/-- The id of the finalize step at this position under a job or a step. -/
def step (parent : Ident U) (index : Nat) : Ident U := parent.append (.cf index)

def knotChildId (stepId : Ident U) (index : Nat) : Ident U := stepId.append (.sd index)

def dependent (job : Ident U) (index : Nat) : Ident U := job.append (.dep index)

theorem append_inj {id id' : Ident U} {segment segment' : Segment} :
    id.append segment = id'.append segment' ↔ id = id' ∧ segment = segment' := by
  cases id
  cases id'
  simp [append, and_assoc]

end Ident

/-! ## Finalize trees -/

/-- A list of raw dependents. `spec` is the rest of the dictionary: the task, its arguments and
the lane of a storage dependent. -/
inductive Deps (C : Type) where
  | nil
  | core (spec : C) (dependents rest : Deps C)
  | storage (spec : C) (dependents rest : Deps C)

structure Child (C : Type) where
  spec : C
  dependents : Deps C

inductive Stamp where
  | finished
  | failed
  deriving DecidableEq

/-- A list of finalize nodes. `unbuilt` are the steps of knot children that will never be built,
once a dead chain has materialised them on this node. -/
inductive Forest (U C : Type) where
  | nil
  | node (id : Ident U) (spec : C) (status : Option Stamp) (coreFinalize : Forest U C)
      (storageDependents : List (Child C)) (unbuilt rest : Forest U C)

section Finalize

variable {U C : Type}

def Deps.storageDependents : Deps C → List (Child C)
  | .nil => []
  | .core _ _ rest => rest.storageDependents
  | .storage spec dependents rest => ⟨spec, dependents⟩ :: rest.storageDependents

/-- The `core` children of a step: `_serialize_finalize` numbers them among all children. -/
def serializeFinalize (parent : Ident U) (index : Nat) : Deps C → Forest U C
  | .nil => .nil
  | .core spec dependents rest =>
    .node (parent.step index) spec none (serializeFinalize (parent.step index) 0 dependents)
      dependents.storageDependents .nil (serializeFinalize parent (index + 1) rest)
  | .storage _ _ rest => serializeFinalize parent (index + 1) rest

/-- `meta["core_finalize"]` of a job: the `core` dependents, numbered among themselves. -/
def coreFinalizeOf (job : Ident U) (index : Nat) : Deps C → Forest U C
  | .nil => .nil
  | .core spec dependents rest =>
    .node (job.step index) spec none (serializeFinalize (job.step index) 0 dependents)
      dependents.storageDependents .nil (coreFinalizeOf job (index + 1) rest)
  | .storage _ _ rest => coreFinalizeOf job index rest

/-- The `core` dependents alone. -/
def Deps.cores : Deps C → Deps C
  | .nil => .nil
  | .core spec dependents rest => .core spec dependents rest.cores
  | .storage _ _ rest => rest.cores

theorem coreFinalizeOf_eq (job : Ident U) (index : Nat) (deps : Deps C) :
    coreFinalizeOf job index deps = serializeFinalize job index deps.cores := by
  induction deps generalizing index with
  | nil => rfl
  | core spec dependents rest _ ih => simp [coreFinalizeOf, serializeFinalize, Deps.cores, ih]
  | storage spec dependents rest _ ih => exact ih index

def Forest.hasUnstamped : Forest U C → Bool
  | .nil => false
  | .node _ _ status coreFinalize _ unbuilt rest =>
    status.isNone || coreFinalize.hasUnstamped || unbuilt.hasUnstamped || rest.hasUnstamped

/-- `CoreStep.job_status`, from the step's mark and the status of what it waits on. -/
def stepStatus (stamp : Option Stamp) (parent : Except RqError JobStatus) :
    Except RqError JobStatus :=
  match stamp with
  | some .finished => .ok .finished
  | some .failed => .ok .failed
  | none => do
    if (← parent).terminal then return .queued
    return .deferred

def Forest.stamps : Forest U C → List (Option Stamp)
  | .nil => []
  | .node _ _ status _ _ _ rest => status :: rest.stamps

theorem Forest.hasUnstamped_of_mem_stamps {forest : Forest U C} (h : none ∈ forest.stamps) :
    forest.hasUnstamped = true := by
  induction forest with
  | nil => simp [stamps] at h
  | node id spec status coreFinalize storageDependents unbuilt rest _ _ ih =>
    rcases List.mem_cons.mp h with hstatus | hrest
    · simp [hasUnstamped, ← hstatus]
    · simp [hasUnstamped, ih hrest]

def Forest.stampedIds : Forest U C → List (Ident U)
  | .nil => []
  | .node id _ status coreFinalize _ unbuilt rest =>
    (if status.isSome then [id] else [])
      ++ (coreFinalize.stampedIds ++ (unbuilt.stampedIds ++ rest.stampedIds))

@[simp] theorem stampedIds_serializeFinalize (parent : Ident U) (index : Nat) (deps : Deps C) :
    (serializeFinalize parent index deps).stampedIds = [] := by
  induction deps generalizing parent index with
  | nil => rfl
  | core spec dependents rest ihd ihr => simp [serializeFinalize, Forest.stampedIds, ihd, ihr]
  | storage spec dependents rest ihd ihr => exact ihr parent (index + 1)

@[simp] theorem stampedIds_coreFinalizeOf (job : Ident U) (index : Nat) (deps : Deps C) :
    (coreFinalizeOf job index deps).stampedIds = [] := by
  simp [coreFinalizeOf_eq]

end Finalize

/-! ## Jobs in Redis -/

structure Job (U C : Type) where
  /-- What `get_status` answers. -/
  status : Except RqError JobStatus
  dependencyIds : List (Ident U)
  dependentIds : List (Ident U)
  coreFinalize : Forest U C
  /-- The cancel record of `mark_canceled`. -/
  canceledAt : Bool := false
  /-- The job is on a `core` queue: a leftover of the time when finalize steps were jobs. -/
  coreQueue : Bool := false

inductive Hash (U C : Type) where
  | missing
  /-- A hash left with just a status: it exists, and loading it raises `NoSuchJobError`. -/
  | ghost
  /-- Loading it raises something else. -/
  | unreadable
  | job (job : Job U C)

abbrev Store (U C : Type) := List (Ident U × Hash U C)

section Store

variable {U C : Type} [DecidableEq U]

def Store.get (store : Store U C) (id : Ident U) : Hash U C := (store.lookup id).getD .missing

def Store.fetch (store : Store U C) (id : Ident U) : Option (Job U C) :=
  match store.get id with
  | .job job => some job
  | .missing | .ghost | .unreadable => none

structure Task (store : Store U C) where
  id : Ident U
  job : Job U C
  fetched : store.get id = .job job

variable {store : Store U C}

theorem Task.fetch (task : Task store) : store.fetch task.id = some task.job := by
  simp [Store.fetch, task.fetched]

theorem Store.fetch_eq_some {id : Ident U} {job : Job U C} :
    store.fetch id = some job ↔ store.get id = .job job := by
  cases h : store.get id <;> simp [fetch, h]

/-- `tasks_from_ids`: what is gone or a ghost is skipped, another error is raised. -/
def tasksFromIds (store : Store U C) : List (Ident U) → Except RqError (List (Task store))
  | [] => .ok []
  | id :: ids =>
    match h : store.get id with
    | .missing | .ghost => tasksFromIds store ids
    | .unreadable => .error .other
    | .job job => do
      let tasks ← tasksFromIds store ids
      .ok (⟨id, job, h⟩ :: tasks)

theorem mem_of_mem_tasksFromIds {ids : List (Ident U)} {tasks : List (Task store)}
    (h : tasksFromIds store ids = .ok tasks) {task : Task store} (htask : task ∈ tasks) :
    task.id ∈ ids := by
  induction ids generalizing tasks with
  | nil =>
    cases h
    simp at htask
  | cons id ids ih =>
    unfold tasksFromIds at h
    split at h
    · exact .tail _ (ih h htask)
    · exact .tail _ (ih h htask)
    · cases h
    · obtain ⟨rest, hrest, hcons⟩ := bind_eq_ok.mp h
      cases hcons
      rcases List.mem_cons.mp htask with rfl | htask
      · exact .head _
      · exact .tail _ (ih hrest htask)

end Store

end IsardVDI
