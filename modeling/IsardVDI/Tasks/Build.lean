import IsardVDI.Tasks.Chain

/-!
# `models/task.py` — building a task

`Task.__init__` of a new task is a sequence of Redis commands: the job is saved, every storage
dependent is built in the same way and deferred, the metadata is saved, and the job is pushed on
its queue. A process can die between two of them, and a command can fail with or without having
had its effect.
-/

namespace IsardVDI

open List

structure Rq (U C : Type) where
  store : Store U C
  pushed : List (Ident U)

inductive BuildCommand (U C : Type) where
  | save (id : Ident U) (job : Job U C)
  | saveMeta (id : Ident U) (dependentIds : List (Ident U)) (coreFinalize : Forest U C)
  /-- `enqueue_job` of a job that waits on a dependency. -/
  | defer (id : Ident U)
  /-- `Job.save` of a job as it stands. -/
  | saveAgain (id : Ident U)
  /-- `enqueue_job` of a job that does not. -/
  | push (id : Ident U)
  /-- `index_task`. -/
  | index (id : Ident U)

section Build

open BuildCommand

variable {U C : Type} [DecidableEq U]

def Hash.isMissing : Hash U C → Bool
  | .missing => true
  | .ghost | .unreadable | .job _ => false

variable (store : Store U C) (id : Ident U)

def Store.exists : Bool := !(store.get id).isMissing

def Store.set (hash : Hash U C) : Store U C :=
  (id, hash) :: store

def Store.update (f : Job U C → Job U C) : Store U C :=
  match store.get id with
  | .job job => store.set id (.job (f job))
  | .missing | .ghost | .unreadable => store

def BuildCommand.exec (rq : Rq U C) : BuildCommand U C → Rq U C
  | .save id job => { rq with store := rq.store.set id (.job job) }
  | .saveMeta id dependentIds coreFinalize =>
    { rq with store := rq.store.update id fun job =>
        { job with dependentIds := dependentIds, coreFinalize := coreFinalize } }
  | .defer id =>
    { rq with store := rq.store.update id fun job => { job with status := .ok .deferred } }
  | .push id =>
    { store := rq.store.update id fun job => { job with status := .ok .queued }
      pushed := id :: rq.pushed }
  | .saveAgain _ | .index _ => rq

/-! ## The commands -/

def Forest.knotChildIds : Forest U C → List (Ident U)
  | .nil => []
  | .node id _ _ coreFinalize storageDependents _ rest =>
    (List.range storageDependents.length).map id.knotChildId ++ coreFinalize.knotChildIds
      ++ rest.knotChildIds

/-- `meta["dependent_ids"]`: the storage dependents, and the knot children of each `core` one. -/
def dependentIdsOf (job : Ident U) (coreIndex storageIndex : Nat) : Deps C → List (Ident U)
  | .nil => []
  | .core spec dependents rest =>
    (serializeFinalize job coreIndex (.core spec dependents .nil)).knotChildIds
      ++ dependentIdsOf job (coreIndex + 1) storageIndex rest
  | .storage _ _ rest =>
    job.dependent storageIndex :: dependentIdsOf job coreIndex (storageIndex + 1) rest

variable (dependencyIds : List (Ident U))

def newJob : Job U C where
  status := .ok .created
  dependencyIds := dependencyIds
  dependentIds := []
  coreFinalize := .nil

def buildDependents (job : Ident U) (index : Nat) : Deps C → List (BuildCommand U C)
  | .nil => []
  | .core _ _ rest => buildDependents job index rest
  | .storage _ dependents rest =>
    .save (job.dependent index) (newJob [job])
      :: (buildDependents (job.dependent index) 0 dependents
        ++ [.saveMeta (job.dependent index) (dependentIdsOf (job.dependent index) 0 0 dependents)
              (coreFinalizeOf (job.dependent index) 0 dependents),
            .defer (job.dependent index), .saveAgain (job.dependent index)]
        ++ buildDependents job (index + 1) rest)

/-- `Task.__init__` of a task that nothing has to finish before, up to the enqueue. -/
def buildRecord (dependents : Deps C) : List (BuildCommand U C) :=
  .save id (newJob dependencyIds)
    :: (buildDependents id 0 dependents
      ++ [.saveMeta id (dependentIdsOf id 0 0 dependents) (coreFinalizeOf id 0 dependents)])

def buildTask (dependents : Deps C) : List (BuildCommand U C) :=
  buildRecord id dependencyIds dependents ++ [.push id, .index id]

/-! ## Faults -/

structure Fault where
  command : Nat
  /-- The command had its effect, and its answer was lost. -/
  taken : Bool
  /-- The process dies. Otherwise the command raises. -/
  crash : Bool

def Fault.effects (fault : Fault) : Nat := if fault.taken then fault.command + 1 else fault.command

inductive BuildEnd where
  | done
  | raised
  | died
  deriving DecidableEq

variable (commands : List (BuildCommand U C))

def performed : Option Fault → List (BuildCommand U C)
  | none => commands
  | some fault => commands.take fault.effects

def buildEnd : Option Fault → BuildEnd
  | none => .done
  | some fault =>
    if fault.command < commands.length then if fault.crash then .died else .raised else .done

def runBuild (fault : Option Fault) (rq : Rq U C) : BuildEnd × Rq U C :=
  (buildEnd commands fault, (performed commands fault).foldl exec rq)

/-- The fault does not fall between the first save and the push, which is the last command but
one. -/
def Fault.Harmless (fault : Fault) (commands : List (BuildCommand U C)) : Prop :=
  fault.effects = 0 ∨ commands.length ≤ fault.effects + 1

/-! ## What a command touches -/

variable {rq : Rq U C} {store : Store U C} {id : Ident U}

@[simp] theorem Store.get_set_self (hash : Hash U C) : (store.set id hash).get id = hash := by
  simp [Store.set, Store.get]

variable {id' job : Ident U} {command : BuildCommand U C} {commands : List (BuildCommand U C)}
  {fault : Option Fault}

theorem Store.get_set_of_ne (h : id' ≠ id) (hash : Hash U C) :
    (store.set id hash).get id' = store.get id' := by
  have hbeq : (id' == id) = false := beq_eq_false_iff_ne.mpr h
  simp [Store.set, Store.get, lookup_cons, hbeq]

theorem Store.get_update_of_ne (h : id' ≠ id) (f : Job U C → Job U C) :
    (store.update id f).get id' = store.get id' := by
  unfold Store.update
  cases store.get id with
  | job job => exact Store.get_set_of_ne h _
  | missing | ghost | unreadable => rfl

variable (f : Job U C → Job U C)

theorem Store.get_update_self :
    (store.update id f).get id = match store.get id with
      | .job job => .job (f job)
      | hash => hash := by
  unfold Store.update
  cases h : store.get id <;> simp [h]

@[simp] theorem Store.exists_update (id' : Ident U) :
    (store.update id f).exists id' = store.exists id' := by
  by_cases h : id' = id
  · subst h
    unfold Store.exists
    rw [Store.get_update_self]
    cases store.get id' <;> rfl
  · simp [Store.exists, Store.get_update_of_ne h]

theorem Store.exists_set_self (job : Job U C) : (store.set id (.job job)).exists id = true := by
  simp [Store.exists, Hash.isMissing]

theorem Store.exists_set_of_ne (h : id' ≠ id) (hash : Hash U C) :
    (store.set id hash).exists id' = store.exists id' := by
  simp [Store.exists, Store.get_set_of_ne h]

def BuildCommand.target : BuildCommand U C → Ident U
  | .save id _ | .saveMeta id _ _ | .defer id | .saveAgain id | .push id | .index id => id

def BuildCommand.isPush : BuildCommand U C → Bool
  | .push _ => true
  | .save _ _ | .saveMeta _ _ _ | .defer _ | .saveAgain _ | .index _ => false

theorem BuildCommand.exec_exists_of_ne (h : id ≠ command.target) :
    (command.exec rq).store.exists id = rq.store.exists id := by
  cases command <;> simp only [exec, Store.exists_update]
  exact Store.exists_set_of_ne h _

theorem BuildCommand.exec_exists (h : rq.store.exists id = true) :
    (command.exec rq).store.exists id = true := by
  cases command <;> simp only [exec, Store.exists_update, h]
  rename_i id' job
  by_cases hid : id = id'
  · exact hid ▸ Store.exists_set_self job
  · rw [Store.exists_set_of_ne hid, h]

theorem BuildCommand.exec_pushed (h : command.isPush = false) :
    (command.exec rq).pushed = rq.pushed := by
  cases command <;> first | rfl | cases h

theorem foldl_exec_exists (h : rq.store.exists id = true) :
    (commands.foldl exec rq).store.exists id = true :=
  foldlRecOn (motive := fun rq : Rq U C => rq.store.exists id = true) commands _ h
    fun _ hrq _ _ => exec_exists hrq

theorem foldl_exec_exists_of_ne (h : ∀ command ∈ commands, id ≠ command.target) :
    (commands.foldl exec rq).store.exists id = rq.store.exists id :=
  foldlRecOn (motive := fun r : Rq U C => r.store.exists id = _) commands _ rfl
    fun _ hrq command hcommand => (exec_exists_of_ne (h command hcommand)).trans hrq

theorem foldl_exec_pushed (h : ∀ command ∈ commands, command.isPush = false) :
    (commands.foldl exec rq).pushed = rq.pushed :=
  foldlRecOn (motive := fun r : Rq U C => r.pushed = _) commands _ rfl
    fun _ hrq command hcommand => (exec_pushed (h command hcommand)).trans hrq

def BuildCommand.Unstamped : BuildCommand U C → Prop
  | .save _ job => job.coreFinalize.stampedIds = []
  | .saveMeta _ _ coreFinalize => coreFinalize.stampedIds = []
  | .defer _ | .saveAgain _ | .push _ | .index _ => True

variable {deps : Deps C}

omit [DecidableEq U] in
theorem mem_buildDependents {index : Nat} (h : command ∈ buildDependents job index deps) :
    command.isPush = false ∧ command.Unstamped
      ∧ ∃ (job' : Ident U) (index' : Nat), command.target = job'.dependent index' := by
  induction deps generalizing job index with
  | nil => simp [buildDependents] at h
  | core spec dependents rest _ ihr => exact ihr h
  | storage spec dependents rest ihd ihr =>
    simp only [buildDependents, mem_cons, mem_append, not_mem_nil, or_false, or_assoc] at h
    rcases h with rfl | h | rfl | rfl | rfl | h
    · exact ⟨rfl, rfl, job, index, rfl⟩
    · exact ihd h
    · exact ⟨rfl, stampedIds_coreFinalizeOf _ _ _, job, index, rfl⟩
    · exact ⟨rfl, trivial, job, index, rfl⟩
    · exact ⟨rfl, trivial, job, index, rfl⟩
    · exact ihr h

omit [DecidableEq U] in
theorem Ident.knotChildId_ne_dependent (step job : Ident U) (index index' : Nat) :
    step.knotChildId index ≠ job.dependent index' := by
  intro h
  simpa using (Ident.append_inj.mp h).2

/-! ## What a build leaves -/

variable {dependencyIds : List (Ident U)} {dependents : Deps C}

omit [DecidableEq U] in
theorem mem_buildRecord (h : command ∈ buildRecord id dependencyIds dependents) :
    command.isPush = false ∧ command.Unstamped ∧ (command.target = id
      ∨ ∃ (job' : Ident U) (index' : Nat), command.target = job'.dependent index') := by
  simp only [buildRecord, mem_cons, mem_append, not_mem_nil, or_false] at h
  rcases h with rfl | h | rfl
  · exact ⟨rfl, rfl, .inl rfl⟩
  · exact (mem_buildDependents h).imp_right (And.imp_right .inr)
  · exact ⟨rfl, stampedIds_coreFinalizeOf _ _ _, .inl rfl⟩

omit [DecidableEq U] in
theorem mem_buildTask (h : command ∈ buildTask id dependencyIds dependents) :
    command.Unstamped ∧ (command.target = id
      ∨ ∃ (job' : Ident U) (index' : Nat), command.target = job'.dependent index') := by
  simp only [buildTask, mem_cons, mem_append, not_mem_nil, or_false] at h
  rcases h with h | rfl | rfl
  · exact (mem_buildRecord h).2
  · exact ⟨trivial, .inl rfl⟩
  · exact ⟨trivial, .inl rfl⟩

omit [DecidableEq U] in
theorem mem_of_mem_performed (h : command ∈ performed commands fault) : command ∈ commands := by
  cases fault with
  | none => exact h
  | some fault => exact mem_of_mem_take h

variable (id dependencyIds dependents) (rq)

/-- The job is there, and was pushed once more. -/
structure Rq.Queued (before after : Rq U C) (id : Ident U) : Prop where
  exists_eq : after.store.exists id = true
  pushed_eq : after.pushed = id :: before.pushed

theorem queued_buildRecord :
    rq.Queued ((push id).exec ((buildRecord id dependencyIds dependents).foldl exec rq)) id := by
  have hexists : ((buildRecord id dependencyIds dependents).foldl exec rq).store.exists id
      = true := by
    rw [buildRecord, foldl_cons]
    exact foldl_exec_exists (Store.exists_set_self _)
  have hpushed : ((buildRecord id dependencyIds dependents).foldl exec rq).pushed = rq.pushed :=
    foldl_exec_pushed fun _ h => (mem_buildRecord h).1
  exact ⟨exec_exists hexists, congrArg (id :: ·) hpushed⟩

/-- A build that is cut short stops between the first save and the push, or has done nothing, or
has pushed its job. -/
theorem foldl_exec_take_cases (k : Nat) :
    (0 < k ∧ k + 1 < (buildTask id dependencyIds dependents).length)
      ∨ (k = 0 ∧ ((buildTask id dependencyIds dependents).take k).foldl exec rq = rq)
      ∨ rq.Queued (((buildTask id dependencyIds dependents).take k).foldl exec rq) id := by
  rcases Nat.eq_zero_or_pos k with rfl | hk
  · exact .inr (.inl ⟨rfl, rfl⟩)
  by_cases hrecord : k ≤ (buildRecord id dependencyIds dependents).length
  · refine .inl ⟨hk, ?_⟩
    simp only [buildTask, length_append, length_cons, length_nil]
    omega
  · obtain ⟨m, rfl⟩ : ∃ m, k = (buildRecord id dependencyIds dependents).length + (m + 1) :=
      ⟨k - (buildRecord id dependencyIds dependents).length - 1, by omega⟩
    have hqueued := queued_buildRecord rq id dependencyIds dependents
    rw [buildTask, take_length_add_append, foldl_append]
    -- the index that may follow the push changes neither the jobs nor the queues
    cases m with
    | zero => exact .inr (.inr hqueued)
    | succ m => exact .inr (.inr (by simpa [exec] using hqueued))

variable {id dependencyIds dependents} {rq}

theorem runBuild_done (h : (runBuild (buildTask id dependencyIds dependents) fault rq).1 = .done) :
    rq.Queued (runBuild (buildTask id dependencyIds dependents) fault rq).2 id := by
  have hall : (performed (buildTask id dependencyIds dependents) fault)
      = (buildTask id dependencyIds dependents).take
        (buildTask id dependencyIds dependents).length := by
    rw [take_length]
    cases fault with
    | none => rfl
    | some fault =>
      -- an end of `done` says that the fault is past the end
      have hpast : (buildTask id dependencyIds dependents).length ≤ fault.command := by
        by_contra hlt
        cases hcrash : fault.crash <;> simp [runBuild, buildEnd, hlt, hcrash] at h
      refine take_of_length_le (hpast.trans ?_)
      unfold Fault.effects
      split <;> omega
  rw [runBuild, hall]
  rcases foldl_exec_take_cases rq id dependencyIds dependents
    (buildTask id dependencyIds dependents).length with ⟨-, hlt⟩ | ⟨hzero, -⟩ | hqueued
  · omega
  · simp [buildTask] at hzero
  · exact hqueued

/-- **A harmless fault.** Nothing has happened, or the job is there and pushed. -/
theorem runBuild_settled
    (h : ∀ f, fault = some f → f.Harmless (buildTask id dependencyIds dependents)) :
    (runBuild (buildTask id dependencyIds dependents) fault rq).2 = rq
      ∨ rq.Queued (runBuild (buildTask id dependencyIds dependents) fault rq).2 id := by
  cases fault with
  | none => exact .inr (runBuild_done rfl)
  | some fault =>
    rcases foldl_exec_take_cases rq id dependencyIds dependents fault.effects with
      ⟨hpos, hlt⟩ | ⟨-, heq⟩ | hqueued
    · rcases h fault rfl with hzero | hlast <;> omega
    · exact .inl heq
    · exact .inr hqueued

/-! ## Knot children -/

/-- The knot child is missing and was never pushed, or is there and was pushed once. -/
def Rq.Settled (rq : Rq U C) (id : Ident U) : Prop :=
  (rq.store.exists id = false ∧ rq.pushed.count id = 0)
    ∨ (rq.store.exists id = true ∧ rq.pushed.count id = 1)

section Knots

variable {step step' : Ident U} {index index' : Nat}

theorem Rq.Settled.build (h : rq.Settled (step'.knotChildId index'))
    (hmissing : rq.store.exists (step.knotChildId index) = false) (hfault : ∀ f, fault = some f →
      f.Harmless (buildTask (step.knotChildId index) dependencyIds dependents)) :
    (runBuild (buildTask (step.knotChildId index) dependencyIds dependents) fault rq).2.Settled
      (step'.knotChildId index') := by
  rcases runBuild_settled hfault with heq | hqueued
  · rwa [heq]
  by_cases hid : step'.knotChildId index' = step.knotChildId index
  · rw [hid] at h ⊢
    have hnone : rq.pushed.count (step.knotChildId index) = 0 := by
      rcases h with h | h
      · exact h.2
      · simp [hmissing] at h
    refine .inr ⟨hqueued.exists_eq, ?_⟩
    rw [hqueued.pushed_eq, count_cons_self, hnone]
  · have hother : (runBuild (buildTask (step.knotChildId index) dependencyIds dependents) fault
        rq).2.store.exists (step'.knotChildId index')
        = rq.store.exists (step'.knotChildId index') := by
      refine foldl_exec_exists_of_ne fun command hcommand => ?_
      rcases (mem_buildTask (mem_of_mem_performed hcommand)).2 with htarget | ⟨job, i, htarget⟩
      · rwa [htarget]
      · rw [htarget]
        exact Ident.knotChildId_ne_dependent _ _ _ _
    unfold Rq.Settled
    rwa [hother, hqueued.pushed_eq, count_cons_of_ne (Ne.symm hid)]

end Knots

/-! ## Marks -/

/-- Every step that carries a mark satisfies `P`. -/
def Store.StampsIn (store : Store U C) (P : Ident U → Prop) : Prop :=
  ∀ id job, store.get id = .job job → ∀ x ∈ job.coreFinalize.stampedIds, P x

variable {P : Ident U → Prop}

theorem Store.StampsIn.mono {Q : Ident U → Prop} (h : store.StampsIn P) (hPQ : ∀ x, P x → Q x) :
    store.StampsIn Q :=
  fun id job hjob x hx => hPQ x (h id job hjob x hx)

theorem Store.StampsIn.set {hash : Hash U C} (h : store.StampsIn P)
    (hnew : ∀ job, hash = .job job → ∀ x ∈ job.coreFinalize.stampedIds, P x) :
    (store.set id hash).StampsIn P := by
  intro id' job hjob
  by_cases hid : id' = id
  · subst hid
    rw [Store.get_set_self] at hjob
    exact hnew job hjob
  · rw [Store.get_set_of_ne hid] at hjob
    exact h id' job hjob

theorem Store.StampsIn.update {f : Job U C → Job U C} (h : store.StampsIn P)
    (hf : ∀ job, store.get id = .job job → ∀ x ∈ (f job).coreFinalize.stampedIds, P x) :
    (store.update id f).StampsIn P := by
  unfold Store.update
  cases hget : store.get id with
  | missing | ghost | unreadable => exact h
  | job job =>
    refine h.set fun job' heq => ?_
    cases heq
    exact hf job hget

theorem BuildCommand.exec_stampsIn (h : rq.store.StampsIn P) (hcommand : command.Unstamped) :
    (command.exec rq).store.StampsIn P := by
  cases command with
  | save id job =>
    refine h.set fun job' heq => ?_
    cases heq
    simp [show job.coreFinalize.stampedIds = [] from hcommand]
  | saveMeta id dependentIds coreFinalize =>
    refine h.update fun job _ => ?_
    simp [show coreFinalize.stampedIds = [] from hcommand]
  | defer id | push id => exact h.update fun job hjob => h id job hjob
  | saveAgain id | index id => exact h

theorem runBuild_stampsIn (fault : Option Fault) (h : rq.store.StampsIn P) :
    (runBuild (buildTask id dependencyIds dependents) fault rq).2.store.StampsIn P :=
  foldlRecOn (motive := fun r : Rq U C => r.store.StampsIn P) _ _ h fun _ hrq _ hcommand =>
    exec_stampsIn hrq (mem_buildTask (mem_of_mem_performed hcommand)).1

end Build

end IsardVDI
