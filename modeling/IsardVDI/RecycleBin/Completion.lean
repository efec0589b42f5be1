import IsardVDI.Lib.Machine
import IsardVDI.RecycleBin.Restore

/-!
# When a purge is complete

`delete_storage` makes one task for each storage of an entry: it creates the job, registers it in
the `tasks` of the entry and enqueues it, then goes on to the next. `update_task_status` is called
for every job that ends. It writes the status of the task and reads the entry in one operation, and
in a second one flips the entry if all tasks that it read are finished.
-/

namespace IsardVDI.RecycleBin.Completion

open List Function Option

inductive Outcome
  | finished
  | failed
  | canceled
  deriving DecidableEq, Repr

/-- The status of a registered task. All but the first are `_PURGE_TASK_TERMINAL_STATUSES`. -/
inductive TaskStatus
  | queued
  | ended (outcome : Outcome)
  deriving DecidableEq, Repr

inductive Job
  | deferred
  | enqueued
  /-- `blocked` when the worker raised `BackingInUseError`. -/
  | ended (outcome : Outcome) (blocked : Bool)
  deriving DecidableEq, Repr

section Model

variable {I S : Type} [DecidableEq I] [DecidableEq S]

structure Task (I S : Type) where
  id : I
  itemId : S
  status : TaskStatus
  blocked : Bool
  deriving DecidableEq, Repr

/-- A storage that is not gone yet, with the id its task will have. -/
structure Plan (I S : Type) where
  storageId : S
  taskId : I
  deriving DecidableEq, Repr

/-- Where the pass is. The last three are about the plans that are left. -/
inductive Pc (I S : Type)
  | setDeleting
  | resetTasks
  | createTask (rest : List (Plan I S))
  | addTask (plan : Plan I S) (rest : List (Plan I S))
  | enqueue (plan : Plan I S) (rest : List (Plan I S))
  deriving DecidableEq, Repr

/-- What a call of `update_task_status` does after its first operation. -/
inductive Flip
  | finish
  | release
  deriving DecidableEq, Repr

structure State (I S : Type) where
  status : Status
  tasks : List (Task I S)
  pc : Pc I S
  jobs : I → Option Job
  flips : List Flip

inductive Event (I : Type)
  | pass
  | work (id : I) (outcome : Outcome) (blocked : Bool)
  | report (id : I)
  | flip (flip : Flip)
  deriving DecidableEq, Repr

/-! ## The operations -/

def Task.merge (id : I) (outcome : Outcome) (blocked : Bool) (task : Task I S) : Task I S :=
  if task.id = id then
    { task with status := .ended outcome, blocked := blocked || task.blocked }
  else task

def judge (status : Status) (tasks : List (Task I S)) : List Flip :=
  let finished := tasks.filter (·.status = .ended .finished)
  (if finished.length < tasks.length ∧ ∀ t ∈ tasks, t.status ≠ .queued then [.release] else [])
    ++ if finished.length = tasks.length ∧ status ≠ .deleted then [.finish] else []

/-- The first operation. Nothing more is done if the entry was not changed by it. -/
def report (s : State I S) (id : I) (outcome : Outcome) (blocked : Bool) : State I S :=
  let tasks := s.tasks.map (Task.merge id outcome blocked)
  if tasks = s.tasks then s
  else { s with tasks := tasks, flips := s.flips ++ judge s.status tasks }

def flip (s : State I S) : Flip → State I S
  | .finish => if s.status = .deleting then { s with status := .deleted } else s
  | .release => if s.status = .deleting then { s with status := .recycled } else s

variable (plans : List (Plan I S)) (s : State I S)

def pass : Option (State I S) :=
  match s.pc with
  | .setDeleting =>
    some { s with status := .deleting, pc := if plans = [] then .createTask [] else .resetTasks }
  | .resetTasks => some { s with tasks := [], pc := .createTask plans }
  | .createTask [] => none
  | .createTask (plan :: rest) =>
    -- a new uuid
    if s.jobs plan.taskId = none then
      some { s with
        jobs := update s.jobs plan.taskId (some .deferred)
        pc := .addTask plan rest }
    else none
  | .addTask plan rest =>
    some { s with
      tasks := s.tasks ++
        [{ id := plan.taskId, itemId := plan.storageId, status := .queued, blocked := false }]
      pc := .enqueue plan rest }
  | .enqueue plan rest =>
    some { s with
      jobs := update s.jobs plan.taskId (some .enqueued)
      pc := .createTask rest }

def machine : Machine (State I S) (Event I) where
  next s
    | .pass => pass plans s
    | .work id outcome blocked =>
      if s.jobs id = some .enqueued then
        some { s with jobs := update s.jobs id (some (.ended outcome blocked)) }
      else none
    | .report id =>
      match s.jobs id with
      | some (.ended outcome blocked) => some (report s id outcome blocked)
      | _ => none
    | .flip f =>
      if f ∈ s.flips then some { flip s f with flips := s.flips.erase f } else none

/-! ## What is registered -/

def Pc.unregistered : Pc I S → List (Plan I S)
  | .setDeleting | .resetTasks => plans
  | .createTask rest | .enqueue _ rest => rest
  | .addTask plan rest => plan :: rest

def Pc.current : Pc I S → Option (Plan I S)
  | .addTask plan _ | .enqueue plan _ => some plan
  | _ => none

/-- If the report of a job finds every registered task finished, all tasks are registered. -/
def LastOf (id : I) : Option Job → Prop
  | some (.ended outcome blocked) =>
    (∀ t ∈ s.tasks.map (Task.merge id outcome blocked), t.status = .ended .finished) →
      s.pc.unregistered plans = []
  | _ => True

/-- A report that finds every registered task finished comes after the last registration. -/
def AfterAll : Event I → Prop
  | .report id => LastOf plans s id (s.jobs id)
  | _ => True

instance (plans : List (Plan I S)) (s : State I S) (id : I) :
    (job : Option Job) → Decidable (LastOf plans s id job)
  | some (.ended _ _) => inferInstanceAs (Decidable (_ → _))
  | none | some .deferred | some .enqueued => isTrue trivial

instance (plans : List (Plan I S)) (s : State I S) : (e : Event I) → Decidable (AfterAll plans s e)
  | .report id => inferInstanceAs (Decidable (LastOf plans s id (s.jobs id)))
  | .pass | .work _ _ _ | .flip _ => isTrue trivial

def Finished (id : I) : Prop :=
  ∃ blocked, s.jobs id = some (.ended .finished blocked)

/-- A planned task is registered or still to be registered; a registered one is finished only if its
job is; and a call about to flip the entry to deleted has seen all of them finished. -/
structure Inv (plans : List (Plan I S)) (s : State I S) : Prop where
  registered : ∀ plan ∈ plans, plan ∈ s.pc.unregistered plans
    ∨ ∃ task ∈ s.tasks, task.id = plan.taskId
  honest : ∀ plan ∈ plans, ∀ task ∈ s.tasks, task.id = plan.taskId →
    task.status = .ended .finished → Finished s plan.taskId
  current : ∀ plan ∈ s.pc.current, s.jobs plan.taskId = some .deferred
  done : .finish ∈ s.flips → ∀ plan ∈ plans, Finished s plan.taskId

variable {plans : List (Plan I S)} {s s' : State I S}

/-! ## One operation -/

theorem Finished.next (h : Inv plans s) {e : Event I} (hnext : (machine plans).next s e = some s')
    {id : I} (hfinished : Finished s id) : Finished s' id := by
  obtain ⟨blocked, hjob⟩ := hfinished
  have hupdate (other : I) (job : Job) (hother : ∀ blocked, s.jobs other
      ≠ some (.ended .finished blocked)) :
      update s.jobs other (some job) id = some (.ended .finished blocked) := by
    have hne : id ≠ other := by
      rintro rfl
      exact hother blocked hjob
    rw [update_of_ne hne, hjob]
  cases e with
  | pass =>
    simp only [machine, pass] at hnext
    split at hnext
    · cases hnext
      exact ⟨blocked, hjob⟩
    · cases hnext
      exact ⟨blocked, hjob⟩
    · cases hnext
    · split_ifs at hnext with hnone
      cases hnext
      exact ⟨blocked, hupdate _ _ (by simp [hnone])⟩
    · cases hnext
      exact ⟨blocked, hjob⟩
    · next plan rest hpc =>
      cases hnext
      exact ⟨blocked, hupdate _ _ (by simp [h.current plan (hpc ▸ rfl)])⟩
  | work other outcome blocked' =>
    simp only [machine, ite_none_right_eq_some, Option.some.injEq] at hnext
    obtain ⟨hother, rfl⟩ := hnext
    exact ⟨blocked, hupdate _ _ (by simp [hother])⟩
  | report other =>
    simp only [machine] at hnext
    split at hnext
    · cases hnext
      unfold report
      dsimp only
      split
      · exact ⟨blocked, hjob⟩
      · exact ⟨blocked, hjob⟩
    · cases hnext
  | flip f =>
    simp only [machine, ite_none_right_eq_some, Option.some.injEq] at hnext
    obtain ⟨-, rfl⟩ := hnext
    refine ⟨blocked, ?_⟩
    cases f <;> (unfold flip; dsimp only; split <;> exact hjob)

omit [DecidableEq I] [DecidableEq S] in
theorem all_finished_of_judge {status : Status} {tasks : List (Task I S)}
    (h : .finish ∈ judge status tasks) : ∀ t ∈ tasks, t.status = .ended .finished := by
  have hlength : (tasks.filter (·.status = .ended .finished)).length = tasks.length := by
    simp only [judge, mem_append] at h
    rcases h with h | h
    · split_ifs at h <;> simp at h
    · split_ifs at h with hall
      · exact hall.1
      · cases h
  intro t ht
  exact of_decide_eq_true (length_filter_eq_length_iff.mp hlength t ht)

omit [DecidableEq I] [DecidableEq S] in
theorem Inv.of_pass (h : Inv plans s) (hfinished : ∀ {id}, Finished s id → Finished s' id)
    (hflips : s'.flips = s.flips) (htasks : ∀ t ∈ s'.tasks, t ∈ s.tasks ∨ t.status = .queued)
    (hregistered : ∀ plan ∈ plans, plan ∈ s'.pc.unregistered plans
      ∨ ∃ task ∈ s'.tasks, task.id = plan.taskId)
    (hcurrent : ∀ plan ∈ s'.pc.current, s'.jobs plan.taskId = some .deferred) :
    Inv plans s' where
  registered := hregistered
  honest := by
    intro plan hplan task htask hid hstatus
    rcases htasks task htask with hold | hqueued
    · exact hfinished (h.honest plan hplan task hold hid hstatus)
    · rw [hqueued] at hstatus
      cases hstatus
  current := hcurrent
  done := fun hfinish plan hplan => hfinished (h.done (hflips ▸ hfinish) plan hplan)

theorem Inv.pass (h : Inv plans s) (hnext : (machine plans).next s .pass = some s') :
    Inv plans s' := by
  have hfinished {id : I} : Finished s id → Finished s' id := Finished.next h hnext
  have hregistered := h.registered
  have hcurrent := h.current
  simp only [machine, Completion.pass] at hnext
  split at hnext
  · -- the tasks of an earlier attempt are still there
    cases hnext
    refine h.of_pass hfinished rfl (fun t ht => .inl ht) (fun plan hplan => .inl ?_) ?_
    · split_ifs with hnone
      · exact hnone ▸ hplan
      · exact hplan
    · split_ifs <;> exact nofun
  · cases hnext
    exact h.of_pass hfinished rfl nofun (fun plan hplan => .inl hplan) nofun
  · cases hnext
  · next plan rest hpc =>
    split_ifs at hnext
    cases hnext
    rw [hpc] at hregistered
    refine h.of_pass hfinished rfl (fun t ht => .inl ht) hregistered fun p hp => ?_
    cases hp
    exact update_self ..
  · next plan rest hpc =>
    cases hnext
    rw [hpc] at hregistered hcurrent
    refine h.of_pass hfinished rfl (fun t ht => ?_) (fun p hp => ?_) hcurrent
    · rcases mem_append.mp ht with ht | ht
      · exact .inl ht
      · exact .inr (mem_singleton.mp ht ▸ rfl)
    · rcases hregistered p hp with hrest | ⟨task, htask, hid⟩
      · rcases mem_cons.mp hrest with rfl | hrest
        · exact .inr ⟨_, mem_append_right _ (.head _), rfl⟩
        · exact .inl hrest
      · exact .inr ⟨task, mem_append_left _ htask, hid⟩
  · next plan rest hpc =>
    cases hnext
    rw [hpc] at hregistered
    exact h.of_pass hfinished rfl (fun t ht => .inl ht) hregistered nofun

theorem Inv.work (h : Inv plans s) {id : I} {outcome : Outcome} {blocked : Bool}
    (hnext : (machine plans).next s (.work id outcome blocked) = some s') : Inv plans s' := by
  have hfinished {id : I} : Finished s id → Finished s' id := Finished.next h hnext
  simp only [machine, ite_none_right_eq_some, Option.some.injEq] at hnext
  obtain ⟨hjob, rfl⟩ := hnext
  refine h.of_pass hfinished rfl (fun t ht => .inl ht) h.registered fun plan hplan => ?_
  -- the current job is not enqueued yet
  have hdeferred := h.current plan hplan
  have hne : plan.taskId ≠ id := by
    rintro rfl
    rw [hjob] at hdeferred
    cases hdeferred
  exact (update_of_ne hne _ _).trans hdeferred

theorem Inv.report (h : Inv plans s) {id : I} (hafter : AfterAll plans s (.report id))
    (hnext : (machine plans).next s (.report id) = some s') : Inv plans s' := by
  simp only [machine] at hnext
  split at hnext
  · next outcome blocked hjob =>
    simp only [AfterAll, LastOf, hjob] at hafter
    cases hnext
    unfold Completion.report
    dsimp only
    split
    · exact h
    · have hid (t : Task I S) : (t.merge id outcome blocked).id = t.id := by
        unfold Task.merge
        split <;> rfl
      have hhonest : ∀ plan ∈ plans, ∀ task ∈ s.tasks.map (Task.merge id outcome blocked),
          task.id = plan.taskId → task.status = .ended .finished → Finished s plan.taskId := by
        intro plan hplan task htask hplanned hstatus
        obtain ⟨t, ht, rfl⟩ := mem_map.mp htask
        rw [hid] at hplanned
        by_cases heq : t.id = id
        · rw [Task.merge, if_pos heq] at hstatus
          cases hstatus
          exact ⟨blocked, hplanned ▸ heq ▸ hjob⟩
        · rw [Task.merge, if_neg heq] at hstatus
          exact h.honest plan hplan t ht hplanned hstatus
      have hregistered : ∀ plan ∈ plans, plan ∈ s.pc.unregistered plans
          ∨ ∃ task ∈ s.tasks.map (Task.merge id outcome blocked), task.id = plan.taskId := by
        intro plan hplan
        refine (h.registered plan hplan).imp_right ?_
        rintro ⟨t, ht, hplanned⟩
        exact ⟨_, mem_map_of_mem ht, (hid t).trans hplanned⟩
      refine
        { registered := hregistered
          honest := hhonest
          current := h.current
          done := fun hfinish plan hplan => ?_ }
      rcases mem_append.mp hfinish with hold | hnew
      · exact h.done hold plan hplan
      · have hall := all_finished_of_judge hnew
        obtain ⟨task, htask, hplanned⟩ : ∃ task ∈ s.tasks.map (Task.merge id outcome blocked),
            task.id = plan.taskId := by
          refine (hregistered plan hplan).resolve_left ?_
          rw [hafter hall]
          exact not_mem_nil
        exact hhonest plan hplan task htask hplanned (hall task htask)
  · cases hnext

omit [DecidableEq I] [DecidableEq S] in
theorem flip_fields (s : State I S) (f : Flip) : (flip s f).tasks = s.tasks
    ∧ (flip s f).pc = s.pc ∧ (flip s f).jobs = s.jobs := by
  cases f <;> (unfold flip; dsimp only; split <;> exact ⟨rfl, rfl, rfl⟩)

theorem Inv.flip (h : Inv plans s) {f : Flip}
    (hnext : (machine plans).next s (.flip f) = some s') : Inv plans s' := by
  simp only [machine, ite_none_right_eq_some, Option.some.injEq] at hnext
  obtain ⟨-, rfl⟩ := hnext
  obtain ⟨htasks, hpc, hjobs⟩ := flip_fields s f
  exact
    { registered := by simpa only [htasks, hpc] using h.registered
      honest := by simpa only [htasks, hjobs, Finished] using h.honest
      current := by simpa only [hpc, hjobs] using h.current
      done := by
        intro hfinish
        simpa only [hjobs, Finished] using h.done (mem_of_mem_erase hfinish) }

/-! ## A run -/

/-- The entry as `delete_storage` finds it: with the tasks of earlier attempts, whose ids are not
those of the new ones, and with no call under way. -/
structure Start (plans : List (Plan I S)) (s : State I S) : Prop where
  pc : s.pc = .setDeleting
  flips : s.flips = []
  fresh : ∀ plan ∈ plans, ∀ task ∈ s.tasks, task.id ≠ plan.taskId

omit [DecidableEq I] [DecidableEq S] in
theorem Start.inv (h : Start plans s) : Inv plans s where
  registered := fun plan hplan => .inl (h.pc ▸ hplan)
  honest := fun plan hplan task htask hid => absurd hid (h.fresh plan hplan task htask)
  current := by
    rw [h.pc]
    exact nofun
  done := by
    rw [h.flips]
    exact nofun

/-- **A purge is complete when it says so.** For every entry, every list of planned tasks and every
interleaving of the pass with workers and reports in which a report that finds the registered tasks
finished comes after the last registration: when a call of `update_task_status` flips the entry from
deleting to deleted, every planned task has finished. -/
theorem flip_complete (plans : List (Plan I S)) (s₀ s s' : State I S) (events : List (Event I))
    (hstart : Start plans s₀) (hrun : (machine plans).run s₀ events = some s)
    (hafter : (machine plans).Meets (AfterAll plans) s₀ events) (f : Flip)
    (hflip : (machine plans).next s (.flip f) = some s') (hfrom : s.status = .deleting)
    (hto : s'.status = .deleted) : ∀ plan ∈ plans, Finished s plan.taskId := by
  have hinv : Inv plans s := by
    refine Machine.run_invariant _ (AfterAll plans) (Inv plans) ?_ hstart.inv hafter hrun
    intro state event next hstate hevent hnext
    cases event with
    | pass => exact hstate.pass hnext
    | work => exact hstate.work hnext
    | report => exact hstate.report hevent hnext
    | flip => exact hstate.flip hnext
  simp only [machine, ite_none_right_eq_some, Option.some.injEq] at hflip
  obtain ⟨hpending, rfl⟩ := hflip
  cases f with
  | finish => exact hinv.done hpending
  | release =>
    -- a release hands the entry back to the bin
    simp only [Completion.flip, if_pos hfrom] at hto
    cases hto

end Model

def twoDisks : List (Plan Nat String) :=
  [{ storageId := "a", taskId := 1 }, { storageId := "b", taskId := 2 }]

def claimed : State Nat String where
  status := .queued
  tasks := []
  pc := .setDeleting
  jobs := fun _ => none
  flips := []

theorem claimed_start : Start twoDisks claimed :=
  { pc := rfl, flips := rfl, fresh := fun _ _ => nofun }

def passFirst : List (Event Nat) :=
  List.replicate 8 .pass ++ [.work 1 .finished false, .work 2 .finished false, .report 1, .report 2]

theorem passFirst_complete :
    ∃ s, (machine twoDisks).run claimed passFirst = some s ∧ Finished s 1 ∧ Finished s 2 := by
  have hall := flip_complete twoDisks claimed _ _ passFirst claimed_start rfl (by decide) .finish
    rfl rfl rfl
  exact ⟨_, rfl, hall _ (.head _), hall _ (.tail _ (.head _))⟩

/-- The task of the first disk ends before that of the second is created: the entry is deleted, and
nothing has been done about the second disk. -/
theorem flipped_early :
    ((machine twoDisks).run claimed (List.replicate 5 .pass
        ++ [.work 1 .finished false, .report 1, .flip .finish])).map
        (fun s => (s.status, s.pc.unregistered twoDisks, s.jobs 2))
      = some (.deleted, [{ storageId := "b", taskId := 2 }], none) := by
  decide

end IsardVDI.RecycleBin.Completion
