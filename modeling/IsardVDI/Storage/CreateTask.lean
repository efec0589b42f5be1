import IsardVDI.Lib.Machine
import IsardVDI.Tasks.Build
import IsardVDI.Tasks.ChainPending

/-!
# `models/storage.py` — `Storage.create_task` and the task index

A blocking call is refused while the row is busy. What the row is busy with is read from an index
of the tasks each row has had, newest first, and only one of them is asked: the newest whose job
still exists. It is asked for `pending`, which looks one level around it, and not for
`chain_pending`.

* `Orderly` — a run in which a second task is only added to a row that has nothing left to do, and
  every chain is shallow.
* **`busy_row_admits`** — without the two conditions it is not.
-/

namespace IsardVDI.Storage.Admission

open List Function

/-! ## The index -/

structure IndexEntry (U : Type) where
  id : Ident U
  /-- When the job entered the system. -/
  score : Nat

/-- What the server decides: the order of ids with one score, and how many entries a set keeps. -/
structure IndexConfig (U : Type) where
  lexLt : Ident U → Ident U → Bool
  cap : Nat
  cap_pos : 0 < cap

section Index

variable {U C O : Type} [DecidableEq U] [DecidableEq O]

variable (config : IndexConfig U)

/-- `a` comes before `b` in `ZREVRANGE`. -/
def IndexConfig.newer (a b : IndexEntry U) : Bool :=
  b.score < a.score || (a.score = b.score && config.lexLt b.id a.id)

def IndexConfig.insert (config : IndexConfig U) (entry : IndexEntry U) :
    List (IndexEntry U) → List (IndexEntry U)
  | [] => [entry]
  | first :: entries =>
    if config.newer entry first then entry :: first :: entries
    else first :: config.insert entry entries

/-- `ZADD`, then `ZREMRANGEBYRANK`: the set keeps the newest entries. -/
def IndexConfig.add (entries : List (IndexEntry U)) (entry : IndexEntry U) : List (IndexEntry U) :=
  (config.insert entry (entries.filter (·.id ≠ entry.id))).take config.cap

structure Indexed (U C O : Type) where
  store : Store U C
  index : O → List (IndexEntry U)

def indexTask (index : O → List (IndexEntry U)) (owners : List O)
    (entry : IndexEntry U) : O → List (IndexEntry U) :=
  owners.foldl (fun index owner =>
    update index owner (config.add (index owner) entry)) index

def currentTaskId (store : Store U C) (entries : List (IndexEntry U)) : Option (Ident U) :=
  (entries.map (·.id)).find? store.exists

/-! ## `create_task` -/

def loadTask (store : Store U C) (id : Ident U) : Except RqError (Task store) :=
  match h : store.get id with
  | .job job => .ok ⟨id, job, h⟩
  | .missing | .ghost => .error .noSuchJob
  | .unreadable => .error .other

structure Call (U C O : Type) where
  self : O
  blocking : Bool
  owners : List O
  /-- `enforce_shed` refuses the lane. -/
  shed : Bool
  id : Ident U
  dependents : Deps C
  score : Nat
  /-- The write of the index reached the server. -/
  indexed : Bool

inductive CreateError (U O : Type) where
  | shed
  /-- `precondition_required` with the code `storage_pending_task`. -/
  | storagePendingTask (row : O) (task : Ident U)
  | rq (error : RqError)

variable (s : Indexed U C O)

def pendingTask (row : O) : Except RqError (Option (Ident U)) :=
  match currentTaskId s.store (s.index row) with
  | none => .ok none
  | some id => do
    let task ← loadTask s.store id
    if ← task.pending then return some id
    return none

variable (call : Call U C O)

/-- The jobs after `Task.__init__`. -/
def Call.built (store : Store U C) : Store U C :=
  ((buildTask call.id [] call.dependents).foldl BuildCommand.exec ⟨store, []⟩).store

def Call.admission (s : Indexed U C O) : Indexed U C O where
  store := call.built s.store
  index :=
    if call.indexed then indexTask config s.index call.owners ⟨call.id, call.score⟩ else s.index

def createTask : Except (CreateError U O) (Indexed U C O) :=
  if call.shed then .error .shed
  else if call.blocking then
    match pendingTask s call.self with
    | .error error => .error (.rq error)
    | .ok (some id) => .error (.storagePendingTask call.self id)
    | .ok none => .ok (call.admission config s)
  else .ok (call.admission config s)

inductive Action (U C O : Type) where
  | create (call : Call U C O)
  /-- Workers, the change handler and expiry: whatever the jobs are then. -/
  | progress (store : Store U C)

def next : Action U C O → Option (Indexed U C O)
  | .create call =>
    match createTask config s call with
    | .ok s' => some s'
    | .error _ => some s
  | .progress store => some { s with store }

def taskMachine : Machine (Indexed U C O) (Action U C O) := ⟨next config⟩

end Index

/-! ## Shallow chains

A chain in which everything is next to the task `pending` is asked of, in the words `pending`
reads: statuses that load, one dependency at most, finalize steps on the task only and none below
them. -/

section Shallow

variable {U C : Type} [DecidableEq U] {store : Store U C}

/-- A finalize tree of one level. -/
def Flat : Forest U C → Prop
  | .nil => True
  | .node _ _ _ coreFinalize _ unbuilt rest => coreFinalize = .nil ∧ unbuilt = .nil ∧ Flat rest

/-- A job whose status, and the jobs it names, can be read. -/
structure Readable (store : Store U C) (job : Job U C) : Prop where
  status : ∃ status, job.status = .ok status ∧ status ≠ .created
  loads : ∀ id, id ∈ job.dependencyIds ∨ id ∈ job.dependentIds → store.get id ≠ .unreadable

structure Shallow (task : Task store) : Prop where
  near : ∀ id, Worklist.Reaches store.links task.id id →
    id = task.id ∨ id ∈ task.job.dependencyIds ∨ id ∈ task.job.dependentIds
  readable : ∀ member : Task store, Worklist.Reaches store.links task.id member.id →
    Readable store member.job
  single : ∀ member : Task store, Worklist.Reaches store.links task.id member.id →
    member.job.dependencyIds.length ≤ 1
  flat : Flat task.job.coreFinalize
  finalize : ∀ member : Task store, Worklist.Reaches store.links task.id member.id →
    member.id ≠ task.id → member.job.coreFinalize = .nil

omit [DecidableEq U] in
theorem mem_stamps_of_flat {forest : Forest U C} (hflat : Flat forest)
    (h : forest.hasUnstamped = true) : none ∈ forest.stamps := by
  induction forest with
  | nil => cases h
  | node id spec status coreFinalize storageDependents unbuilt rest _ _ ih =>
    obtain ⟨rfl, rfl, hrest⟩ := hflat
    simp only [Forest.hasUnstamped, Bool.or_eq_true, Bool.or_false] at h
    rcases h with hstatus | hrest'
    · have hnone : status = none := by simpa using hstatus
      exact hnone ▸ (.head _)
    · exact .tail _ (ih hrest hrest')

theorem anyPending_of_mem {members : List (Except RqError Bool)}
    (hok : ∀ member ∈ members, ∃ counts, member = .ok counts) (h : .ok true ∈ members) :
    anyPending members = .ok true := by
  induction members with
  | nil => cases h
  | cons member members ih =>
    obtain ⟨counts, rfl⟩ := hok member (.head _)
    cases counts with
    | true => rfl
    | false =>
      have hrest : .ok true ∈ members := by simpa using h
      exact ih (fun m hm => hok m (.tail _ hm)) hrest

variable {reads : List (Except RqError JobStatus)}

theorem anyHasStatus_ok (status : JobStatus) (hok : ∀ read ∈ reads, ∃ st, read = .ok st) :
    ∃ found, anyHasStatus status reads = .ok found := by
  induction reads with
  | nil => exact ⟨false, rfl⟩
  | cons read reads ih =>
    obtain ⟨st, rfl⟩ := hok read (.head _)
    by_cases hst : st = status
    · exact ⟨true, by simp [anyHasStatus, hst, bind, Except.bind, pure, Except.pure]⟩
    · obtain ⟨found, hfound⟩ := ih fun r hr => hok r (.tail _ hr)
      exact ⟨found, by simpa [anyHasStatus, hst, bind, Except.bind] using hfound⟩

theorem globalStatus_ok (hok : ∀ read ∈ reads, ∃ st, read = .ok st) :
    ∃ status, globalStatus reads = .ok status := by
  unfold globalStatus
  generalize statusPriority = priority
  induction priority with
  | nil => exact ⟨none, rfl⟩
  | cons p rest ih =>
    obtain ⟨found, hfound⟩ := anyHasStatus_ok p hok
    cases found with
    | true => exact ⟨some p, by simp [firstStatus, hfound, bind, Except.bind, pure, Except.pure]⟩
    | false =>
      obtain ⟨status, hstatus⟩ := ih
      exact ⟨status, by simpa [firstStatus, hfound, bind, Except.bind] using hstatus⟩

variable {status : JobStatus} {task member : Task store}

theorem globalStatus_singleton (h : status ≠ .created) :
    globalStatus [.ok status] = .ok (some status) := by
  cases status <;> first | rfl | exact absurd rfl h

theorem task_eq {a b : Task store} (h : a.id = b.id) : a = b := by
  obtain ⟨id, job, hjob⟩ := a
  obtain ⟨id', job', hjob'⟩ := b
  obtain rfl : id = id' := h
  rw [hjob] at hjob'
  obtain rfl := Hash.job.inj hjob'
  rfl

theorem tasksFromIds_ok {ids : List (Ident U)} (h : ∀ id ∈ ids, store.get id ≠ .unreadable) :
    ∃ tasks, tasksFromIds store ids = .ok tasks
      ∧ ∀ member : Task store, member.id ∈ ids → member ∈ tasks := by
  induction ids with
  | nil => exact ⟨[], rfl, nofun⟩
  | cons id ids ih =>
    obtain ⟨tasks, htasks, hall⟩ := ih fun i hi => h i (.tail _ hi)
    unfold tasksFromIds
    split
    case h_1 hget | h_2 hget =>
      refine ⟨tasks, htasks, fun member hmem => hall member ((mem_cons.mp hmem).resolve_left ?_)⟩
      rintro rfl
      cases hget.symm.trans member.fetched
    case h_3 hget => exact absurd hget (h id (.head _))
    case h_4 job hget =>
      refine ⟨⟨id, job, hget⟩ :: tasks, by simp [htasks, bind, Except.bind], fun member hmem => ?_⟩
      rcases mem_cons.mp hmem with heq | hmem
      · rw [task_eq (show member.id = (⟨id, job, hget⟩ : Task store).id from heq)]
        exact .head _
      · exact .tail _ (hall member hmem)

theorem countsAsPending_ok (status : JobStatus) (depending : Option JobStatus) :
    ∃ counts, countsAsPending (.ok status) (.ok depending) = .ok counts := by
  cases status <;> cases depending <;> exact ⟨_, rfl⟩

section

variable (h : Shallow task) (hreach : Worklist.Reaches store.links task.id member.id)

include h hreach

theorem dependingStatus_ok : ∃ depending, member.dependingStatus = .ok depending := by
  obtain ⟨dependencies, hdependencies, -⟩ := tasksFromIds_ok fun id hid =>
    (h.readable member hreach).loads id (.inl hid)
  have hreads : ∀ read ∈ dependencies.map (·.job.status), ∃ status, read = .ok status := by
    intro read hread
    obtain ⟨dependency, hmem, rfl⟩ := mem_map.mp hread
    have hlink := Task.dependency_links (mem_of_mem_tasksFromIds hdependencies hmem)
    obtain ⟨status, hstatus, -⟩ := (h.readable dependency (hreach.tail hlink)).status
    exact ⟨status, hstatus⟩
  obtain ⟨depending, hdepending⟩ := globalStatus_ok hreads
  exact ⟨depending, bind_eq_ok.mpr ⟨dependencies, hdependencies, hdepending⟩⟩

theorem memberPending_ok : ∃ counts, member.memberPending = .ok counts := by
  obtain ⟨status, hstatus, -⟩ := (h.readable member hreach).status
  obtain ⟨depending, hdepending⟩ := dependingStatus_ok h hreach
  rw [Task.memberPending, hstatus, hdepending]
  exact countsAsPending_ok status depending

omit h hreach in
theorem stepPending_none (hstatus : task.job.status = .ok status) (hcreated : status ≠ .created) :
    task.stepPending none = .ok true := by
  rw [Task.stepPending, hstatus, globalStatus_singleton hcreated]
  cases status <;> first | rfl | exact absurd rfl hcreated

omit h hreach in
theorem stepPending_ok (hstatus : task.job.status = .ok status) (hcreated : status ≠ .created)
    (stamp : Option Stamp) : ∃ counts, task.stepPending stamp = .ok counts := by
  cases stamp with
  | none => exact ⟨true, stepPending_none hstatus hcreated⟩
  | some stamp =>
    rw [Task.stepPending, hstatus, globalStatus_singleton hcreated]
    cases stamp <;> exact countsAsPending_ok _ _

theorem memberPending_of_chain {closure : List (Ident U)}
    (hcounts : chainMemberPending store closure member.id = true)
    (hstamped : member.job.coreFinalize.hasUnstamped = false) :
    member.memberPending = .ok true := by
  obtain ⟨status, hstatus, -⟩ := (h.readable member hreach).status
  simp only [chainMemberPending, member.fetch, hstamped, hstatus, Bool.false_or, Bool.or_eq_true,
    Bool.and_eq_true, decide_eq_true_eq, any_eq_true] at hcounts
  rcases hcounts with hactive | ⟨rfl, dependency, hmem, hwaits⟩
  · obtain ⟨depending, hdepending⟩ := dependingStatus_ok h hreach
    rw [Task.memberPending, hstatus, hdepending]
    simp [countsAsPending, hactive, bind, Except.bind, pure, Except.pure]
  · -- the only dependency of a deferred member, and it is not settled
    have honly : member.job.dependencyIds = [dependency] := by
      have hlength := h.single member hreach
      cases hids : member.job.dependencyIds with
      | nil => simp [hids] at hmem
      | cons first rest =>
        rw [hids] at hlength hmem
        obtain rfl : rest = [] := by simpa using hlength
        rw [mem_singleton.mp hmem]
    unfold waitsOn at hwaits
    split at hwaits
    · rename_i job hfetch
      simp only [Bool.and_eq_true, decide_eq_true_eq] at hwaits
      let waited : Task store := ⟨dependency, job, Store.fetch_eq_some.mp hfetch⟩
      have hlink : waited.id ∈ store.links member.id := Task.dependency_links hmem
      obtain ⟨status', hstatus', hcreated⟩ := (h.readable waited (hreach.tail hlink)).status
      have hunsettled : status'.unsettled = true := by
        have hread := hwaits.2
        rw [show job.status = .ok status' from hstatus'] at hread
        exact hread
      have hdepending : member.dependingStatus = .ok (some status') := by
        refine bind_eq_ok.mpr ⟨[waited], ?_, ?_⟩
        · rw [honly]
          unfold tasksFromIds
          split <;> rename_i hget <;> cases hget.symm.trans waited.fetched
          rfl
        · simpa [hstatus'] using globalStatus_singleton hcreated
      rw [Task.memberPending, hstatus, hdepending]
      simp [countsAsPending, JobStatus.active, hunsettled, bind, Except.bind, pure, Except.pure]
    · cases hwaits

end

/-- **`pending` sees all of a shallow chain.** -/
theorem pending_of_shallow (h : Shallow task) (hchain : chainPending store task.id = some true) :
    task.pending = .ok true := by
  have hself : Worklist.Reaches store.links task.id task.id := Relation.ReflTransGen.refl
  have hloads := (h.readable task hself).loads
  obtain ⟨dependencies, hdependencies, halldeps⟩ := tasksFromIds_ok fun id hid =>
    hloads id (.inl hid)
  obtain ⟨dependents, hdependents, halldents⟩ := tasksFromIds_ok fun id hid =>
    hloads id (.inr hid)
  obtain ⟨status, hstatus, hcreated⟩ := (h.readable task hself).status
  have hmembers : ∀ member ∈ dependencies ++ [task] ++ dependents,
      Worklist.Reaches store.links task.id member.id := by
    intro member hmem
    simp only [mem_append, mem_singleton, or_assoc] at hmem
    rcases hmem with hmem | rfl | hmem
    · exact hself.tail (Task.dependency_links (mem_of_mem_tasksFromIds hdependencies hmem))
    · exact hself
    · exact hself.tail (Task.dependent_links (mem_of_mem_tasksFromIds hdependents hmem))
  refine bind_eq_ok.mpr ⟨dependencies, hdependencies, bind_eq_ok.mpr ⟨dependents, hdependents, ?_⟩⟩
  refine anyPending_of_mem ?_ ?_
  · intro read hread
    rcases mem_append.mp hread with hread | hread
    · obtain ⟨member, hmem, rfl⟩ := mem_map.mp hread
      exact memberPending_ok h (hmembers member hmem)
    · obtain ⟨stamp, -, rfl⟩ := mem_map.mp hread
      exact stepPending_ok hstatus hcreated stamp
  · -- the member of the closure that `chain_pending` counts is one of the neighbours
    obtain ⟨closure, heq, hclosure⟩ := mem_chainClosure task
    obtain ⟨id, hid, hcounts⟩ : ∃ id ∈ closure, chainMemberPending store closure id = true := by
      simpa [chainPending, heq] using hchain
    have hreach := (hclosure id).mp hid
    obtain ⟨member, rfl⟩ := exists_task_of_reaches hreach
    cases hunstamped : member.job.coreFinalize.hasUnstamped with
    | true =>
      have hown : member.id = task.id := by
        by_contra hne
        rw [h.finalize member hreach hne] at hunstamped
        cases hunstamped
      obtain rfl := task_eq hown
      refine mem_append_right _ (mem_map.mpr ⟨none, ?_, ?_⟩)
      · exact mem_stamps_of_flat h.flat hunstamped
      · exact stepPending_none hstatus hcreated
    | false =>
      refine mem_append_left _ (mem_map.mpr ⟨member, ?_, ?_⟩)
      · simp only [mem_append, mem_singleton, or_assoc]
        rcases h.near member.id hreach with hown | hdep | hdent
        · exact .inr (.inl (task_eq hown))
        · exact .inl (halldeps member hdep)
        · exact .inr (.inr (halldents member hdent))
      · exact memberPending_of_chain h hreach hcounts hunstamped

end Shallow

/-! ## Orderly runs -/

section Orderly

variable {U C O : Type} [DecidableEq U] [DecidableEq O]

variable (s : Indexed U C O)

/-- A task of the row has work left anywhere in its chain. -/
def Indexed.Busy (row : O) : Prop :=
  ∃ entry ∈ s.index row, chainPending s.store entry.id = some true

/-- No settled chain of an index is reopened when the jobs become `store`. -/
def Indexed.Settles (store : Store U C) : Prop :=
  ∀ row, ∀ entry ∈ s.index row, chainPending store entry.id = some true →
    chainPending s.store entry.id = some true

def ShallowAt (store : Store U C) (id : Ident U) : Prop :=
  ∀ task : Task store, task.id = id → Shallow task

/-- A task is added to the rows of others, or without blocking, only if they have nothing left to
do; its score is the highest; and every chain of an index is shallow and stays settled. -/
def Orderly : Action U C O → Prop
  | .create call =>
    (call.blocking = true ∧ call.owners = [call.self] ∨ ∀ owner ∈ call.owners, ¬ s.Busy owner)
      ∧ (∀ owner ∈ call.owners, ∀ entry ∈ s.index owner,
        entry.id ≠ call.id ∧ entry.score < call.score)
      ∧ s.Settles (call.built s.store) ∧ ShallowAt (call.built s.store) call.id
      ∧ ∀ row, ∀ entry ∈ s.index row, ShallowAt (call.built s.store) entry.id
  | .progress store =>
    s.Settles store ∧ ∀ row, ∀ entry ∈ s.index row, ShallowAt store entry.id

/-- Only the newest task of a row may have work left. -/
structure Inv (s : Indexed U C O) : Prop where
  newest : ∀ row, ∀ entry ∈ s.index row, chainPending s.store entry.id = some true →
    ∃ entries, s.index row = entry :: entries
  shallow : ∀ row, ∀ entry ∈ s.index row, ShallowAt s.store entry.id

/-- A blocking call on a busy row is refused, with the code of a pending task. -/
def AdmissionSound (config : IndexConfig U) (s : Indexed U C O) : Prop :=
  ∀ call : Call U C O, call.blocking = true → call.shed = false → s.Busy call.self →
    ∃ id, createTask config s call = .error (.storagePendingTask call.self id)

variable {store : Store U C}

theorem exists_task_of_chainPending {id : Ident U} (h : chainPending store id = some true) :
    ∃ task : Task store, task.id = id := by
  cases hfetch : store.fetch id with
  | some job => exact ⟨⟨id, job, Store.fetch_eq_some.mp hfetch⟩, rfl⟩
  | none =>
    -- a walk from an id that does not load ends where it began
    have hlinks : store.links id = [] := by simp [Store.links, hfetch]
    obtain ⟨closure, hclosure, hany⟩ := Option.map_eq_some_iff.mp h
    have hfound : closure = [id] := by
      unfold chainClosure at hclosure
      cases hlength : store.length with
      | zero => simp [hlength, Worklist.explore] at hclosure
      | succ turns =>
        simp [hlength, Worklist.explore, hlinks] at hclosure
        exact hclosure.symm
    simp [hfound, chainMemberPending, hfetch] at hany

variable {s s' : Indexed U C O}

omit [DecidableEq O] in
theorem pendingTask_of_busy (h : Inv s) {row : O} (hbusy : s.Busy row) :
    ∃ id, pendingTask s row = .ok (some id) := by
  obtain ⟨entry, hmem, hchain⟩ := hbusy
  obtain ⟨entries, hentries⟩ := h.newest row entry hmem hchain
  obtain ⟨task, htask⟩ := exists_task_of_chainPending hchain
  have hexists : s.store.exists entry.id = true := by
    rw [← htask, Store.exists, task.fetched]
    rfl
  have hcurrent : currentTaskId s.store (s.index row) = some task.id := by
    rw [currentTaskId, hentries, map_cons, find?_cons_of_pos hexists, htask]
  have hload : loadTask s.store task.id = .ok task := by
    unfold loadTask
    split <;> rename_i hget <;> cases hget.symm.trans task.fetched
    rfl
  have hpending := pending_of_shallow (h.shallow row entry hmem task htask) (htask ▸ hchain)
  refine ⟨task.id, ?_⟩
  simp [pendingTask, hcurrent, hload, hpending, bind, Except.bind, pure, Except.pure]

theorem Inv.sound (h : Inv s) (config : IndexConfig U) : AdmissionSound config s := by
  intro call hblocking hshed hbusy
  obtain ⟨id, hid⟩ := pendingTask_of_busy h hbusy
  exact ⟨id, by simp [createTask, hblocking, hshed, hid]⟩

/-! ### The index after a task was added -/

variable (config : IndexConfig U) {entries : List (IndexEntry U)} {entry : IndexEntry U}

omit [DecidableEq U] in
theorem insert_newest (h : ∀ e ∈ entries, e.score < entry.score) :
    config.insert entry entries = entry :: entries := by
  cases entries with
  | nil => rfl
  | cons first rest =>
    have hnewer : config.newer entry first = true := by
      simp [IndexConfig.newer, h first (.head _)]
    simp [IndexConfig.insert, hnewer]

theorem add_newest (h : ∀ e ∈ entries, e.id ≠ entry.id → e.score < entry.score) :
    ∃ rest, config.add entries entry = entry :: rest
      ∧ ∀ e ∈ rest, e ∈ entries ∧ e.id ≠ entry.id := by
  have hinsert : config.insert entry (entries.filter (·.id ≠ entry.id))
      = entry :: entries.filter (·.id ≠ entry.id) := by
    refine insert_newest config fun e he => ?_
    obtain ⟨hmem, hne⟩ := mem_filter.mp he
    exact h e hmem (by simpa using hne)
  obtain ⟨n, hn⟩ : ∃ n, config.cap = n + 1 := ⟨config.cap - 1, by have := config.cap_pos; omega⟩
  refine ⟨(entries.filter (·.id ≠ entry.id)).take n, ?_, fun e he => ?_⟩
  · rw [IndexConfig.add, hinsert, hn, take_succ_cons]
  · obtain ⟨hmem, hne⟩ := mem_filter.mp (mem_of_mem_take he)
    exact ⟨hmem, by simpa using hne⟩

theorem indexTask_spec (entry : IndexEntry U) {index : O → List (IndexEntry U)} {owners : List O}
    (h : ∀ owner ∈ owners, ∀ e ∈ index owner, e.id ≠ entry.id → e.score < entry.score) (row : O) :
    indexTask config index owners entry row = index row
      ∨ row ∈ owners ∧ ∃ rest, indexTask config index owners entry row = entry :: rest
        ∧ ∀ e ∈ rest, e ∈ index row ∧ e.id ≠ entry.id := by
  induction owners generalizing index with
  | nil => exact .inl rfl
  | cons owner owners ih =>
    obtain ⟨rest, hadd, hrest⟩ := add_newest config (h owner (.head _))
    have hafter : ∀ row, ∀ e ∈ update index owner (config.add (index owner) entry) row,
        e.id ≠ entry.id → e ∈ index row := by
      intro row e he hne
      by_cases hrow : row = owner
      · subst hrow
        rw [update_self, hadd] at he
        rcases mem_cons.mp he with rfl | he
        · exact absurd rfl hne
        · exact (hrest e he).1
      · rwa [update_of_ne hrow] at he
    rcases @ih (update index owner (config.add (index owner) entry))
      (fun o ho e he hne => h o (.tail _ ho) e (hafter o e he hne) hne) with
      hout | ⟨hin, rest', heq, hsub⟩
    · by_cases hrow : row = owner
      · subst hrow
        refine .inr ⟨.head _, rest, hout.trans ?_, hrest⟩
        rw [update_self, hadd]
      · exact .inl (hout.trans (update_of_ne hrow ..))
    · exact .inr ⟨.tail _ hin, rest', heq, fun e he =>
        ⟨hafter row e (hsub e he).1 (hsub e he).2, (hsub e he).2⟩⟩

/-! ### Steps -/

variable {call : Call U C O}

theorem index_admission (hscore : ∀ owner ∈ call.owners, ∀ entry ∈ s.index owner,
      entry.id ≠ call.id ∧ entry.score < call.score) (row : O) :
    (call.admission config s).index row = s.index row
      ∨ row ∈ call.owners ∧ ∃ rest, (call.admission config s).index row
          = ⟨call.id, call.score⟩ :: rest ∧ ∀ e ∈ rest, e ∈ s.index row := by
  unfold Call.admission
  split_ifs
  · refine (indexTask_spec config ⟨call.id, call.score⟩
      (fun owner howner e he _ => (hscore owner howner e he).2) row).imp_right ?_
    exact fun ⟨howner, rest, heq, hrest⟩ => ⟨howner, rest, heq, fun e he => (hrest e he).1⟩
  · exact .inl rfl

theorem Inv.admission (h : Inv s) (config : IndexConfig U)
    (hfree : ∀ owner ∈ call.owners, ¬ s.Busy owner)
    (hscore : ∀ owner ∈ call.owners, ∀ entry ∈ s.index owner,
      entry.id ≠ call.id ∧ entry.score < call.score) (hsettles : s.Settles (call.built s.store))
    (hnew : ShallowAt (call.built s.store) call.id)
    (hold : ∀ row, ∀ entry ∈ s.index row, ShallowAt (call.built s.store) entry.id) :
    Inv (call.admission config s) := by
  refine ⟨fun row entry hmem hchain => ?_, fun row entry hmem => ?_⟩
  · rcases index_admission config hscore row with heq | ⟨howner, rest, heq, hrest⟩
    · rw [heq] at hmem ⊢
      exact h.newest row entry hmem (hsettles row entry hmem hchain)
    · rw [heq] at hmem ⊢
      rcases mem_cons.mp hmem with rfl | hmem
      · exact ⟨rest, rfl⟩
      · -- an older task of an owner has nothing left to do
        have hin := hrest entry hmem
        exact absurd ⟨entry, hin, hsettles row entry hin hchain⟩ (hfree row howner)
  · rcases index_admission config hscore row with heq | ⟨-, rest, heq, hrest⟩
    · exact hold row entry (heq ▸ hmem)
    · rw [heq] at hmem
      rcases mem_cons.mp hmem with rfl | hmem
      · exact hnew
      · exact hold row entry (hrest entry hmem)

variable {config : IndexConfig U}

theorem createTask_ok (h : createTask config s call = .ok s') :
    s' = call.admission config s ∧ call.shed = false := by
  unfold createTask at h
  split at h
  · cases h
  · rename_i hshed
    refine ⟨?_, by simpa using hshed⟩
    split at h
    · split at h <;> cases h
      rfl
    · cases h
      rfl

theorem Inv.next {a : Action U C O} (h : Inv s) (horderly : Orderly s a)
    (hnext : (taskMachine config).next s a = some s') : Inv s' := by
  cases a with
  | progress store =>
    cases hnext
    obtain ⟨hsettles, hshallow⟩ := horderly
    exact ⟨fun row entry hmem hchain => h.newest row entry hmem (hsettles row entry hmem hchain),
      hshallow⟩
  | create call =>
    cases hcreate : createTask config s call with
    | error e =>
      simp only [taskMachine, Admission.next, hcreate] at hnext
      cases hnext
      exact h
    | ok admitted =>
      simp only [taskMachine, Admission.next, hcreate] at hnext
      cases hnext
      obtain ⟨hfree, hscore, hsettles, hnew, hold⟩ := horderly
      obtain ⟨rfl, hshed⟩ := createTask_ok hcreate
      refine h.admission config (fun owner howner hbusy => ?_) hscore hsettles hnew hold
      rcases hfree with ⟨hblocking, howners⟩ | hfree
      · -- the guard would have refused the call
        obtain rfl : owner = call.self := by simpa [howners] using howner
        obtain ⟨id, hrefused⟩ := h.sound config call hblocking hshed hbusy
        rw [hrefused] at hcreate
        cases hcreate
      · exact hfree owner howner hbusy

def Indexed.start (store : Store U C) : Indexed U C O := ⟨store, fun _ => []⟩

/-- **Blocking admission is sound in every state of an orderly run**: a blocking call on a row
with a task that has work left in its chain is refused, so a call that succeeds finds none. -/
theorem admission_sound {config : IndexConfig U} {store : Store U C} {s : Indexed U C O}
    {as : List (Action U C O)}
    (hrun : (taskMachine config).run (Indexed.start store) as = some s)
    (hmeets : (taskMachine config).Meets Orderly (Indexed.start store) as) :
    AdmissionSound config s ∧ ∀ call : Call U C O, call.blocking = true →
      ∀ s', createTask config s call = .ok s' → ¬ s.Busy call.self := by
  have hstart : Inv (Indexed.start store : Indexed U C O) :=
    ⟨fun _ _ hmem => absurd hmem not_mem_nil, fun _ _ hmem => absurd hmem not_mem_nil⟩
  have hinv := (taskMachine config).run_invariant Orderly Inv
    (fun _ _ _ h horderly hnext => h.next horderly hnext) hstart hmeets hrun
  have hsound := hinv.sound config
  refine ⟨hsound, fun call hblocking s' hok hbusy => ?_⟩
  obtain ⟨id, hrefused⟩ := hsound call hblocking (createTask_ok hok).2 hbusy
  rw [hrefused] at hok
  cases hok

theorem shallowAt_of_alone {id : Ident U} {job : Job U C} {status : JobStatus}
    (hget : store.get id = .job job) (hdependencies : job.dependencyIds = [])
    (hdependents : job.dependentIds = []) (hfinalize : job.coreFinalize = .nil)
    (hstatus : job.status = .ok status) (hcreated : status ≠ .created) : ShallowAt store id := by
  intro task htask
  obtain rfl : task = ⟨id, job, hget⟩ := task_eq htask
  have hlinks : store.links id = [] := by
    simp [Store.links, Store.fetch, hget, hdependencies, hdependents]
  have hreach : ∀ id', Worklist.Reaches store.links id id' → id' = id := by
    intro id' h
    induction h with
    | refl => rfl
    | tail _ hstep ih =>
      rw [ih, hlinks] at hstep
      cases hstep
  have hmember : ∀ member : Task store, Worklist.Reaches store.links id member.id →
      member = ⟨id, job, hget⟩ := fun member h => task_eq (hreach _ h)
  refine ⟨fun id' h => .inl (hreach id' h), ?_, ?_, ?_, ?_⟩
  · intro member h
    rw [hmember member h]
    exact ⟨⟨status, hstatus, hcreated⟩, by simp [hdependencies, hdependents]⟩
  · intro member h
    rw [hmember member h]
    simp [hdependencies]
  · show Flat job.coreFinalize
    rw [hfinalize]
    trivial
  · intro member h hne
    exact absurd (hreach _ h) hne

end Orderly

/-! ## Two rows that are busy and admit

One has a second task on top of the first, added without blocking; the second one has finished.
The other has one task, whose job has finished and whose first finalize step has run; the step
below that one has not. -/

def listpack : IndexConfig Nat := ⟨fun _ _ => false, 127, by decide⟩

def callOf (id : Nat) (blocking : Bool) (dependents : Deps Unit) : Call Nat Unit Unit where
  self := ()
  blocking := blocking
  owners := [()]
  shed := false
  id := ⟨id, []⟩
  dependents := dependents
  score := id
  indexed := true

def jobWith (status : JobStatus) (coreFinalize : Forest Nat Unit) : Hash Nat Unit :=
  .job { status := .ok status, dependencyIds := [], dependentIds := [], coreFinalize }

def secondOnTop : List (Action Nat Unit Unit) :=
  [.create (callOf 0 false .nil), .create (callOf 1 false .nil),
    .progress [(⟨1, []⟩, jobWith .finished .nil), (⟨0, []⟩, jobWith .started .nil)]]

def halfFinalized : Forest Nat Unit :=
  .node (Ident.step ⟨0, []⟩ 0) () (some .finished)
    (.node (Ident.step (Ident.step ⟨0, []⟩ 0) 0) () none .nil [] .nil .nil) [] .nil .nil

def secondStepLeft : List (Action Nat Unit Unit) :=
  [.create (callOf 0 true (.core () (.core () .nil .nil) .nil)),
    .progress [(⟨0, []⟩, jobWith .finished halfFinalized)]]

theorem busy_row_admits :
    (∃ s s', (taskMachine listpack).run (Indexed.start []) secondOnTop = some s ∧ s.Busy ()
        ∧ createTask listpack s (callOf 2 true .nil) = .ok s')
      ∧ ∃ s s', (taskMachine listpack).run (Indexed.start []) secondStepLeft = some s ∧ s.Busy ()
        ∧ createTask listpack s (callOf 2 true .nil) = .ok s' := by
  refine ⟨⟨_, _, rfl, ⟨⟨⟨0, []⟩, 0⟩, ?_, rfl⟩, rfl⟩, ⟨_, _, rfl, ⟨⟨⟨0, []⟩, 0⟩, ?_, rfl⟩, rfl⟩⟩
  · exact .tail _ (.head _)
  · exact .head _

/-- A row with a queued task refuses a second one. -/
theorem queued_row_refuses :
    ∃ s id, (taskMachine listpack).run (Indexed.start []) [.create (callOf 0 true .nil)] = some s
      ∧ createTask listpack s (callOf 1 true .nil) = .error (.storagePendingTask () id) := by
  have hshallow : ShallowAt ((callOf 0 true .nil).built []) ⟨0, []⟩ :=
    shallowAt_of_alone rfl rfl rfl rfl rfl (by decide)
  have hmeets : (taskMachine listpack).Meets Orderly (Indexed.start [])
      [.create (callOf 0 true .nil)] := by
    refine ⟨⟨.inl ⟨rfl, rfl⟩, ?_, ?_, hshallow, ?_⟩, trivial⟩
    · exact fun _ _ _ hmem => absurd hmem not_mem_nil
    · exact fun _ _ hmem => absurd hmem not_mem_nil
    · exact fun _ _ hmem => absurd hmem not_mem_nil
  obtain ⟨id, hrefused⟩ := (admission_sound rfl hmeets).1 (callOf 1 true .nil) rfl rfl
    ⟨⟨⟨0, []⟩, 0⟩, .head _, rfl⟩
  exact ⟨_, id, rfl, hrefused⟩

end IsardVDI.Storage.Admission
