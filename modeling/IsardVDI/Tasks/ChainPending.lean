import IsardVDI.Lib.Worklist
import IsardVDI.Tasks.Chain

/-!
# `models/task.py` — `pending` and `chain_pending`

Two predicates over one graph. `pending` looks one level up and one level down, and reads a
finalize step through the status its view reports. `chain_pending` looks at everything the links
reach, and reads the marks of the finalize steps.

* `pending`, `chainClosure`, `chainPending` — the source's functions. `pending` raises when it
  meets a member it cannot read; `chainPending` answers `true` there.
-/

namespace IsardVDI

open List

section Pending

variable {U C : Type} [DecidableEq U]

/-! ## `pending` -/

variable {store : Store U C} (task : Task store)

def Task.dependingStatus : Except RqError (Option JobStatus) := do
  let dependencies ← tasksFromIds store task.job.dependencyIds
  globalStatus (dependencies.map (·.job.status))

/-- What `pending` asks of one member of its chain, from the answers the member gives. -/
def countsAsPending (jobStatus : Except RqError JobStatus)
    (dependingStatus : Except RqError (Option JobStatus)) : Except RqError Bool := do
  let status ← jobStatus
  if status.active then return true
  if status = .deferred then
    match ← dependingStatus with
    | some depending => return depending.unsettled
    | none => return false
  return false

/-- The loop of `pending`: the first member that counts answers, and a member that cannot be
read raises. -/
def anyPending : List (Except RqError Bool) → Except RqError Bool
  | [] => .ok false
  | member :: members => do
    if ← member then return true
    anyPending members

/-- A finalize step of the task itself, as a member of the chain `pending` walks. -/
def Task.stepPending (stamp : Option Stamp) : Except RqError Bool :=
  countsAsPending (stepStatus stamp task.job.status) (globalStatus [task.job.status])

def Task.memberPending : Except RqError Bool :=
  countsAsPending task.job.status task.dependingStatus

def Task.pending : Except RqError Bool := do
  let dependencies ← tasksFromIds store task.job.dependencyIds
  let dependents ← tasksFromIds store task.job.dependentIds
  anyPending ((dependencies ++ [task] ++ dependents).map memberPending
    ++ task.job.coreFinalize.stamps.map task.stepPending)

/-! ## `chain_pending` -/

variable (store : Store U C)

def Store.links (id : Ident U) : List (Ident U) :=
  match store.fetch id with
  | some job => (job.dependencyIds ++ job.dependentIds).filter fun i => (store.fetch i).isSome
  | none => []

/-- `_chain_closure`: the ids of the members, in the order in which they are found. -/
def chainClosure (id : Ident U) : Option (List (Ident U)) :=
  Worklist.explore store.links store.length [id] [id]

/-- Unsettled, or not readable: not being able to prove that work is over is not the same as it
being over. -/
def unsettledRead : Except RqError JobStatus → Bool
  | .ok status => status.unsettled
  | .error _ => true

def waitsOn (closure : List (Ident U)) (dependency : Ident U) : Bool :=
  match store.fetch dependency with
  | some job => dependency ∈ closure && unsettledRead job.status
  | none => false

def chainMemberPending (closure : List (Ident U)) (id : Ident U) : Bool :=
  match store.fetch id with
  | none => false
  | some job =>
    job.coreFinalize.hasUnstamped ||
      match job.status with
      | .error _ => true
      | .ok status =>
        status.active
          || (status = .deferred && job.dependencyIds.any (waitsOn store closure))

def chainPending (id : Ident U) : Option Bool :=
  (chainClosure store id).map fun closure => closure.any (chainMemberPending store closure)

/-! ## The closure -/

variable {store : Store U C}

variable {id : Ident U} {task : Task store} {closure closure' : List (Ident U)}

theorem Store.mem_links {id' : Ident U} :
    id' ∈ store.links id ↔ ∃ job, store.fetch id = some job
      ∧ (id' ∈ job.dependencyIds ∨ id' ∈ job.dependentIds) ∧ (store.fetch id').isSome := by
  cases h : store.fetch id with
  | none => simp [links, h]
  | some job => simp [links, h, or_and_right]

theorem Store.mem_of_fetch (h : (store.fetch id).isSome) : id ∈ (store.map Prod.fst).toFinset := by
  rw [mem_toFinset]
  by_contra hnot
  have hlookup : store.lookup id = none := by
    rw [lookup_eq_none_iff]
    intro entry hentry
    rw [bne_iff_ne]
    rintro rfl
    exact hnot (mem_map_of_mem hentry)
  simp [fetch, get, hlookup] at h

/-- **The closure of a task** is what its links reach. -/
theorem mem_chainClosure (task : Task store) :
    ∃ closure, chainClosure store task.id = some closure
      ∧ ∀ id, id ∈ closure ↔ Worklist.Reaches store.links task.id id := by
  have hcard : ((store.map Prod.fst).toFinset).card ≤ store.length := by
    simpa using toFinset_card_le (store.map Prod.fst)
  refine Worklist.explore_reaches ?_ (Store.mem_of_fetch (by simp [task.fetch])) hcard
  intro a _ b hb
  obtain ⟨job, -, -, hfetch⟩ := Store.mem_links.mp hb
  exact Store.mem_of_fetch hfetch

/-! ## What `pending` found -/

theorem anyPending_true {members : List (Except RqError Bool)}
    (h : anyPending members = .ok true) : .ok true ∈ members := by
  induction members with
  | nil => cases h
  | cons member members ih =>
    obtain ⟨found, hfound, hrest⟩ := bind_eq_ok.mp h
    cases found with
    | true => exact hfound ▸ (.head _)
    | false => exact .tail _ (ih hrest)

theorem countsAsPending_true {jobStatus : Except RqError JobStatus}
    {dependingStatus : Except RqError (Option JobStatus)}
    (h : countsAsPending jobStatus dependingStatus = .ok true) :
    (∃ status, jobStatus = .ok status ∧ status.active = true)
      ∨ jobStatus = .ok .deferred
        ∧ ∃ depending, dependingStatus = .ok (some depending) ∧ depending.unsettled = true := by
  obtain ⟨status, hstatus, h⟩ := bind_eq_ok.mp h
  by_cases hactive : status.active = true
  · exact .inl ⟨status, hstatus, hactive⟩
  · by_cases hdeferred : status = .deferred
    · subst hdeferred
      obtain ⟨depending, hdepending, h⟩ := bind_eq_ok.mp
        (show (dependingStatus >>= _) = _ by simpa [hactive] using h)
      cases depending with
      | none => simp [pure, Except.pure] at h
      | some depending =>
        exact .inr ⟨hstatus, depending, hdepending, by simpa [pure, Except.pure] using h⟩
    · simp [hactive, hdeferred, pure, Except.pure] at h

theorem Task.stepPending_true {stamp : Option Stamp} (h : task.stepPending stamp = .ok true) :
    stamp = none := by
  cases stamp with
  | none => rfl
  | some stamp =>
    cases stamp <;> rcases countsAsPending_true h with ⟨status, hstatus, hactive⟩ | ⟨hstatus, -⟩
      <;> cases hstatus <;> cases hactive

theorem Task.dependency_links {dependency : Task store} (h : dependency.id ∈ task.job.dependencyIds)
    : dependency.id ∈ store.links task.id :=
  Store.mem_links.mpr ⟨task.job, task.fetch, .inl h, by simp [dependency.fetch]⟩

theorem Task.dependent_links {dependent : Task store} (h : dependent.id ∈ task.job.dependentIds) :
    dependent.id ∈ store.links task.id :=
  Store.mem_links.mpr ⟨task.job, task.fetch, .inr h, by simp [dependent.fetch]⟩

/-- What `pending` counts at a task, `chain_pending` counts at the same task, if its closure has
the task's dependencies. -/
theorem Task.chainMemberPending_of_memberPending
    (hclosed : ∀ id ∈ store.links task.id, id ∈ closure) (h : task.memberPending = .ok true) :
    chainMemberPending store closure task.id = true := by
  rcases countsAsPending_true h with ⟨status, hstatus, hactive⟩ | ⟨hstatus, depending, hread, hdep⟩
  · simp [chainMemberPending, task.fetch, hstatus, hactive]
  · -- the dependency whose status the answer is
    obtain ⟨dependencies, hdependencies, hglobal⟩ := bind_eq_ok.mp hread
    obtain ⟨dependency, hmem, hdependency⟩ := mem_map.mp (globalStatus_mem hglobal)
    have hid := mem_of_mem_tasksFromIds hdependencies hmem
    have hin := hclosed _ (dependency_links hid)
    have hwaits : waitsOn store closure dependency.id = true := by
      simp [waitsOn, hin, dependency.fetch, hdependency, unsettledRead, hdep]
    have hany : task.job.dependencyIds.any (waitsOn store closure) = true :=
      any_eq_true.mpr ⟨_, hid, hwaits⟩
    simp [chainMemberPending, task.fetch, hstatus, hany]

theorem Task.exists_pending_member (h : task.pending = .ok true)
    (hclosure : ∀ id, id ∈ closure ↔ Worklist.Reaches store.links task.id id) :
    ∃ id ∈ closure, chainMemberPending store closure id = true := by
  have hself : task.id ∈ closure := (hclosure _).mpr Relation.ReflTransGen.refl
  have hclosed : ∀ id ∈ closure, ∀ id' ∈ store.links id, id' ∈ closure := fun id hid id' hlink =>
    (hclosure _).mpr (((hclosure _).mp hid).tail hlink)
  obtain ⟨dependencies, hdependencies, h⟩ := bind_eq_ok.mp h
  obtain ⟨dependents, hdependents, h⟩ := bind_eq_ok.mp h
  rcases mem_append.mp (anyPending_true h) with hmember | hstep
  · obtain ⟨member, hmem, hcounts⟩ := mem_map.mp hmember
    have hin : member.id ∈ closure := by
      simp only [mem_append, mem_singleton, or_assoc] at hmem
      rcases hmem with hmem | rfl | hmem
      · exact hclosed _ hself _ (dependency_links (mem_of_mem_tasksFromIds hdependencies hmem))
      · exact hself
      · exact hclosed _ hself _ (dependent_links (mem_of_mem_tasksFromIds hdependents hmem))
    exact ⟨member.id, hin, member.chainMemberPending_of_memberPending (hclosed _ hin) hcounts⟩
  · obtain ⟨stamp, hstamp, hcounts⟩ := mem_map.mp hstep
    rw [stepPending_true hcounts] at hstamp
    refine ⟨task.id, hself, ?_⟩
    simp [chainMemberPending, task.fetch, Forest.hasUnstamped_of_mem_stamps hstamp]

/-! ## A settled chain -/

theorem waitsOn_mono (hsub : ∀ id ∈ closure', id ∈ closure) {dependency : Ident U}
    (h : waitsOn store closure' dependency = true) : waitsOn store closure dependency = true := by
  unfold waitsOn at h ⊢
  cases hfetch : store.fetch dependency with
  | none => simp [hfetch] at h
  | some job =>
    simp only [hfetch, Bool.and_eq_true, decide_eq_true_eq] at h ⊢
    exact ⟨hsub _ h.1, h.2⟩

theorem chainMemberPending_mono (hsub : ∀ id ∈ closure', id ∈ closure)
    (h : chainMemberPending store closure' id = true) :
    chainMemberPending store closure id = true := by
  unfold chainMemberPending at h ⊢
  cases hfetch : store.fetch id with
  | none => simp [hfetch] at h
  | some job =>
    simp only [hfetch, Bool.or_eq_true] at h ⊢
    refine h.imp_right fun h => ?_
    cases hstatus : job.status with
    | error e => rfl
    | ok status =>
      simp only [hstatus, Bool.or_eq_true, Bool.and_eq_true, any_eq_true] at h ⊢
      refine h.imp_right fun ⟨hdeferred, dependency, hmem, hwaits⟩ => ?_
      exact ⟨hdeferred, dependency, hmem, waitsOn_mono hsub hwaits⟩

theorem exists_task_of_reaches (h : Worklist.Reaches store.links task.id id) :
    ∃ member : Task store, member.id = id := by
  cases h with
  | refl => exact ⟨task, rfl⟩
  | tail _ hlink =>
    obtain ⟨-, -, -, hfetch⟩ := Store.mem_links.mp hlink
    obtain ⟨job, hjob⟩ := Option.isSome_iff_exists.mp hfetch
    exact ⟨⟨id, job, Store.fetch_eq_some.mp hjob⟩, rfl⟩

namespace Tasks

/-- **The two predicates agree.** A pending task is pending as a chain. A chain that is settled
for one member is settled for every member of its closure. -/
theorem pending_le_chainPending (task : Task store) :
    (task.pending = .ok true → chainPending store task.id = some true)
      ∧ ∃ closure, chainClosure store task.id = some closure
        ∧ (chainPending store task.id = some false →
          ∀ id ∈ closure, chainPending store id = some false) := by
  obtain ⟨closure, heq, hmem⟩ := mem_chainClosure task
  refine ⟨fun h => ?_, closure, heq, fun h id hid => ?_⟩
  · simpa [chainPending, heq] using Task.exists_pending_member h hmem
  · obtain ⟨member, rfl⟩ := exists_task_of_reaches ((hmem id).mp hid)
    obtain ⟨closure', heq', hmem'⟩ := mem_chainClosure member
    -- what the member reaches, the task reaches through it
    have hsub : ∀ id ∈ closure', id ∈ closure := fun id hid' =>
      (hmem id).mpr (((hmem _).mp hid).trans ((hmem' id).mp hid'))
    have hnone : ∀ id ∈ closure, chainMemberPending store closure id = false := by
      simpa [chainPending, heq] using h
    have hsettled : ∀ id ∈ closure', chainMemberPending store closure' id = false := by
      intro id hid'
      by_contra hcounts
      have hcounts' := chainMemberPending_mono hsub (by simpa using hcounts)
      simp [hnone id (hsub id hid')] at hcounts'
    simpa [chainPending, heq'] using hsettled

/-! ## A finished root with a finalize step to run -/

/-- The root has finished, and so has the job behind it, which names it as its dependency. -/
def finishedChain (stamp : Option Stamp) : Store Nat Nat :=
  [(⟨0, []⟩, .job
      { status := .ok .finished, dependencyIds := [], dependentIds := [⟨1, []⟩]
        coreFinalize := .node (Ident.step ⟨0, []⟩ 0) 0 stamp .nil [] .nil .nil }),
    (⟨1, []⟩, .job
      { status := .ok .finished, dependencyIds := [⟨0, []⟩, ⟨2, []⟩], dependentIds := []
        coreFinalize := .nil })]

def finishedRoot (stamp : Option Stamp) : Task (finishedChain stamp) :=
  ⟨⟨0, []⟩, _, rfl⟩

/-- Before the step has run both predicates answer `true`; afterwards the chain is settled for
both members. -/
theorem finishedChain_settles :
    (finishedRoot none).pending = .ok true
      ∧ chainPending (finishedChain none) ⟨0, []⟩ = some true
      ∧ chainPending (finishedChain (some .finished)) ⟨1, []⟩ = some false := by
  have hpending : (finishedRoot none).pending = .ok true := by rfl
  obtain ⟨closure, hclosure, hsettled⟩ :=
    (pending_le_chainPending (finishedRoot (some .finished))).2
  have heq : closure = [⟨0, []⟩, ⟨1, []⟩] := by
    have hrun : chainClosure (finishedChain (some .finished)) ⟨0, []⟩
        = some [⟨0, []⟩, ⟨1, []⟩] := by rfl
    exact Option.some.inj (hclosure.symm.trans hrun)
  refine ⟨hpending, (pending_le_chainPending (finishedRoot none)).1 hpending, ?_⟩
  exact hsettled (by rfl) ⟨1, []⟩ (by simp [heq])

end Tasks

end Pending

end IsardVDI
