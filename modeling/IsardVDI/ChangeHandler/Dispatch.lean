import IsardVDI.Lib.Machine
import IsardVDI.Tasks.DeadChain

/-!
# `streams/task_results_consumer.py` — dispatching a result entry

An entry of the result stream names a task that ended. The consumer settles the task, walks the
finalize steps that hang off it, runs the handler of each, marks it, builds the knot children of
a step that succeeded, and saves the marks. It acknowledges the entry only if all of it worked.

A chain that failed or was cancelled is dead: its walk goes on through settled storage members
and through the steps of knot children that will never be built, a step that carries a mark is
passed and not run again, and nothing is built.

* `runStep`, `saveMarks`, `processEntry` — `_process_entry`. Dispatches are one at a time: what
  two of them share is held under the anchor lock.
-/

namespace IsardVDI.ChangeHandler

/-! ## Steps -/

inductive Parent (U : Type) where
  | task (id : Ident U)
  /-- A knot child that will never be built, with the status its non-execution reports as. -/
  | neverRan (status : JobStatus)
  | step (id : Ident U) (status : Option Stamp) (parent : Parent U)

/-- A finalize step as the walk yields it: a `CoreStep` over a node of its anchor's metadata. -/
structure Step (U C : Type) where
  id : Ident U
  spec : C
  status : Option Stamp
  storageDependents : List (Child C)
  parent : Parent U
  anchor : Ident U

section Walk

variable {U C : Type} [DecidableEq U]

def Parent.jobStatus (store : Store U C) (marks : Marks U) :
    Parent U → Except RqError JobStatus
  | .task id =>
    match store.fetch id with
    | some job => job.status
    | none => .error .noSuchJob
  | .neverRan status => .ok status
  | .step id status parent => stepStatus (marks.stampOf id status) (parent.jobStatus store marks)

variable (store : Store U C)

def Step.jobStatus (marks : Marks U) (step : Step U C) : Except RqError JobStatus :=
  stepStatus (marks.stampOf step.id step.status) (step.parent.jobStatus store marks)

def Step.dependingStatus (marks : Marks U) (step : Step U C) : Except RqError (Option JobStatus) :=
  globalStatus [step.parent.jobStatus store marks]

/-! ## The walk

`dead` is the status the chain died with. The steps that were met before are kept in `visited`,
which guards the walk against a metadata graph with cycles. -/

def walkForest (dead : Option JobStatus) (anchor : Ident U) (parent : Parent U) :
    Forest U C → List (Ident U) → List (Step U C) × List (Ident U)
  | .nil, visited => ([], visited)
  | .node id spec status coreFinalize storageDependents unbuilt rest, visited =>
    if id ∈ visited then walkForest dead anchor parent rest visited
    else
      let below := walkForest dead anchor (.step id status parent) coreFinalize (id :: visited)
      let behind :=
        match dead with
        | some deadStatus => walkForest dead anchor (.neverRan deadStatus) unbuilt below.2
        | none => ([], below.2)
      let after := walkForest dead anchor parent rest behind.2
      (⟨id, spec, status, storageDependents, parent, anchor⟩ :: (below.1 ++ behind.1 ++ after.1),
        after.2)

/-- The finalize tree of a loaded job, as a walk of the chain sees it. -/
def hydrate (dead : Option JobStatus) (job : Job U C) : Forest U C :=
  if dead.isSome then job.coreFinalize.materialize store else job.coreFinalize

/-- A storage member the walk goes through: a cancelled one of a cancelled chain, or a settled
one of a dead chain. A member whose status cannot be read is neither. -/
def crosses (dead : Option JobStatus) (job : Job U C) : Bool :=
  match job.status with
  | .ok status => (dead = some .canceled && status = .canceled) || (dead.isSome && status.terminal)
  | .error _ => false

def walkDependent {store : Store U C} (dead : Option JobStatus)
    (walkBelow : Task store → List (Ident U) → Except RqError (List (Step U C) × List (Ident U)))
    (walked : List (Step U C) × List (Ident U)) (dependent : Task store) :
    Except RqError (List (Step U C) × List (Ident U)) := do
  if dependent.id ∈ walked.2 then return walked
  if dependent.job.coreQueue || crosses dead dependent.job then
    let below ← walkBelow dependent (dependent.id :: walked.2)
    return (walked.1 ++ below.1, below.2)
  return (walked.1, dependent.id :: walked.2)

/-- `_walk_core_dependents`. Python stops a recursion that is deeper than its limit. -/
def walkTask (store : Store U C) (dead : Option JobStatus) :
    Nat → Task store → List (Ident U) → Except RqError (List (Step U C) × List (Ident U))
  | 0, _, _ => .error .other
  | limit + 1, task, visited => do
    let dependents ← tasksFromIds store task.job.dependentIds
    let storage ← dependents.foldlM (walkDependent dead (walkTask store dead limit)) ([], visited)
    let own := walkForest dead task.id (.task task.id) (hydrate store dead task.job) storage.2
    return (storage.1 ++ own.1, own.2)

end Walk

/-! ## A delivery -/

inductive EntryKind where
  | result
  | canceled
  /-- A progress or migration entry, or a malformed one: nothing is walked. -/
  | other
  deriving DecidableEq

structure Entry (U : Type) where
  kind : EntryKind
  taskId : Ident U
  /-- The status the worker published, if any. -/
  jobStatus : Option JobStatus

/-- One delivery of an entry, with all that is not decided by the jobs. -/
structure Delivery (U C : Type) where
  entry : Entry U
  registered : C → Bool
  /-- The handler of this step raises. -/
  raises : Ident U → Bool
  /-- `lane_has_consumer` for a knot child. -/
  covered : C → Bool
  /-- The fault in the build of this knot child. -/
  fault : Ident U → Option Fault
  /-- `save_meta` of this anchor fails. -/
  saveFails : Ident U → Bool
  /-- The depth of recursion Python allows. -/
  limit : Nat

/-- The jobs, and the steps whose handler has returned normally and has raised so far. -/
structure Consumer (U C : Type) where
  rq : Rq U C
  returned : List (Ident U)
  raised : List (Ident U)

structure Pass (U C : Type) where
  consumer : Consumer U C
  marks : Marks U
  anchors : List (Ident U)
  allOk : Bool

/-- What became of a delivery: the consumer after it, the steps of its walk and the answer of
`_process_entry`. An exception that leaves it is not an answer of `True`. -/
structure Outcome (U C : Type) where
  consumer : Consumer U C
  walked : List (Step U C)
  acked : Bool

section Process

variable {U C : Type} [DecidableEq U]

variable (d : Delivery U C)

def Delivery.handlerReturns (step : Step U C) : Bool :=
  !(d.registered step.spec && d.raises step.id)

def Entry.deadChain (entry : Entry U) (job : Job U C) : Option JobStatus :=
  if entry.kind = .canceled || entry.jobStatus = some .canceled || job.canceledAt then
    some .canceled
  else if entry.jobStatus = some .failed then some .failed
  else none

/-- `_set_job_status`: a cancelled job stays cancelled, and one that is gone is not recreated. -/
def setJobStatus (store : Store U C) (id : Ident U) (status : JobStatus) : Store U C :=
  store.update id fun job =>
    match job.status with
    | .ok .canceled | .error .noSuchJob | .error .invalidJobOperation => job
    | .ok _ | .error .other => { job with status := .ok status }

def settleRoot (store : Store U C) (entry : Entry U) (dead : Option JobStatus) : Store U C :=
  if dead = some .canceled then store
  else setJobStatus store entry.taskId
    (if entry.jobStatus = some .failed then .failed else .finished)

/-- `_enqueue_metadata_storage_dependents`: an error is the death of the process. -/
def enqueueChildren (d : Delivery U C) (anchor stepId : Ident U) :
    Nat → List (Child C) → Rq U C × Bool → Except (Rq U C) (Rq U C × Bool)
  | _, [], done => .ok done
  | index, child :: children, (rq, ok) =>
    if rq.store.exists (stepId.knotChildId index) then
      enqueueChildren d anchor stepId (index + 1) children (rq, ok)
    else if !d.covered child.spec then
      enqueueChildren d anchor stepId (index + 1) children (rq, false)
    else
      match runBuild (buildTask (stepId.knotChildId index) [anchor] child.dependents)
        (d.fault (stepId.knotChildId index)) rq with
      | (.done, rq) => enqueueChildren d anchor stepId (index + 1) children (rq, ok)
      | (.raised, rq) => enqueueChildren d anchor stepId (index + 1) children (rq, false)
      | (.died, rq) => .error rq

variable (pass : Pass U C)

def Pass.handle (step : Step U C) : Pass U C :=
  if d.handlerReturns step then
    { pass with
      consumer := { pass.consumer with returned := step.id :: pass.consumer.returned } }
  else
    { pass with
      consumer := { pass.consumer with raised := step.id :: pass.consumer.raised }
      allOk := false }

def Pass.mark (step : Step U C) (stamp : Stamp) : Pass U C :=
  { pass with
    marks := (step.id, stamp) :: pass.marks
    anchors := if step.anchor ∈ pass.anchors then pass.anchors
      else pass.anchors ++ [step.anchor] }

def Pass.setRq (rq : Rq U C) : Pass U C :=
  { pass with consumer := { pass.consumer with rq := rq } }

def Pass.enqueue (step : Step U C) : Except (Pass U C) (Pass U C) :=
  match enqueueChildren d step.anchor step.id 0 step.storageDependents
    (pass.consumer.rq, true) with
  | .error rq => .error (pass.setRq rq)
  | .ok (rq, enqueued) => .ok { pass.setRq rq with allOk := pass.allOk && enqueued }

variable (dead : Option JobStatus)

/-- The body of the loop over the walked steps, for a step that is run. -/
def Pass.run (pass : Pass U C) (step : Step U C) : Except (Pass U C) (Pass U C) :=
  let handled := pass.handle d step
  match step.dependingStatus handled.consumer.rq.store handled.marks with
  | .error _ => .error handled
  | .ok depending =>
    let marked := handled.mark step
      (if d.handlerReturns step && depending = some .finished then .finished else .failed)
    if d.handlerReturns step && dead.isNone then marked.enqueue d step else .ok marked

/-- The body of the loop over the walked steps. An error ends the dispatch without a save. -/
def runStep (pass : Pass U C) (step : Step U C) : Except (Pass U C) (Pass U C) :=
  if dead.isNone then pass.run d dead step
  else
    match step.jobStatus pass.consumer.rq.store pass.marks with
    | .error _ => .error pass
    | .ok status => if status.terminal then .ok pass else pass.run d dead step

def saveAnchor (loaded : Store U C) (dead : Option JobStatus) (marks : Marks U) (rq : Rq U C)
    (anchor : Ident U) : Rq U C :=
  match loaded.fetch anchor with
  | some old =>
    { rq with store := rq.store.update anchor fun job =>
        { job with coreFinalize := (hydrate loaded dead old).applyMarks marks } }
  | none => rq

def saveMarks (d : Delivery U C) (loaded : Store U C) (dead : Option JobStatus)
    (pass : Pass U C) : List (Ident U) → Pass U C
  | [] => pass
  | anchor :: anchors =>
    if d.saveFails anchor then saveMarks d loaded dead { pass with allOk := false } anchors
    else
      saveMarks d loaded dead
        (pass.setRq (saveAnchor loaded dead pass.marks pass.consumer.rq anchor)) anchors

/-- The dispatch of the steps of a walk, in the jobs as they were loaded for it. -/
def dispatch (s : Consumer U C) (steps : List (Step U C)) : Outcome U C :=
  match steps.foldlM (runStep d dead) ⟨s, [], [], true⟩ with
  | .error pass => ⟨pass.consumer, steps, false⟩
  | .ok pass =>
    let saved := saveMarks d s.rq.store dead pass pass.anchors
    ⟨saved.consumer, steps, saved.allOk⟩

/-- The walk of an entry whose task was loaded, from the jobs with the task settled. -/
def walkEntry (store : Store U C) (dead : Option JobStatus) (limit : Nat) (id : Ident U) :
    Except RqError (List (Step U C)) :=
  match h : store.get id with
  | .job job => (walkTask store dead limit ⟨id, job, h⟩ []).map Prod.fst
  | .missing | .ghost | .unreadable => .error .noSuchJob

def processEntry (s : Consumer U C) : Outcome U C :=
  if d.entry.kind = .other then ⟨s, [], true⟩
  else
    match s.rq.store.fetch d.entry.taskId with
    | none => ⟨s, [], false⟩
    | some job =>
      let dead := d.entry.deadChain job
      let settled := { s with
        rq := { s.rq with store := settleRoot s.rq.store d.entry dead } }
      match walkEntry settled.rq.store dead d.limit d.entry.taskId with
      | .error _ => ⟨settled, [], false⟩
      | .ok steps => dispatch d dead settled steps

end Process

/-! ## What a dispatch keeps -/

section Invariants

variable {U C : Type} {s : Consumer U C} {d : Delivery U C} {dead : Option JobStatus}
  {pass : Pass U C} {step : Step U C} {I : Rq U C → Prop}

theorem Pass.handle_returned (hok : d.handlerReturns step = true) :
    pass.handle d step = { pass with consumer := { pass.consumer with
      returned := step.id :: pass.consumer.returned } } := by
  simp [handle, hok]

theorem Pass.handle_raised (hok : d.handlerReturns step = false) :
    pass.handle d step = { pass with
      consumer := { pass.consumer with raised := step.id :: pass.consumer.raised }
      allOk := false } := by
  simp [handle, hok]

/-- A dispatch goes on: what has returned stays returned, and what failed stays failed. -/
structure Pass.Leads (pass pass' : Pass U C) : Prop where
  returned : ∀ x ∈ pass.consumer.returned, x ∈ pass'.consumer.returned
  allOk : pass'.allOk = true → pass.allOk = true

theorem Pass.Leads.trans {pass' pass'' : Pass U C} (h : pass.Leads pass') (h' : pass'.Leads pass'')
    : pass.Leads pass'' :=
  ⟨fun x hx => h'.returned x (h.returned x hx), fun hall => h.allOk (h'.allOk hall)⟩

theorem Pass.handle_leads (pass : Pass U C) (d : Delivery U C) (step : Step U C) :
    pass.Leads (pass.handle d step) := by
  cases hok : d.handlerReturns step with
  | true =>
    rw [handle_returned hok]
    exact ⟨fun x hx => .tail _ hx, fun h => h⟩
  | false =>
    rw [handle_raised hok]
    exact ⟨fun x hx => hx, fun h => by cases h⟩

variable [DecidableEq U]

/-- The consumer when the walk of an entry begins, with the status its chain died with. -/
def Consumer.opening (s : Consumer U C) (d : Delivery U C) :
    Option (Consumer U C × Option JobStatus) :=
  (s.rq.store.fetch d.entry.taskId).map fun job =>
    ({ s with rq := { s.rq with
        store := settleRoot s.rq.store d.entry (d.entry.deadChain job) } },
      d.entry.deadChain job)

theorem processEntry_cases (d : Delivery U C) (s : Consumer U C) :
    ((processEntry d s).consumer = s ∧ (processEntry d s).walked = [])
      ∨ ∃ settled dead, s.opening d = some (settled, dead)
        ∧ ((processEntry d s = ⟨settled, [], false⟩)
          ∨ ∃ steps, walkEntry settled.rq.store dead d.limit d.entry.taskId = .ok steps
            ∧ processEntry d s = dispatch d dead settled steps) := by
  unfold processEntry Consumer.opening
  split
  · exact .inl ⟨rfl, rfl⟩
  · split
    · exact .inl ⟨rfl, rfl⟩
    · rename_i job hjob
      refine .inr ⟨_, _, by rw [hjob]; rfl, ?_⟩
      dsimp only
      split
      · exact .inl rfl
      · rename_i steps hsteps
        exact .inr ⟨steps, hsteps, rfl⟩

theorem Pass.enqueue_leads (pass : Pass U C) (d : Delivery U C) (step : Step U C) :
    EndsIn pass.Leads (fun _ => True) (pass.enqueue d step) := by
  unfold enqueue
  split
  · trivial
  · exact ⟨fun _ hx => hx, fun hall => (Bool.and_eq_true_iff.mp hall).1⟩

/-- A step of a dead chain that has ended is passed. -/
theorem runStep_endsIn {P Q : Pass U C → Prop} (hrun : EndsIn P Q (pass.run d dead step))
    (hpassed : ∀ status, dead.isSome →
      step.jobStatus pass.consumer.rq.store pass.marks = .ok status → status.terminal → P pass)
    (hQ : Q pass) : EndsIn P Q (runStep d dead pass step) := by
  unfold runStep
  split
  · exact hrun
  · rename_i hdead
    split
    · exact hQ
    · rename_i status hstatus
      split
      · exact hpassed status (by simpa [← Option.isSome_iff_ne_none] using hdead) hstatus ‹_›
      · exact hrun

theorem runStep_leads (d : Delivery U C) (dead : Option JobStatus) (pass : Pass U C)
    (step : Step U C) : EndsIn pass.Leads (fun _ => True) (runStep d dead pass step) := by
  have hhandle := pass.handle_leads d step
  refine runStep_endsIn ?_ (fun _ _ _ _ => ⟨fun _ hx => hx, fun h => h⟩) trivial
  unfold Pass.run
  dsimp only
  split
  · trivial
  · split
    · refine (Pass.enqueue_leads _ d step).imp (fun pass' h => ?_) (fun _ h => h)
      exact hhandle.trans ⟨h.returned, h.allOk⟩
    · exact ⟨hhandle.returned, hhandle.allOk⟩

theorem saveMarks_leads (d : Delivery U C) (loaded : Store U C) (dead : Option JobStatus)
    (pass : Pass U C) (anchors : List (Ident U)) :
    pass.Leads (saveMarks d loaded dead pass anchors) := by
  induction anchors generalizing pass with
  | nil => exact ⟨fun _ hx => hx, fun h => h⟩
  | cons anchor anchors ih =>
    unfold saveMarks
    split
    · have hrest := ih { pass with allOk := false }
      exact ⟨hrest.returned, fun hall => by cases hrest.allOk hall⟩
    · have hrest := ih (pass.setRq (saveAnchor loaded dead pass.marks pass.consumer.rq anchor))
      exact ⟨hrest.returned, hrest.allOk⟩

theorem enqueueChildren_invariant {anchor stepId : Ident U} (I : Rq U C → Prop)
    {children : List (Child C)} {index : Nat}
    (hbuild : ∀ rq j child, children[j]? = some child → I rq →
      rq.store.exists (stepId.knotChildId (index + j)) = false →
      I (runBuild (buildTask (stepId.knotChildId (index + j)) [anchor] child.dependents)
        (d.fault (stepId.knotChildId (index + j))) rq).2)
    {rq : Rq U C} {ok : Bool} (h : I rq) :
    EndsIn (fun done : Rq U C × Bool => I done.1) I
      (enqueueChildren d anchor stepId index children (rq, ok)) := by
  induction children generalizing index rq ok with
  | nil => exact h
  | cons child children ih =>
    have hrest : ∀ {rq : Rq U C} {ok : Bool}, I rq → EndsIn (fun done : Rq U C × Bool => I done.1)
        I (enqueueChildren d anchor stepId (index + 1) children (rq, ok)) := by
      intro rq ok hrq
      refine ih ?_ hrq
      intro rq j child' hj hrq hmissing
      have hshift : index + 1 + j = index + (j + 1) := by omega
      rw [hshift] at hmissing ⊢
      exact hbuild rq (j + 1) child' hj hrq hmissing
    unfold enqueueChildren
    split
    · exact hrest h
    · rename_i hmissing
      split
      · exact hrest h
      · have hbuilt := hbuild rq 0 child rfl h (by simpa using hmissing)
        rw [Nat.add_zero] at hbuilt
        split <;> rename_i hrun <;> rw [hrun] at hbuilt
        · exact hrest hbuilt
        · exact hrest hbuilt
        · exact hbuilt

def Step.KeptByBuilds (d : Delivery U C) (step : Step U C) (I : Rq U C → Prop) : Prop :=
  ∀ rq index child, step.storageDependents[index]? = some child → I rq →
    rq.store.exists (step.id.knotChildId index) = false →
    I (runBuild (buildTask (step.id.knotChildId index) [step.anchor] child.dependents)
      (d.fault (step.id.knotChildId index)) rq).2

theorem Step.KeptByBuilds.enqueueChildren (hbuild : step.KeptByBuilds d I) {rq : Rq U C}
    (h : I rq) (ok : Bool) :
    EndsIn (fun done : Rq U C × Bool => I done.1) I
      (enqueueChildren d step.anchor step.id 0 step.storageDependents (rq, ok)) := by
  refine enqueueChildren_invariant I ?_ h
  intro rq j child hj hrq hmissing
  rw [Nat.zero_add] at hmissing ⊢
  exact hbuild rq j child hj hrq hmissing

/-- The dispatch goes on or ends with the property. -/
abbrev KeepsRq (I : Rq U C → Prop) : Except (Pass U C) (Pass U C) → Prop :=
  EndsIn (fun pass => I pass.consumer.rq) (fun pass => I pass.consumer.rq)

theorem Step.KeptByBuilds.enqueue (hbuild : step.KeptByBuilds d I) (h : I pass.consumer.rq) :
    KeepsRq I (pass.enqueue d step) := by
  have hend := hbuild.enqueueChildren h true
  unfold Pass.enqueue
  split <;> rename_i hrun <;> rw [hrun] at hend
  · exact hend
  · exact hend

theorem Step.KeptByBuilds.runStep (hbuild : step.KeptByBuilds d I) (h : I pass.consumer.rq) :
    KeepsRq I (runStep d dead pass step) := by
  have hhandled : I (pass.handle d step).consumer.rq := by
    unfold Pass.handle
    split <;> exact h
  refine runStep_endsIn ?_ (fun _ _ _ _ => h) h
  unfold Pass.run
  dsimp only
  split
  · exact hhandled
  · split
    · exact hbuild.enqueue hhandled
    · exact hhandled

def KeptByUpdates (I : Rq U C → Prop) : Prop :=
  ∀ rq id f, I rq → I { rq with store := rq.store.update id f }

theorem KeptByUpdates.saveMarks (hupdate : KeptByUpdates I) (loaded : Store U C)
    (anchors : List (Ident U)) (h : I pass.consumer.rq) :
    I (saveMarks d loaded dead pass anchors).consumer.rq := by
  induction anchors generalizing pass with
  | nil => exact h
  | cons anchor anchors ih =>
    unfold ChangeHandler.saveMarks
    split
    · exact ih h
    · refine ih ?_
      show I (saveAnchor loaded dead pass.marks pass.consumer.rq anchor)
      unfold saveAnchor
      split
      · exact hupdate _ _ _ h
      · exact h

/-- **What a delivery keeps.** Besides its builds a dispatch only writes fields of jobs. -/
theorem processEntry_invariant (hupdate : KeptByUpdates I)
    (hbuild : ∀ settled dead steps, s.opening d = some (settled, dead) →
      walkEntry settled.rq.store dead d.limit d.entry.taskId = .ok steps →
      ∀ step ∈ steps, step.KeptByBuilds d I) (h : I s.rq) : I (processEntry d s).consumer.rq := by
  rcases processEntry_cases d s with ⟨heq, -⟩ | ⟨settled, dead, hopen, hcases⟩
  · rwa [heq]
  · have hsettled : I settled.rq := by
      obtain ⟨job, -, heq⟩ := Option.map_eq_some_iff.mp hopen
      cases heq
      unfold settleRoot
      split
      · exact h
      · exact hupdate _ _ _ h
    rcases hcases with heq | ⟨steps, hwalk, heq⟩
    · rwa [heq]
    · rw [heq]
      have hend : KeepsRq I (steps.foldlM (runStep d dead) ⟨settled, [], [], true⟩) :=
        foldlM_invariant
          (fun _ step hstep h => (hbuild settled dead steps hopen hwalk step hstep).runStep h)
          hsettled
      unfold dispatch
      split <;> rename_i hrun <;> rw [hrun] at hend
      · exact hend
      · exact hupdate.saveMarks _ _ hend

end Invariants

/-! ## Deliveries and the rest of the system -/

inductive ConsumerAction (U C : Type) where
  | deliver (d : Delivery U C)
  /-- A worker, a cancel, a producer or the reconcile changes what is stored for a job. -/
  | change (id : Ident U) (hash : Hash U C)

section Machine

variable {U C : Type} [DecidableEq U]

def stampedIn (hash : Hash U C) : List (Ident U) :=
  match hash with
  | .job job => job.coreFinalize.stampedIds
  | .missing | .ghost | .unreadable => []

/-- Nobody else marks a step: who rewrites the metadata of a job writes marks it has read. -/
def consumer : Machine (Consumer U C) (ConsumerAction U C) where
  next s
    | .deliver d => some (processEntry d s).consumer
    | .change id hash =>
      if ∀ x ∈ stampedIn hash, x ∈ stampedIn (s.rq.store.get id) then
        some { s with rq := { s.rq with store := s.rq.store.set id hash } }
      else none

end Machine

end IsardVDI.ChangeHandler
