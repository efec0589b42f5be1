import IsardVDI.ChangeHandler.Dispatch

/-!
# `streams/task_results_consumer.py` — knot children are queued once

A redelivery must not start a second disk operation, so the consumer builds a knot child only if
no job has its id. The id is there from the first command of the build on, and the push comes
last.
-/

namespace IsardVDI.ChangeHandler

section Knot

variable {U C : Type} [DecidableEq U]

/-! ## Accounts -/

/-- No build of a child of the step is interrupted between the first save and the push. -/
def Step.FaultsHarmless (d : Delivery U C) (step : Step U C) : Prop :=
  ∀ index child, step.storageDependents[index]? = some child →
    ∀ f, d.fault (step.id.knotChildId index) = some f →
      f.Harmless (buildTask (step.id.knotChildId index) [step.anchor] child.dependents)

def Consumer.KeepsKnots (s : Consumer U C) (id : Ident U) (hash : Hash U C) : Prop :=
  ∀ stepId index, id = Ident.knotChildId stepId index →
    hash.isMissing = (s.rq.store.get id).isMissing

def Consumer.FaultsHarmless (s : Consumer U C) : ConsumerAction U C → Prop
  | .deliver d => ∀ settled dead steps, s.opening d = some (settled, dead) →
      walkEntry settled.rq.store dead d.limit d.entry.taskId = .ok steps →
      ∀ step ∈ steps, step.FaultsHarmless d
  | .change id hash => s.KeepsKnots id hash

variable {s s' : Consumer U C} {d : Delivery U C} {dead : Option JobStatus}
  {stepId anchor : Ident U} {index : Nat}

theorem keptByUpdates_settled (id : Ident U) :
    KeptByUpdates fun rq : Rq U C => rq.Settled id := by
  intro rq id' f h
  simpa [Rq.Settled] using h

theorem Consumer.KeepsKnots.exists_eq {id : Ident U} {hash : Hash U C} (h : s.KeepsKnots id hash) :
    (s.rq.store.set id hash).exists (stepId.knotChildId index)
      = s.rq.store.exists (stepId.knotChildId index) := by
  by_cases hid : stepId.knotChildId index = id
  · subst hid
    simp [Store.exists, h stepId index rfl]
  · exact Store.exists_set_of_ne hid hash

theorem settled_next {action : ConsumerAction U C} (hcond : s.FaultsHarmless action)
    (hstep : consumer.next s action = some s') (h : s.rq.Settled (stepId.knotChildId index)) :
    s'.rq.Settled (stepId.knotChildId index) := by
  cases action with
  | deliver d =>
    cases hstep
    refine processEntry_invariant (keptByUpdates_settled _) ?_ h
    intro settled dead steps hopen hwalk step hmem rq i child hchild hrq hmissing
    exact hrq.build hmissing (hcond settled dead steps hopen hwalk step hmem i child hchild)
  | change id hash =>
    simp only [consumer] at hstep
    split at hstep
    · cases hstep
      unfold Rq.Settled
      rwa [Consumer.KeepsKnots.exists_eq hcond]
    · cases hstep

/-! ## What an acknowledged dispatch has built -/

def Step.Built (rq : Rq U C) (step : Step U C) : Prop :=
  ∀ i < step.storageDependents.length, rq.store.exists (step.id.knotChildId i) = true

variable {rq : Rq U C}

theorem exists_runBuild {id id' : Ident U} {dependencyIds : List (Ident U)} {dependents : Deps C}
    {fault : Option Fault} (h : rq.store.exists id = true) :
    (runBuild (buildTask id' dependencyIds dependents) fault rq).2.store.exists id = true :=
  foldl_exec_exists h

variable {children : List (Child C)} {ok : Bool}

theorem exists_enqueueChildren {id : Ident U} (h : rq.store.exists id = true) :
    EndsIn (fun done : Rq U C × Bool => done.1.store.exists id = true) (fun _ => True)
      (enqueueChildren d anchor stepId index children (rq, ok)) :=
  (enqueueChildren_invariant (fun rq => rq.store.exists id = true)
    (fun _ _ _ _ hrq _ => exists_runBuild hrq) h).imp (fun _ h => h) (fun _ _ => trivial)

theorem enqueueChildren_built {rq' : Rq U C}
    (h : enqueueChildren d anchor stepId index children (rq, ok) = .ok (rq', true)) :
    ok = true ∧ ∀ i < children.length,
      rq'.store.exists (stepId.knotChildId (index + i)) = true := by
  induction children generalizing index rq ok with
  | nil =>
    cases h
    simp
  | cons child children ih =>
    -- the first child is there when the loop goes on, and stays
    have hrest : ∀ {rq : Rq U C} {ok : Bool},
        rq.store.exists (stepId.knotChildId index) = true →
        enqueueChildren d anchor stepId (index + 1) children (rq, ok) = .ok (rq', true) →
        ok = true ∧ ∀ i < (child :: children).length,
          rq'.store.exists (stepId.knotChildId (index + i)) = true := by
      intro rq ok hfirst hrun
      obtain ⟨hok, hall⟩ := ih hrun
      refine ⟨hok, fun i hi => ?_⟩
      cases i with
      | zero =>
        have hend : EndsIn (fun done : Rq U C × Bool =>
            done.1.store.exists (stepId.knotChildId index) = true) (fun _ => True)
            (enqueueChildren d anchor stepId (index + 1) children (rq, ok)) :=
          exists_enqueueChildren hfirst
        rw [hrun] at hend
        exact hend
      | succ i =>
        have hi' := hall i (by simpa using hi)
        rwa [show index + 1 + i = index + (i + 1) by omega] at hi'
    unfold enqueueChildren at h
    split at h
    · rename_i hthere
      exact hrest hthere h
    · split at h
      · exact absurd (ih h).1 (by simp)
      · split at h <;> rename_i hrun
        · have hqueued := runBuild_done (congrArg Prod.fst hrun)
          rw [hrun] at hqueued
          exact hrest hqueued.exists_eq h
        · exact absurd (ih h).1 (by simp)
        · cases h

theorem keptByUpdates_exists (id : Ident U) :
    KeptByUpdates fun rq : Rq U C => rq.store.exists id = true := by
  intro rq id' f h
  simpa using h

theorem runStep_built {pass pass' : Pass U C} {step : Step U C}
    (h : runStep d none pass step = .ok pass') (hall : pass'.allOk = true) :
    step.Built pass'.consumer.rq := by
  unfold runStep Pass.run at h
  simp only [Option.isNone_none, if_true, Bool.and_true] at h
  split at h
  · cases h
  · split at h
    · unfold Pass.enqueue at h
      split at h <;> rename_i hrun
      · cases h
      · cases h
        obtain ⟨-, rfl⟩ := Bool.and_eq_true_iff.mp hall
        have hbuilt := (enqueueChildren_built hrun).2
        intro i hi
        show Store.exists _ _ = true
        simpa [Pass.setRq] using hbuilt i hi
    · rename_i hraised
      cases h
      have hok : d.handlerReturns step = false := by simpa using hraised
      simp [Pass.mark, Pass.handle_raised hok] at hall

theorem Step.Built.runStep {pass pass' : Pass U C} {step step' : Step U C}
    (h : step'.Built pass.consumer.rq) (hrun : runStep d dead pass step = .ok pass') :
    step'.Built pass'.consumer.rq := by
  intro i hi
  have hkept : step.KeptByBuilds d fun rq => rq.store.exists (step'.id.knotChildId i) = true :=
    fun _ _ _ _ hrq _ => exists_runBuild hrq
  have hend : KeepsRq _ (ChangeHandler.runStep d dead pass step) := hkept.runStep (h i hi)
  rw [hrun] at hend
  exact hend

theorem dispatch_built {steps : List (Step U C)}
    (hacked : (dispatch d none s steps).acked = true) :
    ∀ step ∈ steps, step.Built (dispatch d none s steps).consumer.rq := by
  unfold dispatch at hacked ⊢
  split at hacked <;> rename_i pass hrun
  · cases hacked
  · have hleads := saveMarks_leads d s.rq.store none pass pass.anchors
    obtain ⟨-, hall⟩ : True ∧ ∀ step ∈ steps, pass.allOk = true → step.Built pass.consumer.rq := by
      refine foldlM_all (I := fun _ => True)
        (Q := fun (step : Step U C) (pass : Pass U C) =>
          pass.allOk = true → step.Built pass.consumer.rq) ?_ ?_ trivial hrun
      · exact fun pass step _ pass' _ hstep => ⟨trivial, runStep_built hstep⟩
      · intro pass step pass' x _ hstep hx hall
        have hkept := runStep_leads d none pass step
        rw [hstep] at hkept
        exact (hx (hkept.allOk hall)).runStep hstep
    intro step hstep i hi
    exact (keptByUpdates_exists _).saveMarks _ _ (hall step hstep (hleads.allOk hacked) i hi)

/-! ## Runs -/

def Consumer.Fresh (s : Consumer U C) (id : Ident U) : Prop :=
  s.rq.store.exists id = false ∧ id ∉ s.rq.pushed

/-- **Exactly once.** From a state where the child was not built, in every run whose builds are
not interrupted between the first save and the push, an acknowledged delivery of an entry of a
live chain leaves every knot child that its steps declare pushed exactly once. -/
theorem knot_children_once {s₀ : Consumer U C} {actions : List (ConsumerAction U C)}
    (hmeets : consumer.Meets Consumer.FaultsHarmless s₀ actions)
    (hrun : consumer.run s₀ actions = some s) (hlast : s.FaultsHarmless (.deliver d))
    {settled : Consumer U C} (hlive : s.opening d = some (settled, none))
    (hacked : (processEntry d s).acked = true) :
    ∀ step ∈ (processEntry d s).walked, ∀ i < step.storageDependents.length,
      s₀.Fresh (step.id.knotChildId i) →
        (processEntry d s).consumer.rq.pushed.count (step.id.knotChildId i) = 1 := by
  intro step hstep i hi hfresh
  have hbefore : s.rq.Settled (step.id.knotChildId i) :=
    consumer.run_invariant Consumer.FaultsHarmless
      (fun s => s.rq.Settled (step.id.knotChildId i))
      (fun _ _ _ h hcond hnext => settled_next hcond hnext h)
      (.inl ⟨hfresh.1, List.count_eq_zero.mpr hfresh.2⟩) hmeets hrun
  have hafter : (processEntry d s).consumer.rq.Settled (step.id.knotChildId i) :=
    settled_next hlast rfl hbefore
  have hthere : (processEntry d s).consumer.rq.store.exists (step.id.knotChildId i) = true := by
    rcases processEntry_cases d s with
      ⟨-, hnil⟩ | ⟨settled', dead, hopen, heq | ⟨steps, -, heq⟩⟩
    · simp [hnil] at hstep
    · simp [heq] at hstep
    · rw [hlive] at hopen
      cases hopen
      rw [heq] at hacked hstep ⊢
      refine dispatch_built hacked step ?_ i hi
      unfold dispatch at hstep
      split at hstep <;> exact hstep
  rcases hafter with ⟨hmissing, -⟩ | ⟨-, honce⟩
  · simp [hthere] at hmissing
  · exact honce

end Knot

/-! ## A step with one storage child -/

def knotChain : Consumer Nat Nat where
  rq :=
    { store := [(⟨0, []⟩, .job
        { status := .ok .started, dependencyIds := []
          dependentIds := dependentIdsOf ⟨0, []⟩ 0 0 (.core 7 (.storage 8 .nil .nil) .nil)
          coreFinalize := coreFinalizeOf ⟨0, []⟩ 0 (.core 7 (.storage 8 .nil .nil) .nil) })]
      pushed := [⟨0, []⟩] }
  returned := []
  raised := []

def knotChild : Ident Nat := (Ident.step ⟨0, []⟩ 0).knotChildId 0

def finishedEntry (fault : Option Fault) : Delivery Nat Nat where
  entry := { kind := .result, taskId := ⟨0, []⟩, jobStatus := some .finished }
  registered := fun _ => true
  raises := fun _ => false
  covered := fun _ => true
  fault := fun _ => fault
  saveFails := fun _ => false
  limit := 10

/-- `save_meta` of the child raises in the first delivery. The second delivery finds a job with
the child's id, is acknowledged, and the child is on no queue. -/
theorem interrupted_child_acked :
    ∃ s, consumer.run knotChain [.deliver (finishedEntry (some ⟨1, false, false⟩))] = some s
      ∧ (processEntry (finishedEntry none) s).acked = true
      ∧ ((processEntry (finishedEntry none) s).walked.map fun step =>
          (step.id.knotChildId 0, step.storageDependents.length)) = [(knotChild, 1)]
      ∧ (processEntry (finishedEntry none) s).consumer.rq.pushed.count knotChild = 0 :=
  ⟨_, rfl, rfl, rfl, by decide⟩

/-- The process dies before the first command of the build, and the redelivery builds it. -/
theorem redelivered_child_once :
    ∃ s, consumer.run knotChain [.deliver (finishedEntry (some ⟨0, false, true⟩))] = some s
      ∧ (processEntry (finishedEntry none) s).acked = true
      ∧ (processEntry (finishedEntry none) s).consumer.rq.pushed.count knotChild = 1 := by
  have hrun : consumer.run knotChain [.deliver (finishedEntry (some ⟨0, false, true⟩))]
      = some (processEntry (finishedEntry (some ⟨0, false, true⟩)) knotChain).consumer := rfl
  have hmeets : consumer.Meets Consumer.FaultsHarmless knotChain
      [.deliver (finishedEntry (some ⟨0, false, true⟩))] := by
    refine ⟨?_, trivial⟩
    intro settled dead steps _ _ step _ index child _ f hf
    cases hf
    exact .inl rfl
  have hlast : (processEntry (finishedEntry (some ⟨0, false, true⟩)) knotChain).consumer
      |>.FaultsHarmless (.deliver (finishedEntry none)) := by
    intro settled dead steps _ _ step _ index child _ f hf
    cases hf
  refine ⟨_, hrun, rfl, ?_⟩
  exact knot_children_once hmeets hrun hlast rfl rfl _ (.head _) 0 (by decide)
    ⟨rfl, by decide⟩

end IsardVDI.ChangeHandler
