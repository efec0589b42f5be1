import IsardVDI.ChangeHandler.Dispatch

/-!
# `streams/task_results_consumer.py` — no handler is dropped

The consumer delivers an entry again until all of it worked, so that the handler of every step
returns normally at least once. A step of a dead chain that carries a mark is not run again, and
a step whose handler raised is marked too.

A failed job whose finalize handler raises once loses it (`dead_chain_drops_handler`).
-/

namespace IsardVDI.ChangeHandler

open List Option

section AtLeastOnce

variable {U C : Type} [DecidableEq U]

/-! ## Where the marks of a walk come from -/

variable {dead : Option JobStatus} {visited : List (Ident U)} {store : Store U C}
  {parent : Parent U}

theorem stamped_of_mem_walkForest {anchor : Ident U} {forest : Forest U C} {step : Step U C}
    (h : step ∈ (walkForest dead anchor parent forest visited).1) (hstatus : step.status.isSome) :
    step.id ∈ forest.stampedIds := by
  induction forest generalizing parent visited with
  | nil => simp [walkForest] at h
  | node id spec status coreFinalize storageDependents unbuilt rest ihc ihu ihr =>
    simp only [Forest.stampedIds, mem_append]
    unfold walkForest at h
    split at h
    · exact .inr (.inr (.inr (ihr h)))
    · simp only [mem_cons, mem_append] at h
      rcases h with rfl | (h | h) | h
      · exact .inl (by simp [show status.isSome from hstatus])
      · exact .inr (.inl (ihc h))
      · cases dead with
        | none => simp at h
        | some deadStatus => exact .inr (.inr (.inl (ihu h)))
      · exact .inr (.inr (.inr (ihr h)))

def FromStore (store : Store U C) (step : Step U C) : Prop :=
  step.status.isSome → ∃ id job, store.get id = .job job ∧ step.id ∈ job.coreFinalize.stampedIds

theorem fromStore_of_mem_hydrate (task : Task store) {step : Step U C}
    (h : step ∈ (walkForest dead task.id parent (hydrate store dead task.job) visited).1) :
    FromStore store step := by
  intro hstatus
  have hmem := stamped_of_mem_walkForest h hstatus
  refine ⟨task.id, task.job, task.fetched, ?_⟩
  unfold hydrate at hmem
  split at hmem
  · exact mem_stampedIds_materialize hmem
  · exact hmem

variable {walked : List (Step U C) × List (Ident U)}

theorem fromStore_walkDependent
    {walkBelow : Task store → List (Ident U) → Except RqError (List (Step U C) × List (Ident U))}
    (hbelow : ∀ task visited walked, walkBelow task visited = .ok walked →
      ∀ step ∈ walked.1, FromStore store step) {walked' : List (Step U C) × List (Ident U)}
    {dependent : Task store} (hwalked : ∀ step ∈ walked.1, FromStore store step)
    (h : walkDependent dead walkBelow walked dependent = .ok walked') :
    ∀ step ∈ walked'.1, FromStore store step := by
  unfold walkDependent at h
  split at h
  · cases h
    exact hwalked
  · split at h
    · obtain ⟨below, hrun, heq⟩ := bind_eq_ok.mp h
      cases heq
      intro step hstep
      rcases mem_append.mp hstep with hstep | hstep
      · exact hwalked step hstep
      · exact hbelow _ _ _ hrun step hstep
    · cases h
      exact hwalked

variable {limit : Nat}

theorem fromStore_walkTask {task : Task store}
    (h : walkTask store dead limit task visited = .ok walked) :
    ∀ step ∈ walked.1, FromStore store step := by
  induction limit generalizing task visited walked with
  | zero => cases h
  | succ limit ih =>
    obtain ⟨dependents, -, h⟩ := bind_eq_ok.mp h
    obtain ⟨storage, hfold, heq⟩ := bind_eq_ok.mp h
    cases heq
    have hstorage : EndsIn (fun walked => ∀ step ∈ walked.1, FromStore store step)
        (fun _ => True) (Except.ok storage : Except RqError _) := by
      rw [← hfold]
      refine foldlM_invariant ?_ (by simp)
      intro walked dependent _ hwalked
      cases hrun : walkDependent dead (walkTask store dead limit) walked dependent with
      | error e => trivial
      | ok walked' => exact fromStore_walkDependent (fun _ _ _ h => ih h) hwalked hrun
    intro step hstep
    rcases mem_append.mp hstep with hstep | hstep
    · exact hstorage step hstep
    · exact fromStore_of_mem_hydrate task hstep

variable {steps : List (Step U C)}

theorem fromStore_walkEntry {id : Ident U} (h : walkEntry store dead limit id = .ok steps) :
    ∀ step ∈ steps, FromStore store step := by
  unfold walkEntry at h
  split at h
  · rename_i job hjob
    cases hrun : walkTask store dead limit ⟨id, job, hjob⟩ [] with
    | error e => simp [hrun, Except.map] at h
    | ok walked =>
      obtain rfl : walked.1 = steps := by simpa [hrun, Except.map] using h
      exact fromStore_walkTask hrun
  all_goals cases h

/-! ## A dispatch -/

def Consumer.Ran (s : Consumer U C) (id : Ident U) : Prop := id ∈ s.returned ∨ id ∈ s.raised

/-- A step that carries a mark has had its handler run. -/
def Consumer.MarksRan (s : Consumer U C) : Prop := s.rq.store.StampsIn s.Ran

/-- What holds of a dispatch after every step of its walk, from the consumer `s` it began with. -/
structure Pass.Sound (s : Consumer U C) (pass : Pass U C) : Prop where
  marks : ∀ x ∈ pass.marks.map Prod.fst, pass.consumer.Ran x
  stamps : pass.consumer.MarksRan
  returned : ∀ x ∈ s.returned, x ∈ pass.consumer.returned
  raised : ∀ x ∈ s.raised, x ∈ pass.consumer.raised
  /-- While everything worked, what was marked in this dispatch has returned. -/
  ok : pass.allOk = true → ∀ x ∈ pass.marks.map Prod.fst, x ∈ pass.consumer.returned

variable {s : Consumer U C} {pass : Pass U C} {d : Delivery U C} {dead : Option JobStatus}
  {step : Step U C}

section

variable (h : pass.Sound s)

include h

theorem Pass.Sound.ran {x : Ident U} (hx : s.Ran x) : pass.consumer.Ran x :=
  hx.imp (h.returned x) (h.raised x)

theorem Pass.Sound.handle : (pass.handle d step).Sound s := by
  cases hok : d.handlerReturns step with
  | true =>
    have hmono : ∀ x, pass.consumer.Ran x →
        ({ pass.consumer with returned := step.id :: pass.consumer.returned }
          : Consumer U C).Ran x := fun x hx => hx.imp_left (mem_cons_of_mem _)
    rw [Pass.handle_returned hok]
    exact
      { marks := fun x hx => hmono x (h.marks x hx)
        stamps := h.stamps.mono hmono
        returned := fun x hx => .tail _ (h.returned x hx)
        raised := h.raised
        ok := fun hall x hx => .tail _ (h.ok hall x hx) }
  | false =>
    have hmono : ∀ x, pass.consumer.Ran x →
        ({ pass.consumer with raised := step.id :: pass.consumer.raised }
          : Consumer U C).Ran x := fun x hx => hx.imp_right (mem_cons_of_mem _)
    rw [Pass.handle_raised hok]
    exact
      { marks := fun x hx => hmono x (h.marks x hx)
        stamps := h.stamps.mono hmono
        returned := h.returned
        raised := fun x hx => .tail _ (h.raised x hx)
        ok := fun hall => by cases hall }

omit h in
omit [DecidableEq U] in
theorem Pass.handle_ran (pass : Pass U C) (d : Delivery U C) (step : Step U C) :
    (pass.handle d step).consumer.Ran step.id
      ∧ ((pass.handle d step).allOk = true → step.id ∈ (pass.handle d step).consumer.returned) := by
  cases hok : d.handlerReturns step with
  | true => simp [Pass.handle_returned hok, Consumer.Ran]
  | false => simp [Pass.handle_raised hok, Consumer.Ran]

theorem Pass.Sound.mark (stamp : Stamp) (hran : pass.consumer.Ran step.id)
    (hret : pass.allOk = true → step.id ∈ pass.consumer.returned) :
    (pass.mark step stamp).Sound s where
  marks := by
    intro x hx
    rcases mem_cons.mp hx with rfl | hx
    · exact hran
    · exact h.marks x hx
  stamps := h.stamps
  returned := h.returned
  raised := h.raised
  ok := by
    intro hall x hx
    rcases mem_cons.mp hx with rfl | hx
    · exact hret hall
    · exact h.ok hall x hx

theorem Pass.Sound.setRq {rq : Rq U C} (hrq : rq.store.StampsIn pass.consumer.Ran) :
    (pass.setRq rq).Sound s :=
  { h with stamps := hrq }

omit h in
theorem Pass.Sound.of_allOk (allOk : Bool) (h : pass.Sound s)
    (hall : allOk = true → pass.allOk = true) : { pass with allOk := allOk }.Sound s :=
  { h with ok := fun h' => h.ok (hall h') }

theorem Pass.Sound.enqueue :
    EndsIn (fun pass' : Pass U C => pass'.Sound s) (fun pass' : Pass U C => pass'.Sound s)
      (pass.enqueue d step) := by
  have hkept : step.KeptByBuilds d fun rq => rq.store.StampsIn pass.consumer.Ran :=
    fun _ _ _ _ hrq _ => runBuild_stampsIn _ hrq
  have hbuilt := hkept.enqueueChildren h.stamps true
  unfold Pass.enqueue
  split <;> rename_i hrun <;> rw [hrun] at hbuilt
  · exact h.setRq hbuilt
  · exact (h.setRq hbuilt).of_allOk _ fun hall => (Bool.and_eq_true_iff.mp hall).1

theorem Pass.Sound.run :
    EndsIn (fun pass' : Pass U C => pass'.Sound s
        ∧ (pass'.allOk = true → step.id ∈ pass'.consumer.returned))
      (fun pass' : Pass U C => pass'.Sound s) (pass.run d dead step) := by
  have hhandled : (pass.handle d step).Sound s := h.handle
  obtain ⟨hran, hret⟩ := pass.handle_ran d step
  unfold Pass.run
  dsimp only
  split
  · exact hhandled
  · split
    · have hmarked := fun stamp => hhandled.mark stamp hran hret
      refine ((hmarked _).enqueue.and (Pass.enqueue_leads _ d step)).imp ?_ (fun _ h => h.1)
      rintro pass' ⟨hsound, hleads⟩
      exact ⟨hsound, fun hall => hleads.returned _ (hret (hleads.allOk hall))⟩
    · exact ⟨hhandled.mark _ hran hret, hret⟩

omit h in
theorem isSome_of_stepStatus_terminal {stamp : Option Stamp}
    {parent : Except RqError JobStatus} {status : JobStatus}
    (h : stepStatus stamp parent = .ok status) (hterminal : status.terminal = true) :
    stamp.isSome := by
  cases stamp with
  | some stamp => rfl
  | none =>
    obtain ⟨read, -, hread⟩ := bind_eq_ok.mp h
    split at hread <;> cases hread <;> cases hterminal

/-- **One step of a walk.** A step that is passed on a dead chain carried a mark before. -/
theorem Pass.Sound.runStep :
    EndsIn (fun pass' : Pass U C => pass'.Sound s
        ∧ (pass'.allOk = true → step.id ∈ pass'.consumer.returned
          ∨ (dead.isSome ∧ step.status.isSome)))
      (fun pass' : Pass U C => pass'.Sound s) (runStep d dead pass step) := by
  refine runStep_endsIn (h.run.imp (fun _ h => ⟨h.1, fun hall => .inl (h.2 hall)⟩) fun _ h => h)
    (fun status hdead hstatus hterminal => ⟨h, fun hall => ?_⟩) h
  rcases Marks.of_stampOf_isSome (isSome_of_stepStatus_terminal hstatus hterminal) with
    hmark | hstep
  · exact .inl (h.ok hall _ hmark)
  · exact .inr ⟨hdead, hstep⟩

theorem Pass.Sound.saveAnchor (hs : s.MarksRan) (anchor : Ident U) :
    (pass.setRq (saveAnchor s.rq.store dead pass.marks pass.consumer.rq anchor)).Sound s := by
  refine h.setRq ?_
  unfold ChangeHandler.saveAnchor
  split
  · rename_i old hold
    refine Store.StampsIn.update h.stamps fun job _ x hx => ?_
    rcases mem_stampedIds_applyMarks hx with hmark | htree
    · exact h.marks x hmark
    · refine h.ran (hs anchor old (Store.fetch_eq_some.mp hold) x ?_)
      unfold hydrate at htree
      split at htree
      · exact mem_stampedIds_materialize htree
      · exact htree
  · exact h.stamps

theorem Pass.Sound.saveMarks (hs : s.MarksRan) (anchors : List (Ident U)) :
    (saveMarks d s.rq.store dead pass anchors).Sound s := by
  induction anchors generalizing pass with
  | nil => exact h
  | cons anchor anchors ih =>
    unfold ChangeHandler.saveMarks
    split
    · exact ih (h.of_allOk false fun h => by cases h)
    · exact ih (h.saveAnchor hs anchor)

end

theorem Pass.Sound.start (hs : s.MarksRan) : (⟨s, [], [], true⟩ : Pass U C).Sound s where
  marks := by simp
  stamps := hs
  returned := fun _ hx => hx
  raised := fun _ hx => hx
  ok := by simp

theorem dispatch_marksRan (hs : s.MarksRan) (steps : List (Step U C)) :
    (dispatch d dead s steps).consumer.MarksRan := by
  have hend : EndsIn (fun pass : Pass U C => pass.Sound s) (fun pass : Pass U C => pass.Sound s)
      (steps.foldlM (runStep d dead) ⟨s, [], [], true⟩) :=
    foldlM_invariant (fun _ _ _ h => h.runStep.imp (fun _ h => h.1) (fun _ h => h))
      (Pass.Sound.start hs)
  unfold dispatch
  cases hrun : steps.foldlM (runStep d dead) ⟨s, [], [], true⟩ with
  | error pass =>
    rw [hrun] at hend
    exact hend.stamps
  | ok pass =>
    rw [hrun] at hend
    exact (hend.saveMarks hs pass.anchors).stamps

theorem dispatch_acked (hs : s.MarksRan) (hacked : (dispatch d dead s steps).acked = true) :
    (∀ x ∈ s.returned, x ∈ (dispatch d dead s steps).consumer.returned)
      ∧ ∀ step ∈ steps, step.id ∈ (dispatch d dead s steps).consumer.returned
        ∨ (dead.isSome ∧ step.status.isSome) := by
  unfold dispatch at hacked ⊢
  cases hrun : steps.foldlM (runStep d dead) ⟨s, [], [], true⟩ with
  | error pass => simp [hrun] at hacked
  | ok pass =>
    simp only [hrun] at hacked
    obtain ⟨hsound, hall⟩ : pass.Sound s ∧ ∀ step ∈ steps, pass.allOk = true →
        step.id ∈ pass.consumer.returned ∨ (dead.isSome ∧ step.status.isSome) := by
      refine foldlM_all (Q := fun (step : Step U C) (pass : Pass U C) => pass.allOk = true →
        step.id ∈ pass.consumer.returned ∨ (dead.isSome ∧ step.status.isSome)) ?_ ?_
        (Pass.Sound.start hs) hrun
      · intro pass step _ pass' hsound hstep
        have hend : EndsIn _ _ (runStep d dead pass step) := hsound.runStep
        rw [hstep] at hend
        exact hend
      · intro pass step pass' x _ hstep hx hall
        have hleads := runStep_leads d dead pass step
        rw [hstep] at hleads
        exact (hx (hleads.allOk hall)).imp_left (hleads.returned _)
    have hleads := saveMarks_leads d s.rq.store dead pass pass.anchors
    refine ⟨fun x hx => hleads.returned x (hsound.returned x hx), fun step hstep => ?_⟩
    exact (hall step hstep (hleads.allOk hacked)).imp_left (hleads.returned _)

/-! ## Deliveries -/

theorem settleRoot_stampsIn {P : Ident U → Prop} {entry : Entry U} (h : store.StampsIn P) :
    (settleRoot store entry dead).StampsIn P := by
  unfold settleRoot
  split
  · exact h
  · refine h.update fun job hjob => ?_
    split <;> exact h _ job hjob

theorem Consumer.MarksRan.opening {settled : Consumer U C} (hs : s.MarksRan)
    (h : s.opening d = some (settled, dead)) :
    settled.MarksRan ∧ settled.returned = s.returned ∧ settled.raised = s.raised := by
  obtain ⟨job, -, heq⟩ := map_eq_some_iff.mp h
  cases heq
  exact ⟨settleRoot_stampsIn hs, rfl, rfl⟩

theorem processEntry_marksRan (d : Delivery U C) (hs : s.MarksRan) :
    (processEntry d s).consumer.MarksRan := by
  rcases processEntry_cases d s with ⟨heq, -⟩ | ⟨settled, dead, hopen, heq | ⟨steps, -, heq⟩⟩
  · rwa [heq]
  · rw [heq]
    exact (hs.opening hopen).1
  · rw [heq]
    exact dispatch_marksRan (hs.opening hopen).1 steps

/-- When an entry of a dead chain is dispatched, no step of its walk carries the mark of a handler
that raised and never returned. -/
def Consumer.NoOutstanding (s : Consumer U C) (d : Delivery U C) : Prop :=
  ∀ settled dead steps, s.opening d = some (settled, dead) → dead.isSome →
    walkEntry settled.rq.store dead d.limit d.entry.taskId = .ok steps →
    ∀ step ∈ steps, step.status.isSome → step.id ∈ s.raised → step.id ∈ s.returned

theorem processEntry_returned (hs : s.MarksRan) (hcond : s.NoOutstanding d)
    (hacked : (processEntry d s).acked = true) :
    ∀ step ∈ (processEntry d s).walked, step.id ∈ (processEntry d s).consumer.returned := by
  rcases processEntry_cases d s with ⟨-, hnil⟩ | ⟨settled, dead, hopen, heq | ⟨steps, hwalk, heq⟩⟩
  · simp [hnil]
  · simp [heq]
  · obtain ⟨hsettled, hreturned, hraised⟩ := hs.opening hopen
    rw [heq] at hacked ⊢
    obtain ⟨hgrows, hall⟩ := dispatch_acked hsettled hacked
    intro step hstep
    have hmem : step ∈ steps := by
      unfold dispatch at hstep
      split at hstep <;> exact hstep
    rcases hall step hmem with hdone | ⟨hdead, hstatus⟩
    · exact hdone
    · -- a step that was passed: its mark says that its handler ran, and no exception is open
      obtain ⟨id, job, hjob, hstamp⟩ := fromStore_walkEntry hwalk step hmem hstatus
      refine hgrows _ ?_
      rcases hsettled id job hjob _ hstamp with hret | hrai
      · exact hret
      · rw [hreturned]
        rw [hraised] at hrai
        exact hcond settled dead steps hopen hdead hwalk step hmem hstatus hrai

theorem Consumer.MarksRan.next {s' : Consumer U C} {action : ConsumerAction U C}
    (hs : s.MarksRan) (hstep : consumer.next s action = some s') : s'.MarksRan := by
  cases action with
  | deliver d =>
    cases hstep
    exact processEntry_marksRan d hs
  | change id hash =>
    simp only [consumer] at hstep
    split at hstep
    · rename_i hsub
      cases hstep
      refine Store.StampsIn.set hs fun job heq x hx => ?_
      subst heq
      have hold := hsub x hx
      unfold stampedIn at hold
      split at hold
      · rename_i old hjob
        exact hs id old hjob x hold
      all_goals simp at hold
    · cases hstep

/-- **No handler is dropped.** From jobs without marks, after every run, a delivery that leaves no
exception open and is acknowledged has had the handler of every step of its walk return normally,
in this delivery or before. -/
theorem handlers_returned {s₀ : Consumer U C} {actions : List (ConsumerAction U C)}
    (hstart : ∀ id job, s₀.rq.store.get id = .job job → job.coreFinalize.stampedIds = [])
    (hrun : consumer.run s₀ actions = some s) (hcond : s.NoOutstanding d)
    (hacked : (processEntry d s).acked = true) :
    ∀ step ∈ (processEntry d s).walked, step.id ∈ (processEntry d s).consumer.returned := by
  have hinit : s₀.MarksRan := by
    intro id job hjob x hx
    simp [hstart id job hjob] at hx
  have hs := consumer.run_preserves Consumer.MarksRan (fun _ _ _ h hstep => h.next hstep) hinit hrun
  exact processEntry_returned hs hcond hacked

/-- **Marks do not lie.** From jobs without marks, in every run, a step that carries a mark has had
its handler run. -/
theorem ran_of_mark {s₀ : Consumer U C} {actions : List (ConsumerAction U C)}
    (hstart : ∀ id job, s₀.rq.store.get id = .job job → job.coreFinalize.stampedIds = [])
    (hrun : consumer.run s₀ actions = some s) {id x : Ident U} {job : Job U C}
    (hjob : s.rq.store.get id = .job job) (hx : x ∈ job.coreFinalize.stampedIds) :
    x ∈ s.returned ∨ x ∈ s.raised := by
  refine consumer.run_preserves Consumer.MarksRan (fun _ _ _ h hstep => h.next hstep) ?_ hrun id job
    hjob x hx
  intro id job hjob x hx
  simp [hstart id job hjob] at hx

end AtLeastOnce

/-! ## A failed job with one finalize step -/

/-- A storage job whose trailing `update_status` hangs off it. -/
def updateStatusChain : Consumer Nat Nat where
  rq :=
    { store := [(⟨0, []⟩, .job
        { status := .ok .started, dependencyIds := [], dependentIds := []
          coreFinalize := coreFinalizeOf ⟨0, []⟩ 0 (.core 7 .nil .nil) })]
      pushed := [⟨0, []⟩] }
  returned := []
  raised := []

def failedEntry (raises saveFails : Bool) : Delivery Nat Nat where
  entry := { kind := .result, taskId := ⟨0, []⟩, jobStatus := some .failed }
  registered := fun _ => true
  raises := fun _ => raises
  covered := fun _ => true
  fault := fun _ => none
  saveFails := fun _ => saveFails
  limit := 10

/-- The handler raises in the first delivery, which is not acknowledged. The second delivery
passes the step and is. -/
theorem dead_chain_drops_handler :
    ∃ s, consumer.run updateStatusChain [.deliver (failedEntry true false)] = some s
      ∧ (processEntry (failedEntry true false) updateStatusChain).acked = false
      ∧ (processEntry (failedEntry false false) s).acked = true
      ∧ (processEntry (failedEntry false false) s).walked.map Step.id = [Ident.step ⟨0, []⟩ 0]
      ∧ (processEntry (failedEntry false false) s).consumer.returned = [] :=
  ⟨_, rfl, rfl, rfl, rfl, rfl⟩

theorem updateStatusChain_unmarked (id : Ident Nat) (job : Job Nat Nat)
    (h : updateStatusChain.rq.store.get id = .job job) : job.coreFinalize.stampedIds = [] := by
  have hget : updateStatusChain.rq.store.get id
      = if id = ⟨0, []⟩ then updateStatusChain.rq.store.get ⟨0, []⟩ else .missing := by
    by_cases hid : id = ⟨0, []⟩
    · rw [if_pos hid, hid]
    · have hbeq : (id == ⟨0, []⟩) = false := beq_eq_false_iff_ne.mpr hid
      simp [updateStatusChain, Store.get, hid, lookup_cons, hbeq]
  rw [hget] at h
  split at h
  · cases h
    exact stampedIds_coreFinalizeOf _ _ _
  · cases h

/-- The handler raises in the first delivery, which cannot save its mark. So the second one runs it
again. -/
theorem unsaved_marks_redelivered :
    ∃ s, consumer.run updateStatusChain [.deliver (failedEntry true true)] = some s
      ∧ s.raised = [.step ⟨0, []⟩ 0] ∧ (processEntry (failedEntry false false) s).acked = true
      ∧ ∀ step ∈ (processEntry (failedEntry false false) s).walked,
        step.id ∈ (processEntry (failedEntry false false) s).consumer.returned := by
  have hrun : consumer.run updateStatusChain [.deliver (failedEntry true true)]
      = some (processEntry (failedEntry true true) updateStatusChain).consumer := rfl
  refine ⟨_, hrun, rfl, rfl, handlers_returned updateStatusChain_unmarked hrun ?_ rfl⟩
  -- the step carries no mark
  intro settled dead steps hopen _ hwalk step hmem hstatus _
  obtain ⟨rfl, rfl⟩ := Prod.mk.inj (Option.some.inj hopen)
  obtain rfl := Except.ok.inj hwalk
  obtain rfl := mem_singleton.mp hmem
  cases hstatus

theorem ran_of_mark_failed : ∃ s,
    consumer.run updateStatusChain [.deliver (failedEntry true false)] = some s
      ∧ (.step ⟨0, []⟩ 0 ∈ s.returned ∨ .step ⟨0, []⟩ 0 ∈ s.raised) := by
  obtain ⟨s, job, hrun, hjob, hmarks⟩ : ∃ s job,
      consumer.run updateStatusChain [.deliver (failedEntry true false)] = some s
        ∧ s.rq.store.get ⟨0, []⟩ = .job job
        ∧ job.coreFinalize.stampedIds = [.step ⟨0, []⟩ 0] := ⟨_, _, rfl, rfl, rfl⟩
  exact ⟨s, hrun, ran_of_mark updateStatusChain_unmarked hrun hjob (hmarks ▸ mem_singleton_self _)⟩

end IsardVDI.ChangeHandler
