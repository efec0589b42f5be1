import IsardVDI.ChangeHandler.CancelRace

/-!
# `models/task.py`, `streams/task_results_consumer.py` — what workers and dispatches can do

What one command of a worker or of a dispatch can do to the jobs, said once, and what holds of
the system whatever they do.

* `Sane` — the jobs hang together, what is on a queue or with a worker is a job of the chain, and
  entries are about jobs that were started. Every command keeps it.
-/

namespace IsardVDI.ChangeHandler

open List Function

section Parties

variable {U C W D : Type}

/-! ## Workers -/

def WorkerPhase.waiting : WorkerPhase U → List (Ident U)
  | .holding id => [id]
  | .finishing _ dependents => dependents
  | .idle | .running _ | .published _ _ => []

def WorkerPhase.working : WorkerPhase U → List (Ident U)
  | .running id | .published id _ | .finishing id _ => [id]
  | .idle | .holding _ => []

def System.Touched (s : System U C W D) (id : Ident U) : Prop :=
  id ∈ s.rq.pushed ∨ ∃ w, id ∈ (s.worker w).waiting ∨ id ∈ (s.worker w).working

variable {s s' : System U C W D}

theorem forall_worker_update [DecidableEq W] {w : W} (P : Ident U → Prop)
    (jobs : WorkerPhase U → List (Ident U)) {phase : WorkerPhase U}
    (h : ∀ w, ∀ id ∈ jobs (s.worker w), P id) (hphase : ∀ id ∈ jobs phase, P id) :
    ∀ w', ∀ id ∈ jobs (update s.worker w phase w'), P id := by
  intro w' id hid
  by_cases hw : w' = w
  · subst hw
    exact hphase id (by simpa using hid)
  · exact h w' id (by simpa [hw] using hid)

theorem forall_dispatcher_update [DecidableEq D] {d : D} {phase : DispatchPhase U C}
    {P : DispatchPhase U C → Prop} (h : ∀ d, P (s.dispatcher d))
    (hphase : P phase) (d' : D) : P (update s.dispatcher d phase d') := by
  by_cases hd : d' = d
  · subst hd
    simpa using hphase
  · simpa [hd] using h d'

variable [DecidableEq U]

/-- What every command does, but those of a build: it takes hold of a deferred dependent, or of a
job that was on a queue or with a worker. -/
structure Moves (s s' : System U C W D) : Prop where
  rewrites : Rewrites s.Touched s.rq.store s'.rq.store
  touched : ∀ id, s'.Touched id →
    s.Touched id ∨ (s.rq.store.There id ∧ s.rq.store.terminal id = false)
  started : ∀ id ∈ s.started, id ∈ s'.started
  working : ∀ w, ∀ id ∈ (s'.worker w).working, id ∈ s'.started
  entries : ∀ entry ∈ s.entries, entry ∈ s'.entries
  published : ∀ entry ∈ s'.entries, entry ∈ s.entries ∨ entry.kind = .canceled
    ∨ (entry.taskId ∈ s.started ∧ s.Touched entry.taskId)

/-- What workers and dispatches do. -/
structure Besides (s s' : System U C W D) : Prop extends Moves s s' where
  canceller : s'.canceller = s.canceller
  ended : ∀ id, s'.rq.store.terminal id = true → s.rq.store.terminal id = true ∨ id ∈ s.started

structure Worked (s s' : System U C W D) : Prop extends Besides s s' where
  dispatcher : s'.dispatcher = s.dispatcher
  begun : ∀ id ∈ s'.started, id ∈ s.started ∨ s.Touched id

variable {store : Store U C} {dead : Option JobStatus} {anchor : Ident U} {knot : Ident U × Child C}
  {entry : Entry U} {command : DispatchCommand} {children : List (Ident U × Child C)}

section Work

variable [DecidableEq W] {w : W}

theorem Worked.of {phase : WorkerPhase U} {rq : Rq U C} {entries : List (Entry U)}
    {started : List (Ident U)} (hworking : ∀ w, ∀ id ∈ (s.worker w).working, id ∈ s.started)
    (hrewrites : Rewrites s.Touched s.rq.store rq.store) (hpushed : ∀ id ∈ rq.pushed, s.Touched id)
    (hended : ∀ id, rq.store.terminal id = true → s.rq.store.terminal id = true ∨ id ∈ s.started)
    (hwaiting : ∀ id ∈ phase.waiting,
      s.Touched id ∨ (s.rq.store.There id ∧ s.rq.store.terminal id = false)
      := by simp [WorkerPhase.waiting])
    (hphase : ∀ id ∈ phase.working, s.Touched id ∧ id ∈ started := by simp [WorkerPhase.working])
    (hstarted : ∀ id ∈ s.started, id ∈ started := by exact fun _ h => h)
    (hbegun : ∀ id ∈ started, id ∈ s.started ∨ s.Touched id := by exact fun _ h => .inl h)
    (hentries : ∀ entry ∈ s.entries, entry ∈ entries := by exact fun _ h => h)
    (hpublished : ∀ entry ∈ entries, entry ∈ s.entries
      ∨ (entry.taskId ∈ s.started ∧ s.Touched entry.taskId) := by exact fun _ h => .inl h) :
    Worked s { s with
      rq := rq, worker := update s.worker w phase, entries := entries
      started := started } where
  dispatcher := rfl
  canceller := rfl
  rewrites := hrewrites
  touched := by
    rintro id (hid | ⟨w', hid | hid⟩)
    · exact .inl (hpushed id hid)
    · exact forall_worker_update
        (fun id => s.Touched id ∨ (s.rq.store.There id ∧ s.rq.store.terminal id = false))
        WorkerPhase.waiting (fun w id hid => .inl (.inr ⟨w, .inl hid⟩)) hwaiting w' id hid
    · exact .inl (forall_worker_update s.Touched WorkerPhase.working
        (fun w id hid => .inr ⟨w, .inr hid⟩) (fun id hid => (hphase id hid).1) w' id hid)
  ended := hended
  started := hstarted
  begun := hbegun
  working := forall_worker_update (· ∈ started) WorkerPhase.working
    (fun w id hid => hstarted id (hworking w id hid)) fun id hid => (hphase id hid).2
  entries := hentries
  published := fun entry hentry => (hpublished entry hentry).imp_right .inr

theorem mem_deferredDependents {id id' : Ident U} (h : id' ∈ deferredDependents store id) :
    store.There id' ∧ store.terminal id' = false := by
  unfold deferredDependents at h
  split at h
  · simp at h
  · rw [mem_dedup, mem_filter, Bool.and_eq_true] at h
    obtain ⟨-, -, h⟩ := h
    split at h
    · rename_i job hjob
      split at h
      · rename_i status hstatus
        obtain rfl : status = .deferred := by simpa using h
        exact ⟨by simp [Store.There, Store.metadata, hjob],
          by simp [Store.terminal, Store.holds, hjob, Job.terminal, hstatus, JobStatus.terminal]⟩
      · cases h
    · cases h

theorem worked_of_work {command : WorkerCommand U}
    (hworking : ∀ w, ∀ id ∈ (s.worker w).working, id ∈ s.started) (h : s.work w command = some s') :
    Worked s s' := by
  have hpushed : ∀ id ∈ s.rq.pushed, s.Touched id := fun _ hid => .inl hid
  have hself : ∀ id, id ∈ (s.worker w).waiting ∨ id ∈ (s.worker w).working → s.Touched id :=
    fun id hid => .inr ⟨w, hid⟩
  have hbegun := hworking w
  unfold System.work at h
  split at h
  · -- pop
    rename_i id hphase
    split at h
    · rename_i hmem
      cases h
      refine Worked.of hworking (.refl _ _) ?_ (fun _ h => .inl h) ?_
      · exact fun i hi => hpushed i (mem_of_mem_erase hi)
      · simpa [WorkerPhase.waiting] using .inl (hpushed id hmem)
    · cases h
  · -- push back
    rename_i id hphase
    simp only [hphase, WorkerPhase.waiting, mem_singleton] at hself
    cases h
    refine Worked.of hworking (.refl _ _) (fun i hi => ?_) fun _ h => .inl h
    rcases mem_cons.mp hi with rfl | hi
    · exact hself i (.inl rfl)
    · exact hpushed i hi
  · -- start
    rename_i id hphase
    simp only [hphase, WorkerPhase.waiting, mem_singleton] at hself
    have hid : s.Touched id := hself id (.inl rfl)
    cases h
    refine Worked.of hworking (rewrites_setStatus (.inl hid)) hpushed ?_
      (by simp [WorkerPhase.waiting]) ?_ (fun _ h => .tail _ h) ?_
    · exact fun i hi => .inl (terminal_of_setStatus rfl hi)
    · simpa [WorkerPhase.working] using hid
    · intro i hi
      rcases mem_cons.mp hi with rfl | hi
      · exact .inr hid
      · exact .inl hi
  · -- publish
    rename_i id ok hphase
    simp only [hphase, WorkerPhase.working, mem_singleton] at hself hbegun
    have hid : s.Touched id := hself id (.inr rfl)
    cases h
    refine Worked.of hworking (.refl _ _) hpushed (fun _ h => .inl h)
      (by simp [WorkerPhase.waiting]) ?_ (fun _ h => h) (fun _ h => .inl h)
      (fun _ h => mem_append_left _ h) ?_
    · simpa [WorkerPhase.working] using ⟨hid, hbegun id rfl⟩
    · intro entry hentry
      rcases mem_append.mp hentry with hentry | hentry
      · exact .inl hentry
      · rw [mem_singleton.mp hentry]
        exact .inr ⟨hbegun id rfl, hid⟩
  · -- the dependents are read
    rename_i id hphase
    simp only [hphase, WorkerPhase.working, mem_singleton] at hself hbegun
    cases h
    refine Worked.of hworking (.refl _ _) hpushed (fun _ h => .inl h) ?_ ?_
    · exact fun i hi => .inr (mem_deferredDependents hi)
    · simpa [WorkerPhase.working] using ⟨hself id (.inr rfl), hbegun id rfl⟩
  · -- complete
    rename_i id dependents hphase
    simp only [hphase, WorkerPhase.waiting, WorkerPhase.working, mem_singleton] at hself hbegun
    cases h
    refine Worked.of hworking ?_ ?_ ?_
    · exact (rewrites_pushes fun i hi => hself i (.inl hi)).trans
        (rewrites_setStatus (.inr rfl))
    · intro i hi
      rcases mem_pushed_of_pushes hi with hi | hi
      · exact hself i (.inl hi)
      · exact hpushed i hi
    · intro i hi
      rcases terminal_setStatus hi with ⟨rfl, -⟩ | hi
      · exact .inr (hbegun i rfl)
      · exact .inl (terminal_of_pushes hi)
  · -- fail
    rename_i id hphase
    simp only [hphase, WorkerPhase.working, mem_singleton] at hbegun
    cases h
    refine Worked.of hworking (rewrites_setStatus (.inr rfl)) hpushed fun i hi => ?_
    rcases terminal_setStatus hi with ⟨rfl, -⟩ | hi
    · exact .inr (hbegun i rfl)
    · exact .inl hi
  · -- retry
    rename_i id hphase
    simp only [hphase, WorkerPhase.working, mem_singleton] at hself hbegun
    cases h
    refine Worked.of hworking (rewrites_push (hself id (.inr rfl))) ?_ ?_
    · intro i hi
      rcases mem_cons.mp hi with rfl | hi
      · exact hself i (.inr rfl)
      · exact hpushed i hi
    · exact fun i hi => .inl (terminal_of_setStatus rfl hi)
  · cases h

end Work

/-! ## What holds in every run -/

def DispatchPhase.commands : DispatchPhase U C → List (BuildCommand U C)
  | .building _ commands _ => commands
  | .idle | .received _ | .settling _ _ | .marking _ _ | .waiting _ => []

/-- The dependents of the job are not in its metadata yet: a build will write them. -/
def System.Pending (s : System U C W D) (id : Ident U) : Prop :=
  ∃ d, ∃ command ∈ (s.dispatcher d).commands, command.Links id

def System.Knows (s : System U C W D) (b : Blueprint U C) : DispatchPhase U C → Prop
  | .idle | .waiting _ => True
  | .received entry => entry ∈ s.entries
  | .settling entry _ | .marking entry _ => entry.taskId ∈ s.started
  | .building anchor commands children =>
    s.rq.store.There anchor ∧ Program b s.rq.store.There commands
      ∧ ∀ knot ∈ children, b.Declares anchor knot.1 ∧ b.site knot.1 = .job knot.2.dependents

structure Sane (b : Blueprint U C) (s : System U C W D) : Prop where
  attached : Attached b s.Pending s.rq.store
  dispatch : ∀ d, s.Knows b (s.dispatcher d)
  touched : ∀ id, s.Touched id → s.rq.store.There id
  working : ∀ w, ∀ id ∈ (s.worker w).working, id ∈ s.started
  entries : ∀ entry ∈ s.entries, entry.kind = .canceled ∨ entry.taskId ∈ s.started

variable {b : Blueprint U C}

theorem System.Knows.mono {phase : DispatchPhase U C} (h : s.Knows b phase)
    (hthere : ∀ id, s.rq.store.There id → s'.rq.store.There id)
    (hentries : ∀ entry ∈ s.entries, entry ∈ s'.entries)
    (hstarted : ∀ id ∈ s.started, id ∈ s'.started) : s'.Knows b phase := by
  cases phase with
  | idle | waiting anchor => trivial
  | received entry => exact hentries entry h
  | settling entry dead | marking entry dead => exact hstarted _ h
  | building anchor commands children =>
    exact ⟨hthere anchor h.1, h.2.1.mono hthere, h.2.2⟩

theorem Moves.sane (h : Moves s s') (hs : Sane b s) (hpending : ∀ id, s.Pending id → s'.Pending id)
    (hdispatch : ∀ d, s.Knows b (s'.dispatcher d)) : Sane b s' where
  attached := hs.attached.of_metadata_eq h.rewrites.metadata hpending
  dispatch := fun d =>
    (hdispatch d).mono (fun id => (h.rewrites.there_iff id).mpr) h.entries h.started
  touched := by
    intro id hid
    rw [h.rewrites.there_iff]
    exact (h.touched id hid).elim (hs.touched id) And.left
  working := h.working
  entries := by
    intro entry hentry
    rcases h.published entry hentry with hold | hkind | ⟨hstarted, -⟩
    · exact (hs.entries entry hold).imp_right (h.started _)
    · exact .inl hkind
    · exact .inr (h.started _ hstarted)

theorem Moves.sane_of_eq (h : Moves s s') (hdispatcher : s'.dispatcher = s.dispatcher)
    (hs : Sane b s) : Sane b s' := by
  refine h.sane hs (fun id hid => ?_) ?_
  · unfold System.Pending
    rwa [hdispatcher]
  · rw [hdispatcher]
    exact hs.dispatch

/-- A command that leaves the workers alone. -/
theorem Sane.moves (hs : Sane b s) (hworker : s'.worker = s.worker)
    (hstarted : s'.started = s.started) (hpushed : ∀ id ∈ s'.rq.pushed, id ∈ s.rq.pushed)
    (hrewrites : Rewrites s.Touched s.rq.store s'.rq.store)
    (hentries : ∀ entry ∈ s.entries, entry ∈ s'.entries)
    (hannounced : ∀ entry ∈ s'.entries, entry ∈ s.entries ∨ entry.kind = .canceled) :
    Moves s s' where
  rewrites := hrewrites
  touched := by
    intro id hid
    unfold System.Touched at hid
    rw [hworker] at hid
    exact .inl (hid.imp_left (hpushed id))
  started := by
    rw [hstarted]
    exact fun _ h => h
  working := by
    rw [hworker, hstarted]
    exact hs.working
  entries := hentries
  published := fun entry hentry => (hannounced entry hentry).imp_right .inl

/-! ## Dispatches -/

def KnotsThere (store : Store U C) (id : Ident U) : Prop :=
  ∀ m, store.metadata id = some m → ∀ child ∈ m.coreFinalize.knotChildIds,
    store.exists child = true

/-- A dispatch that found no cancel record has no knot child to build. -/
def DispatchPhase.Harmless (store : Store U C) : DispatchPhase U C → Prop
  | .idle | .received _ => True
  | .settling entry dead | .marking entry dead => dead = none → KnotsThere store entry.taskId
  | .waiting anchor => KnotsThere store anchor
  | .building _ commands children => commands = [] ∧ ∀ knot ∈ children, store.exists knot.1 = true

def Entry.succeeds (entry : Entry U) : Bool :=
  !(entry.kind = .canceled || entry.jobStatus = some .canceled || entry.jobStatus = some .failed)

variable {d : D} {phase : DispatchPhase U C}

variable {forest : Forest U C}

theorem mem_walkForest_knots {parent : Parent U} {visited : List (Ident U)} {step : Step U C}
    (hdead : dead = none) (h : step ∈ (walkForest dead anchor parent forest visited).1) :
    ∀ knot ∈ knotChildren step.id step.storageDependents, knot ∈ forest.knots := by
  induction forest generalizing parent visited with
  | nil => simp [walkForest] at h
  | node id spec status coreFinalize storageDependents unbuilt rest ihc _ ihr =>
    intro knot hknot
    simp only [Forest.knots, mem_append]
    subst hdead
    unfold walkForest at h
    split at h
    · exact .inr (ihr h knot hknot)
    · simp only [append_nil, mem_cons, mem_append] at h
      rcases h with rfl | h | h
      · exact .inl (.inl hknot)
      · exact .inl (.inr (ihc h knot hknot))
      · exact .inr (ihr h knot hknot)

theorem mem_liveKnots (h : knot ∈ liveKnots anchor forest) : knot ∈ forest.knots := by
  obtain ⟨step, hstep, hknot⟩ := mem_flatMap.mp h
  exact mem_walkForest_knots rfl hstep knot hknot

variable {job : Job U C}

omit [DecidableEq U] in
theorem Entry.of_deadChain_none (h : entry.deadChain job = none) :
    entry.succeeds = true ∧ job.canceledAt = false := by
  unfold deadChain at h
  split at h
  · cases h
  · rename_i hcanceled
    split at h
    · cases h
    · rename_i hfailed
      simp only [Bool.or_eq_true, decide_eq_true_eq, not_or, Bool.not_eq_true] at hcanceled
      simp [succeeds, hcanceled, hfailed]

/-- A dispatch that finds no cancel record finds every knot child of its task there. -/
def System.RecordHarmless (s : System U C W D) (d : D) : Prop :=
  ∀ entry job, s.dispatcher d = .received entry → s.rq.store.fetch entry.taskId = some job →
    entry.deadChain job = none → KnotsThere s.rq.store entry.taskId

theorem settled_knows (s : System U C W D) (b : Blueprint U C) (entry : Entry U)
    (dead : Option JobStatus) : s.Knows b (.settled entry dead) := by
  cases dead <;> trivial

theorem settled_harmless (h : dead = none → KnotsThere store entry.taskId) :
    (DispatchPhase.settled entry dead : DispatchPhase U C).Harmless store := by
  cases dead with
  | none => exact h rfl
  | some status => trivial

theorem knows_liveKnots (hs : Sane b s) (hjob : s.rq.store.fetch anchor = some job) :
    s.Knows b (.building anchor [] (liveKnots anchor job.coreFinalize)) := by
  have hm : s.rq.store.metadata anchor = some job.metadata := by simp [Store.metadata, hjob]
  refine ⟨by simp [Store.There, hm], trivial, fun knot hknot => ?_⟩
  have hfits := hs.attached anchor _ hm
  obtain ⟨deps, hsite⟩ := hfits.site
  have hmem := mem_liveKnots hknot
  rcases hfits.tree with hnil | htree
  · rw [show job.coreFinalize = .nil from hnil] at hmem
    simp [Forest.knots] at hmem
  · rw [show job.coreFinalize = b.coreFinalize anchor from htree] at hmem
    exact Blueprint.declares_knot hsite hmem

variable [DecidableEq D]

/-- What one command of a dispatch can do, apart from the commands of a build. -/
structure Dispatched (s s' : System U C W D) (d : D) (phase : DispatchPhase U C) : Prop
    extends Besides s s' where
  dispatcher : s'.dispatcher = update s.dispatcher d phase
  begun : s'.started = s.started

theorem Dispatched.sane (h : Dispatched s s' d phase) (hs : Sane b s)
    (hcommands : (s.dispatcher d).commands = []) (hphase : s.Knows b phase) : Sane b s' := by
  refine h.toMoves.sane hs ?_ fun d' => ?_
  · rintro id ⟨d', command, hmem, hlinks⟩
    have hne : d' ≠ d := by
      rintro rfl
      simp [hcommands] at hmem
    refine ⟨d', command, ?_, hlinks⟩
    rw [h.dispatcher]
    simpa [hne] using hmem
  · rw [h.dispatcher]
    exact forall_dispatcher_update hs.dispatch hphase d'

structure Leads (b : Blueprint U C) (s s' : System U C W D) (d : D) (command : DispatchCommand)
    (phase : DispatchPhase U C) : Prop where
  dispatched : Dispatched s s' d phase
  commands : (s.dispatcher d).commands = []
  knows : s.Knows b phase
  harmless : (s.dispatcher d).Harmless s.rq.store →
    (command = .checkRecord → s.RecordHarmless d) → phase.Harmless s.rq.store

variable (hs : Sane b s)

include hs

theorem Leads.of_set {old : DispatchPhase U C} {locks : List (Ident U)}
    (hold : s.dispatcher d = old) (hcommands : old.commands = []) (hknows : s.Knows b phase)
    (hharmless : old.Harmless s.rq.store → (command = .checkRecord → s.RecordHarmless d) →
      phase.Harmless s.rq.store) :
    Leads b s { s.setDispatcher d phase with locks } d command phase where
  dispatched := ⟨⟨hs.moves rfl rfl (fun _ h => h) (.refl _ _) (fun _ h => h) (fun _ h => .inl h),
    rfl, fun _ h => .inl h⟩, rfl, rfl⟩
  commands := hold ▸ hcommands
  knows := hknows
  harmless := by
    rw [hold]
    exact hharmless

theorem leads_checkRecord (hphase : s.dispatcher d = .received entry)
    (h : s.dispatch d .checkRecord = some s') : ∃ phase, Leads b s s' d .checkRecord phase := by
  have hknows := hs.dispatch d
  rw [hphase] at hknows
  simp only [System.dispatch, hphase] at h
  split at h
  · cases h
    exact ⟨.idle, .of_set hs hphase rfl trivial fun _ _ => trivial⟩
  · rename_i job hjob
    split at h
    · cases h
      exact ⟨.idle, .of_set hs hphase rfl trivial fun _ _ => trivial⟩
    · rename_i hlive
      cases h
      refine ⟨.settling entry (entry.deadChain job), .of_set hs hphase rfl ?_ ?_⟩
      · -- it is the entry of a worker
        refine (hs.entries entry hknows).resolve_left fun hkind => hlive ?_
        simp [Entry.deadChain, hkind]
      · exact fun _ hrecord hdead => hrecord rfl entry job hphase hjob hdead

theorem leads_readStatus (hphase : s.dispatcher d = .settling entry dead)
    (h : s.dispatch d .readStatus = some s') : ∃ phase, Leads b s s' d .readStatus phase := by
  have hknows := hs.dispatch d
  rw [hphase] at hknows
  have hsettled : Leads b s (s.setDispatcher d (.settled entry dead)) d .readStatus
      (.settled entry dead) :=
    .of_set hs hphase rfl (settled_knows s b entry dead) fun hharmless _ =>
      settled_harmless hharmless
  simp only [System.dispatch, hphase] at h
  split at h
  · cases h
    exact ⟨_, hsettled⟩
  · split at h
    · cases h
      exact ⟨_, hsettled⟩
    · cases h
      exact ⟨.marking entry dead, .of_set hs hphase rfl hknows fun hharmless _ => hharmless⟩

theorem leads_writeStatus (hphase : s.dispatcher d = .marking entry dead)
    (h : s.dispatch d .writeStatus = some s') : ∃ phase, Leads b s s' d .writeStatus phase := by
  have hknows := hs.dispatch d
  rw [hphase] at hknows
  have hterminal : (if entry.jobStatus = some .failed then JobStatus.failed
      else .finished).terminal = true := by
    split <;> rfl
  simp only [System.dispatch, hphase] at h
  cases h
  refine ⟨.settled entry dead, ⟨⟨?_, rfl, ?_⟩, rfl, rfl⟩, ?_, settled_knows s b entry dead, ?_⟩
  · exact hs.moves rfl rfl (fun _ h => h) (rewrites_setStatus (.inr hterminal)) (fun _ h => h)
      fun _ h => .inl h
  · intro id hid
    rcases terminal_setStatus hid with ⟨rfl, -⟩ | hid
    · exact .inr hknows
    · exact .inl hid
  · rw [hphase]
    rfl
  · rw [hphase]
    exact fun hharmless _ => settled_harmless hharmless

theorem leads_walk (hphase : s.dispatcher d = .waiting anchor) (h : s.dispatch d .walk = some s') :
    ∃ phase, Leads b s s' d .walk phase := by
  simp only [System.dispatch, hphase] at h
  split at h
  · cases h
  · split at h
    · cases h
      exact ⟨.idle, .of_set hs hphase rfl trivial fun _ _ => trivial⟩
    · rename_i job hjob
      cases h
      refine ⟨_, .of_set hs hphase rfl (knows_liveKnots hs hjob) fun hharmless _ =>
        ⟨rfl, fun knot hknot => ?_⟩⟩
      exact hharmless job.metadata (by simp [Store.metadata, hjob]) knot.1
        (Forest.mem_knotChildIds (mem_liveKnots hknot))

theorem leads_next (hphase : s.dispatcher d = .building anchor [] (knot :: children)) :
    Leads b s (s.setDispatcher d (.building anchor [] children)) d command
      (.building anchor [] children) := by
  have hknows := hs.dispatch d
  rw [hphase] at hknows
  refine .of_set hs hphase rfl ?_ ?_
  · exact ⟨hknows.1, trivial, fun k hk => hknows.2.2 k (.tail _ hk)⟩
  · exact fun hharmless _ => ⟨rfl, fun k hk => hharmless.2 k (.tail _ hk)⟩

theorem leads_checkExists (hphase : s.dispatcher d = .building anchor [] (knot :: children))
    (h : s.dispatch d .checkExists = some s') : ∃ phase, Leads b s s' d .checkExists phase := by
  have hknows := hs.dispatch d
  rw [hphase] at hknows
  simp only [System.dispatch, hphase] at h
  split at h
  · cases h
    exact ⟨_, leads_next hs hphase⟩
  · rename_i hmissing
    cases h
    obtain ⟨hdecl, hsite⟩ := hknows.2.2 knot (.head _)
    refine ⟨_, .of_set hs hphase rfl ⟨hknows.1, program_buildTask hsite hknows.1 hdecl, ?_⟩ ?_⟩
    · exact fun k hk => hknows.2.2 k (.tail _ hk)
    · exact fun hharmless _ => absurd (hharmless.2 knot (.head _)) hmissing

/-- **A command of a dispatch** moves it on, or is a command of a build. -/
theorem dispatch_cases (h : s.dispatch d command = some s') :
    (∃ phase, Leads b s s' d command phase)
      ∨ ∃ anchor first commands children,
        s.dispatcher d = .building anchor (first :: commands) children
        ∧ s' = { s.setDispatcher d (.building anchor commands children) with
            rq := first.exec s.rq } := by
  have hstep := h
  unfold System.dispatch at h
  split at h
  · rename_i index hphase
    obtain ⟨entry, hentry, rfl⟩ := Option.map_eq_some_iff.mp h
    exact .inl ⟨.received entry, .of_set hs hphase rfl (mem_of_getElem? hentry) fun _ _ => trivial⟩
  · rename_i entry hphase
    exact .inl (leads_checkRecord hs hphase hstep)
  · rename_i entry dead hphase
    exact .inl (leads_readStatus hs hphase hstep)
  · rename_i entry dead hphase
    exact .inl (leads_writeStatus hs hphase hstep)
  · rename_i anchor hphase
    exact .inl (leads_walk hs hphase hstep)
  · rename_i anchor knot children hphase
    cases h
    exact .inl ⟨_, leads_next hs hphase⟩
  · rename_i anchor knot children hphase
    exact .inl (leads_checkExists hs hphase hstep)
  · rename_i anchor first commands children hphase
    cases h
    exact .inr ⟨anchor, first, commands, children, hphase, rfl⟩
  · rename_i anchor hphase
    cases h
    exact .inl ⟨.idle, .of_set hs hphase rfl trivial fun _ _ => trivial⟩
  · cases h

theorem Sane.build {first : BuildCommand U C} {commands : List (BuildCommand U C)}
    (hphase : s.dispatcher d = .building anchor (first :: commands) children) :
    Sane b { s.setDispatcher d (.building anchor commands children) with
      rq := first.exec s.rq } := by
  have hknows := hs.dispatch d
  rw [hphase] at hknows
  obtain ⟨hanchor, ⟨hfits, hprogram⟩, hchildren⟩ := hknows
  have hthere : ∀ id, s.rq.store.There id → (first.exec s.rq).store.There id :=
    fun id hid => BuildCommand.there_exec (.inl hid)
  refine ⟨?_, ?_, ?_, hs.working, hs.entries⟩
  · refine hs.attached.exec hfits ?_ ?_
    · rintro id ⟨d', command, hmem, hlinks⟩
      by_cases hd : d' = d
      · subst hd
        rw [hphase] at hmem
        rcases mem_cons.mp hmem with rfl | hmem
        · exact .inr hlinks
        · exact .inl ⟨d', command, by simpa [System.setDispatcher, DispatchPhase.commands], hlinks⟩
      · exact .inl ⟨d', command, by simpa [System.setDispatcher, hd] using hmem, hlinks⟩
    · intro id hcreates
      cases first with
      | save id' job =>
        cases hcreates
        obtain ⟨command, hmem, hlinks⟩ := hfits.2.2
        exact ⟨d, command, by simpa [System.setDispatcher, DispatchPhase.commands], hlinks⟩
      | saveMeta _ _ _ | defer _ | saveAgain _ | push _ | index _ => cases hcreates
  · intro d'
    by_cases hd : d' = d
    · subst hd
      simp only [System.setDispatcher, update_self]
      exact ⟨hthere anchor hanchor, hprogram.mono fun id => BuildCommand.there_exec, hchildren⟩
    · simp only [System.setDispatcher, ne_eq, hd, not_false_eq_true, update_of_ne]
      exact (hs.dispatch d').mono hthere (fun _ h => h) fun _ h => h
  · rintro id (hid | hid)
    · exact BuildCommand.pushed_exec (fun i hi => hs.touched i (.inl hi)) hfits id hid
    · exact hthere id (hs.touched id (.inr hid))

end Parties

end IsardVDI.ChangeHandler
