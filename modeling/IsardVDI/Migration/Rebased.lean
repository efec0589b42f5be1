import IsardVDI.Migration.Files

/-!
# What the file of a disk is based on

The rebase of a disk writes into its file the path its parent moves to, and the verify reads it
back. Between them and the release of the tree nothing else may write the file: a move that is
placed again, or one that was lost and is not gone, would copy the old pointer over it.
-/

namespace IsardVDI.Migration.Saga

open IsardVDI.Storage
open List Function

/-! ## Tasks and their ends -/

inductive Life where
  | waiting
  | finished
  | dead
  deriving DecidableEq, Repr

/-- What the runner sees of the tasks: one that is seen finished is, and one that is seen failed or
gone waits no more. -/
def Agrees (life : Nat → Life) (count : Nat) (status : Nat → Option JobStatus) : Prop :=
  ∀ n < count, (jobFinished (status n) = true → life n = .finished)
    ∧ (jobFailed (status n) = true ∨ status n = none → life n ≠ .waiting)

instance (life : Nat → Life) (count : Nat) (status : Nat → Option JobStatus) :
    Decidable (Agrees life count status) := inferInstanceAs (Decidable (∀ n < count, _))

section Disk

variable {I D P : Type}

/-! ## A disk and its file -/

def Rebased (files : Files P) (x : Planned I P) : Prop :=
  ∀ q, x.topoIndex ≠ 0 → x.parentDstPath = some q →
    files x.dstPath = none ∨ files x.dstPath = some (some q)

/-- Nothing is to be rebased, or it is a copy. -/
def Free (x : Planned I P) : Prop :=
  x.dstPath = x.srcPath → x.topoIndex = 0 ∨ x.parentDstPath = none

structure DiskOk (jobs : List (Job I P)) (life : Nat → Life) (files : Files P) (x : Planned I P)
    (core : Core) : Prop where
  move : ∀ n srcPath dstPath, jobs[n]? = some (.move x.storageId srcPath dstPath) →
    life n = .waiting →
    core.state.givenUp ∨ core.state = .moving ∧ core.moveTaskId = some (.job n)
  early : core.state = .pending ∨ core.state = .moving → core.rebaseTaskId = none
  slot : core.state = .moved → ∀ n, core.rebaseTaskId = some (.job n) →
    jobs[n]? = some (.rebase x.storageId x.dstPath x.parentDstPath)
      ∧ (life n = .finished → Rebased files x)
  repairing : core.state = .repairing → Free x
  inPlace : core.state = .rebased → x.dstPath = x.srcPath → Rebased files x
  gate : core.state = .rebased → ∀ v, core.verifyTaskId = some (.job v) →
    life v = .finished → Rebased files x
  passed : core.state = .rebased → core.verifyPassed → Rebased files x
  committed : core.state = .dbUpdated ∨ core.state = .released → Rebased files x

variable {jobs more : List (Job I P)} {life : Nat → Life} {files files' : Files P} {core : Core}
  {n : Nat} {job : Job I P} {id : I} {plan : List (Planned I P)}

theorem rebased_of_isRoot {x : Item I D P} (h : x.isRoot = true) :
    Rebased files x.toPlanned := by
  intro q hindex hparent
  simp [Item.isRoot, hparent, hindex] at h

theorem of_getElem?_append (h : (jobs ++ more)[n]? = some job) :
    jobs[n]? = some job ∨ jobs.length ≤ n ∧ job ∈ more := by
  by_cases hlt : n < jobs.length
  · rw [getElem?_append_left hlt] at h
    exact .inl h
  · rw [getElem?_append_right (by omega)] at h
    exact .inr ⟨by omega, mem_of_getElem? h⟩

theorem getElem?_append (more : List (Job I P)) (h : jobs[n]? = some job) :
    (jobs ++ more)[n]? = some job := by
  rw [getElem?_append_left (List.getElem?_eq_some_iff.mp h).1]
  exact h

def NoMove (jobs : List (Job I P)) (life : Nat → Life) (id : I) : Prop :=
  ∀ n srcPath dstPath, jobs[n]? = some (.move id srcPath dstPath) → life n ≠ .waiting

theorem NoMove.move (h : NoMove jobs life id) (n : Nat) (srcPath dstPath : P)
    (hjob : jobs[n]? = some (.move id srcPath dstPath)) (hlife : life n = .waiting) :
    core.state.givenUp ∨ core.state = .moving ∧ core.moveTaskId = some (.job n) :=
  absurd hlife (h n srcPath dstPath hjob)

theorem NoMove.append (h : NoMove jobs life id)
    (hmore : ∀ srcPath dstPath, .move id srcPath dstPath ∉ more) :
    NoMove (jobs ++ more) life id := by
  intro n srcPath dstPath hjob
  rcases of_getElem?_append hjob with hjob | ⟨-, hjob⟩
  · exact h n srcPath dstPath hjob
  · exact absurd hjob (hmore srcPath dstPath)

namespace DiskOk

variable {x : Planned I P}

theorem of_givenUp (h : core.state.givenUp) : DiskOk jobs life files x core := by
  refine ⟨fun _ _ _ _ _ => .inl h, ?_, ?_, ?_, ?_, ?_, ?_, ?_⟩ <;> intro hstate <;>
    rcases ItemState.eq_of_givenUp h with hs | hs <;> simp [hs] at hstate

theorem of_early (hmove : NoMove jobs life x.storageId)
    (hstate : core.state = .pending ∨ core.state = .moving ∨ core.state = .moved)
    (hslot : core.rebaseTaskId = none) : DiskOk jobs life files x core := by
  refine ⟨hmove.move, fun _ => hslot, fun _ n hn => ?_, ?_, ?_, ?_, ?_, ?_⟩
  · cases hn.symm.trans hslot
  all_goals
    intro h
    rcases hstate with hs | hs | hs <;> simp [hs] at h

theorem of_rebased (hmove : NoMove jobs life x.storageId) (hstate : core.state = .rebased)
    (hplace : x.dstPath = x.srcPath → Rebased files x)
    (hgate : ∀ v, core.verifyTaskId = some (.job v) → life v = .finished → Rebased files x)
    (hpassed : core.verifyPassed → Rebased files x) : DiskOk jobs life files x core := by
  refine ⟨hmove.move, ?_, ?_, ?_, fun _ => hplace, fun _ => hgate, fun _ => hpassed, ?_⟩ <;>
    intro h <;> simp [hstate] at h

theorem of_committed (hmove : NoMove jobs life x.storageId)
    (hstate : core.state = .dbUpdated ∨ core.state = .released) (h : Rebased files x) :
    DiskOk jobs life files x core := by
  refine ⟨hmove.move, ?_, ?_, ?_, ?_, ?_, ?_, fun _ => h⟩ <;> intro h <;>
    rcases hstate with hs | hs <;> simp [hs] at h

theorem noMove (h : DiskOk jobs life files x core) (hmoving : core.state ≠ .moving)
    (hgiven : core.state.givenUp = false) : NoMove jobs life x.storageId := by
  intro n srcPath dstPath hjob hlife
  rcases h.move n srcPath dstPath hjob hlife with hend | ⟨hstate, -⟩
  · rw [hgiven] at hend
    cases hend
  · exact hmoving hstate

theorem follows (h : DiskOk jobs life files x core)
    (hmore : ∀ job ∈ more, ¬ job.Touches x.storageId) : DiskOk (jobs ++ more) life files x core :=
  { h with
    move n srcPath dstPath hjob hlife := by
      rcases of_getElem?_append hjob with hjob | ⟨-, hjob⟩
      · exact h.move n srcPath dstPath hjob hlife
      · exact absurd rfl (hmore _ hjob)
    slot hstate n hslot :=
      ⟨getElem?_append more (h.slot hstate n hslot).1, (h.slot hstate n hslot).2⟩ }

theorem life_of_update {m : Nat} {l l' : Life} (hne : l ≠ l')
    (h : update life n l' m = l) : life m = l := by
  by_cases hmn : m = n
  · rw [hmn, update_self] at h
    exact absurd h.symm hne
  · rwa [update_of_ne hmn] at h

section

variable (h : DiskOk jobs life files x core)

include h

theorem of_files (hkeep : core.state ≠ .moving → core.state.givenUp = false → Rebased files x →
      Rebased files' x) : DiskOk jobs life files' x core := by
  have hpast : core.state = .moved ∨ core.state = .rebased ∨ core.state = .dbUpdated
      ∨ core.state = .released → Rebased files x → Rebased files' x := by
    intro hstate
    refine hkeep ?_ ?_ <;> rcases hstate with hs | hs | hs | hs <;>
      simp [hs, ItemState.givenUp]
  refine ⟨h.move, h.early, fun hstate n hslot => ⟨(h.slot hstate n hslot).1, fun hlife => ?_⟩,
    h.repairing, fun hstate hplace => ?_, fun hstate v hslot hlife => ?_,
    fun hstate hpassed => ?_, fun hstate => ?_⟩
  · exact hpast (.inl hstate) ((h.slot hstate n hslot).2 hlife)
  · exact hpast (.inr (.inl hstate)) (h.inPlace hstate hplace)
  · exact hpast (.inr (.inl hstate)) (h.gate hstate v hslot hlife)
  · exact hpast (.inr (.inl hstate)) (h.passed hstate hpassed)
  · exact hpast (.inr (.inr hstate)) (h.committed hstate)

theorem die (n : Nat) : DiskOk jobs (update life n .dead) files x core :=
  { h with
    move m srcPath dstPath hjob hlife :=
      h.move m srcPath dstPath hjob (life_of_update (by decide) hlife)
    slot hstate m hslot := ⟨(h.slot hstate m hslot).1, fun hlife =>
      (h.slot hstate m hslot).2 (life_of_update (by decide) hlife)⟩
    gate hstate v hslot hlife := h.gate hstate v hslot (life_of_update (by decide) hlife) }

end

end DiskOk

section Trans

variable {s : State I D P} {c : Call I D P} {x : Item I D P}

theorem Agrees.of_slot (h : Agrees life s.jobs.length c.env.jobStatus)
    (hjob : s.jobs[n]? = some job) {slot : Option TaskId} (hslot : slot = some (.job n)) :
    (jobFinished (c.env.statusOf slot) = true → life n = .finished)
      ∧ (Idle (c.env.statusOf slot) → life n ≠ .waiting) := by
  obtain ⟨hfinished, hidle⟩ := h n (List.getElem?_eq_some_iff.mp hjob).1
  subst hslot
  refine ⟨hfinished, fun h => ?_⟩
  rcases h with h | h | h
  · rw [hfinished h]
    decide
  · exact hidle (.inl h)
  · exact hidle (.inr h)

theorem job_of_finished {slot : Option TaskId} (h : jobFinished (c.env.statusOf slot) = true) :
    ∃ n, slot = some (.job n) := by
  cases slot with
  | none => simp [Env.statusOf, jobFinished] at h
  | some task =>
    cases task with
    | claim => simp [Env.statusOf, jobFinished] at h
    | job n => exact ⟨n, rfl⟩

variable [DecidableEq P]

theorem DiskOk.noMove_of_movable (h : DiskOk s.jobs life files x.toPlanned x.core)
    (hagrees : Agrees life s.jobs.length c.env.jobStatus) (hx : Movable c x) :
    NoMove s.jobs life x.storageId := by
  rcases hx with hx | hx
  · exact h.noMove (by simp [Progress.core, hx.1]) (by simp [Progress.core, hx.1]; rfl)
  · -- it could only be the one in the slot, and that is over
    intro n srcPath dstPath hjob hlife
    rcases h.move n srcPath dstPath hjob hlife with hgiven | ⟨-, hslot⟩
    · change x.state.givenUp = true at hgiven
      rw [hx.1] at hgiven
      cases hgiven
    · exact (hagrees.of_slot hjob hslot).2 hx.2 hlife

/-- **A disk that is taken one step further.** -/
theorem DiskOk.trans (h : DiskOk s.jobs life files x.toPlanned x.core)
    (hcore : CoreInv plan s x.toPlanned x.core) (htrans : Trans c x more core)
    (hid : c.nextJob = s.jobs.length)
    (hagrees : Agrees life s.jobs.length c.env.jobStatus)
    (hfresh : ∀ n, s.jobs.length ≤ n → life n = .waiting)
    (hfree : (∃ id path, .repair id path ∈ more) → Free x.toPlanned) :
    DiskOk (s.jobs ++ more) life files x.toPlanned core := by
  have hearly : Movable c x → x.rebaseTaskId = none := fun hx =>
    h.early (hx.elim (fun hx => .inl hx.1) fun hx => .inr hx.1)
  -- past its move
  have hpast : x.state = .moved ∨ x.state = .rebased ∨ x.state = .dbUpdated ∨ x.state = .repairing →
      NoMove s.jobs life x.storageId := by
    intro hstate
    refine h.noMove ?_ ?_ <;> rcases hstate with hs | hs | hs | hs <;>
      simp [Progress.core, hs, ItemState.givenUp]
  cases htrans with
  | keep hjobs =>
    refine h.follows fun job hjob => ?_
    obtain ⟨path, rfl⟩ := hjobs job hjob
    exact not_false
  | claimMove hx =>
    exact .of_early ((h.noMove_of_movable hagrees hx).append (by simp)) (.inr (.inl rfl))
      (hearly hx)
  | move hx =>
    refine ⟨fun n srcPath dstPath hjob hlife => ?_, fun _ => hearly hx, ?_, ?_, ?_, ?_, ?_, ?_⟩
    · -- the one that is placed goes into the slot
      rcases of_getElem?_append hjob with hold | ⟨hle, -⟩
      · exact absurd hlife (h.noMove_of_movable hagrees hx n srcPath dstPath hold)
      · have hlt := (List.getElem?_eq_some_iff.mp hjob).1
        rw [length_append, length_singleton] at hlt
        obtain rfl : n = s.jobs.length := by omega
        exact .inr ⟨rfl, by rw [hid]⟩
    all_goals simp
  | moved hx =>
    have hmove : NoMove s.jobs life x.storageId := by
      rcases hx with hx | hx
      · exact h.noMove (by simp [Progress.core, hx.1]) (by simp [Progress.core, hx.1]; rfl)
      · exact h.noMove_of_movable hagrees (.inr ⟨hx.1, .inl hx.2⟩)
    exact .of_early (hmove.append (by simp)) (.inr (.inr rfl))
      (h.early (hx.elim (fun hx => .inl hx.1) fun hx => .inr hx.1))
  | rebase hx hroot hidle =>
    have hmove : NoMove (s.jobs ++ [.rebase x.storageId x.dstPath x.parentDstPath]) life
        x.storageId := (hpast (.inl hx)).append (by simp)
    refine ⟨hmove.move, ?_, ?_, ?_, ?_, ?_, ?_, ?_⟩
    · rintro (hs | hs) <;> cases hx.symm.trans hs
    · intro _ n hslot
      obtain rfl : c.nextJob = n := by simpa using hslot
      rw [hid, hfresh _ le_rfl]
      exact ⟨by simp, by simp⟩
    all_goals
      intro hs
      first
        | cases hx.symm.trans hs
        | rcases hs with hs | hs <;> cases hx.symm.trans hs
  | rebased hx hdone =>
    obtain ⟨hnone, hfalse⟩ := hcore.early (.inr (.inr hx))
    refine .of_rebased ((hpast (.inl hx)).append (by simp)) rfl (fun _ => ?_) (fun v hv => ?_)
      fun hpassed => ?_
    · rcases hdone with hroot | hfinished
      · exact rebased_of_isRoot hroot
      · obtain ⟨n, hslot⟩ := job_of_finished hfinished
        obtain ⟨hjob, hrebased⟩ := h.slot hx n hslot
        exact hrebased ((hagrees.of_slot hjob hslot).1 hfinished)
    · cases hv.symm.trans hnone
    · cases hpassed.symm.trans hfalse
  | verify hx hpassed =>
    refine .of_rebased ((hpast (.inr (.inl hx))).append (by simp)) hx (h.inPlace hx)
      (fun v hv hlife => ?_) fun hpass => ?_
    · obtain rfl : c.nextJob = v := by simpa using hv
      rw [hid, hfresh _ le_rfl] at hlife
      cases hlife
    · cases hpass.symm.trans hpassed
  | passed hx hdone =>
    have hrebased : Rebased files x.toPlanned := by
      obtain ⟨v, hslot⟩ := job_of_finished hdone
      obtain ⟨⟨_, _, hjob⟩, -⟩ := hcore.slot hx v hslot
      exact h.gate hx v hslot ((hagrees.of_slot hjob hslot).1 hdone)
    exact .of_rebased ((hpast (.inr (.inl hx))).append (by simp)) hx (fun _ => hrebased)
      (fun _ _ _ => hrebased) fun _ => hrebased
  | commit hx hpassed =>
    refine .of_committed ((hpast (.inr (.inl hx))).append (by simp)) (.inl rfl) ?_
    rcases hpassed with hplace | hpassed
    · exact h.inPlace hx (by simpa [Item.inPlace] using hplace)
    · exact h.passed hx hpassed
  | release hx hjobs =>
    refine .of_committed ((hpast (.inr (.inr (.inl hx)))).append fun srcPath dstPath hmem => ?_)
      (.inr rfl) (h.committed (.inl hx))
    rcases hjobs with rfl | ⟨-, rfl⟩ <;> simp at hmem
  | defer hx =>
    exact .of_early ((h.noMove_of_movable hagrees hx).append (by simp)) (.inl rfl) (hearly hx)
  | repair hx hchild hstate =>
    have hmove : NoMove s.jobs life x.storageId := by
      rcases hx with hx | ⟨hx, -⟩ | hx
      · exact h.noMove_of_movable hagrees hx
      · exact hpast (.inl hx)
      · exact hpast (.inr (.inl hx))
    refine ⟨(hmove.append (by simp)).move, ?_, ?_,
      fun _ => hfree ⟨_, _, mem_singleton_self _⟩, ?_, ?_, ?_, ?_⟩
    all_goals simp [hstate]
  | repaired hx =>
    refine .of_rebased ((hpast (.inr (.inr (.inr hx)))).append (by simp)) rfl (fun hplace => ?_)
      (by simp) (by simp)
    intro q hindex hparent
    rcases h.repairing hx hplace with hroot | hnone
    · exact absurd hroot hindex
    · cases hparent.symm.trans hnone

end Trans

/-! ## The work of a task -/

variable [DecidableEq P]

/-- The files after a task has reported its end. A rebase that succeeds has written the pointer, and
a verify has found it. A copy that fails is not always told from one that succeeds. -/
def Job.finish (job : Job I P) (files : Files P) : Option (Files P) :=
  match job with
  | .preflight _ dstPath => if files dstPath = none then some files else none
  | .rebase _ childPath _ => if files childPath = none then none else some (job.work files)
  | .verify _ dstPath expectBacking =>
    if files dstPath = none ∨ expectBacking ≠ none ∧ files dstPath ≠ some expectBacking then none
    else some files
  | .move .. | .repair .. | .removeSource .. | .removeDestination .. => some files

theorem Job.finish_files {job : Job I P} {files files' : Files P}
    (h : job.finish files = some files') : files' = files ∨ files' = job.work files := by
  cases job <;> simp only [Job.finish] at h
  case rebase =>
    split_ifs at h
    exact .inr (Option.some.inj h).symm
  all_goals
    try split_ifs at h
    exact .inl (Option.some.inj h).symm

/-- The disk a task writes the file of, or reads it. -/
def JobOf (plan : List (Planned I P)) : Job I P → Prop
  | .move id srcPath dstPath => ∃ x ∈ plan, x.storageId = id ∧ srcPath = x.srcPath
    ∧ dstPath = x.dstPath
  | .rebase id childPath newBackingPath => ∃ x ∈ plan, x.storageId = id ∧ childPath = x.dstPath
    ∧ newBackingPath = x.parentDstPath
  | .verify id dstPath expectBacking => ∃ x ∈ plan, x.storageId = id ∧ dstPath = x.dstPath
    ∧ expectBacking = x.parentDstPath
  | _ => True

section Work

variable {x : Planned I P}

theorem Rebased.work (h : Rebased files x)
    (hown : ∀ y ∈ plan, y.dstPath = x.dstPath → y = x) (hof : JobOf plan job)
    (hmove : ∀ srcPath dstPath, job ≠ .move x.storageId srcPath dstPath) :
    Rebased (job.work files) x := by
  intro q hindex hparent
  have hold := h q hindex hparent
  have hwrite : ∀ (path : P) (file : Option (Option P)),
      (path = x.dstPath → file = none ∨ file = some (some q)) →
      update files path file x.dstPath = none
        ∨ update files path file x.dstPath = some (some q) := by
    intro path file hfile
    by_cases heq : x.dstPath = path
    · rw [heq, update_self]
      exact hfile heq.symm
    · rw [update_of_ne heq]
      exact hold
  cases job with
  | preflight | verify | repair => exact hold
  | removeSource id path | removeDestination id path =>
    exact hwrite path none fun _ => .inl rfl
  | move id srcPath dstPath =>
    simp only [Job.work]
    cases files srcPath with
    | some backing =>
      refine hwrite dstPath (some backing) fun hpath => ?_
      obtain ⟨y, hy, rfl, -, rfl⟩ := hof
      rw [hown y hy hpath] at hmove
      exact absurd rfl (hmove _ _)
    | none => exact hold
  | rebase id childPath newBackingPath =>
    refine hwrite childPath _ fun hpath => ?_
    obtain ⟨y, hy, rfl, rfl, rfl⟩ := hof
    rw [hown y hy hpath, hparent]
    cases files x.dstPath with
    | none => exact .inl rfl
    | some _ => exact .inr rfl

namespace DiskOk

variable (h : DiskOk jobs life files x core)

include h

theorem work (hown : ∀ y ∈ plan, y.dstPath = x.dstPath → y = x) (hof : JobOf plan job)
    (hjob : jobs[n]? = some job) (hlife : life n = .waiting) :
    DiskOk jobs life (job.work files) x core :=
  h.of_files fun hmoving hgiven hrebased => hrebased.work hown hof fun srcPath dstPath heq =>
    h.noMove hmoving hgiven n srcPath dstPath (heq ▸ hjob) hlife

theorem finish (hown : ∀ y ∈ plan, y.dstPath = x.dstPath → y = x)
    (hids : ∀ y ∈ plan, y.storageId = x.storageId → y = x) (hof : JobOf plan job)
    (hjob : jobs[n]? = some job) (hlife : life n = .waiting)
    (hfinish : job.finish files = some files')
    (hverify : core.state = .rebased → ∀ v, core.verifyTaskId = some (.job v) →
      ∃ dstPath expectBacking, jobs[v]? = some (.verify x.storageId dstPath expectBacking)) :
    DiskOk jobs (update life n .finished) files' x core := by
  -- what has ended before, and what the file was based on
  have hkept : DiskOk jobs life files' x core := by
    rcases Job.finish_files hfinish with rfl | rfl
    · exact h
    · exact h.work hown hof hjob hlife
  have hends : ∀ {m : Nat}, update life n .finished m = .finished → m ≠ n →
      life m = .finished := by
    intro m hm hmn
    rwa [update_of_ne hmn] at hm
  refine ⟨fun m srcPath dstPath hjob hlife =>
      hkept.move m srcPath dstPath hjob (life_of_update (by decide) hlife), h.early,
    fun hstate m hslot => ⟨(h.slot hstate m hslot).1, fun hfinished => ?_⟩, h.repairing,
    hkept.inPlace, fun hstate v hslot hfinished => ?_, hkept.passed, hkept.committed⟩
  · by_cases hmn : m = n
    · -- the rebase of the disk itself
      subst hmn
      obtain rfl := Option.some.inj (hjob.symm.trans (h.slot hstate m hslot).1)
      simp only [Job.finish] at hfinish
      split_ifs at hfinish with hnone
      cases hfinish
      intro q hindex hparent
      rw [Job.work, update_self, hparent]
      cases files x.dstPath with
      | none => exact .inl rfl
      | some _ => exact .inr rfl
    · exact (hkept.slot hstate m hslot).2 (hends hfinished hmn)
  · by_cases hvn : v = n
    · -- the verify of the disk itself
      subst hvn
      obtain ⟨dstPath, expectBacking, hverify⟩ := hverify hstate v hslot
      obtain rfl := Option.some.inj (hjob.symm.trans hverify)
      obtain ⟨y, hy, hid, rfl, rfl⟩ := hof
      obtain rfl := hids y hy hid
      simp only [Job.finish] at hfinish
      split_ifs at hfinish with hbad
      cases hfinish
      intro q _ hparent
      right
      by_contra hne
      refine hbad (.inr ⟨?_, ?_⟩)
      · rw [hparent]
        exact Option.some_ne_none q
      · rw [hparent]
        exact hne
    · exact hkept.gate hstate v hslot (hends hfinished hvn)

end DiskOk

end Work

/-! ## Repairs -/

variable [DecidableEq I]

namespace Call

variable {c : Call I D P} {x : Item I D P} {id : I} {path : P}

theorem repair_notMem_terminalize (damaged : Bool) :
    .place (.repair id path) ∉ c.terminalizeTreeFailure x damaged := fun h => by
  obtain ⟨_, _, heq⟩ := c.terminalizeTreeFailure_abandons _ h
  cases heq

theorem repairs_of_mem_fail (h : .place (.repair id path) ∈ c.fail x) : c.env.repairs = true := by
  unfold fail at h
  split_ifs at h with hspace hrepairs hchild hlane
  · simp only [deferForSpace, mem_append, mem_singleton, reduceCtorEq, or_false] at h
    exact absurd h place_notMem_restore
  · exact hrepairs.1
  · exact hrepairs.1
  · exact hrepairs.1
  · exact absurd h (repair_notMem_terminalize _)

theorem repairs_of_mem_resume {observed : Option TaskId} {rest : List (Effect I D P)}
    (h : .place (.repair id path) ∈ c.resume x observed rest) :
    .place (.repair id path) ∈ rest := by
  unfold resume at h
  split at h
  · rcases mem_cons.mp h with h | h
    · cases h
    · split_ifs at h
      · exact absurd h (repair_notMem_terminalize _)
      · exact h
  · exact h

theorem repairs_of_mem_launchMove (h : .place (.repair id path) ∈ c.launchMove x) :
    c.env.repairs = true := by
  unfold launchMove at h
  split at h
  · exact repairs_of_mem_fail h
  · rename_i recorded item hrecord
    have hrecorded : .place (.repair id path) ∉ recorded := fun hmem =>
      (recordStatus_beside hrecord).2 _ hmem
    have hpark : .place (.repair id path) ∉ c.parkDomains item := fun hmem =>
      parkDomains_beside _ hmem
    simp only [mem_append, mem_singleton, reduceCtorEq, or_false, hrecorded, hpark, false_or] at h
    split_ifs at h <;> simp at h

theorem repairs_of_place {action : Action} {effects : List (Effect I D P)}
    (h : c.handler x action = some effects) (hmem : .place (.repair id path) ∈ effects) :
    c.env.repairs = true := by
  cases action <;> cases h
  case fail => exact repairs_of_mem_fail hmem
  case startMove =>
    unfold startMove at hmem
    split at hmem <;> split_ifs at hmem
    · exact repairs_of_mem_launchMove ((mem_cons.mp hmem).resolve_left (by simp))
    · cases hmem
    · exact repairs_of_mem_launchMove
        (repairs_of_mem_resume ((mem_cons.mp hmem).resolve_left (by simp)))
    · cases hmem
  case startPreflight | startRebase | startVerify =>
    simp only [startPreflight, startRebase, startVerify] at hmem
    split_ifs at hmem
    · cases hmem
    · simpa using repairs_of_mem_resume ((mem_cons.mp hmem).resolve_left (by simp))
  case destinationExists | repairFailed | blocked =>
    exact absurd hmem (repair_notMem_terminalize _)
  case reconcilePending =>
    unfold reconcilePending at hmem
    split_ifs at hmem
    all_goals simp [place_notMem_restore] at hmem
  case release =>
    unfold release at hmem
    simp only [append_assoc, mem_append, mem_singleton, reduceCtorEq, or_false,
      place_notMem_restore, false_or] at hmem
    split_ifs at hmem <;> simp at hmem
  case skipRelease =>
    exact absurd ((mem_cons.mp hmem).resolve_left (by simp)) place_notMem_restore
  all_goals simp [dbUpdate, markRepaired] at hmem

end Call

end Disk

end IsardVDI.Migration.Saga
