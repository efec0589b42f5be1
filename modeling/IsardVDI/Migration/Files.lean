import IsardVDI.Migration.TreeRun

/-!
# Where the saga leaves rows and files

What the steps of a ledger do to the location of a storage row and to the files, for the modules
about backing chains.
-/

namespace IsardVDI.Migration.Saga

open IsardVDI.Storage
open List Function Option

/-! ## Files -/

abbrev Files (P : Type) := P → Option (Option P)

variable {action : Action}

section Files

variable {I D P : Type} {effects : List (Effect I D P)} {c : Call I D P} {x item : Item I D P}
  {job : Job I P}

def Effect.Holds : Effect I D P → Prop
  | .set _ change => ∀ p, (change p).state = .dbUpdated → p.state = .dbUpdated
  | .settle _ state => state ≠ .dbUpdated
  | _ => True

namespace Call

theorem place_notMem_restore : .place job ∉ restoreStorageStatus item := by
  intro h
  rcases restoreStorageStatus_mem h with ⟨_, -, h⟩ | ⟨_, -, h⟩ <;> cases h

theorem place_notMem_gate (h : c.gateTree = some effects) : .place job ∉ effects := by
  unfold gateTree at h
  dsimp only at h
  split_ifs at h <;> cases h <;> simp [skipTree]

theorem restore_holds : ∀ e ∈ restoreStorageStatus x, e.Holds := by
  intro e he
  rcases restoreStorageStatus_mem he with ⟨d, -, rfl⟩ | ⟨status, -, rfl⟩ <;> trivial

end Call

section

variable [DecidableEq P]

/-- What a task does to the files. A copy has the backing file of its source, which stays. -/
def Job.work (job : Job I P) (files : Files P) : Files P :=
  match job with
  | .move _ srcPath dstPath =>
    match files srcPath with
    | some backing => update files dstPath (some backing)
    | none => files
  | .rebase _ childPath newBackingPath =>
    update files childPath ((files childPath).map fun _ => newBackingPath)
  | .removeSource _ path | .removeDestination _ path => update files path none
  | .preflight .. | .verify .. | .repair .. => files

namespace Call

theorem discardDestination_elsewhere (h : .place job ∈ c.discardDestination item) :
    job = .removeDestination item.storageId item.dstPath
      ∧ c.path item.storageId ≠ item.dstPath := by
  unfold discardDestination at h
  split_ifs at h with hcopy
  · simp only [Bool.and_eq_true, decide_eq_true_eq] at hcopy
    exact ⟨Effect.place.inj (mem_singleton.mp h), hcopy.1.2⟩
  · cases h

theorem discard_of_cancel (h : .place job ∈ c.cancelSkipTree) :
    ∃ row ∈ c.tree, .place job ∈ c.discardDestination row := by
  obtain ⟨row, hrow, h⟩ := mem_flatMap.mp h
  refine ⟨row, hrow, ?_⟩
  simp only [append_assoc, mem_append, mem_singleton, reduceCtorEq, or_false] at h
  exact h.resolve_left place_notMem_restore

end Call

variable {jobs : List (Job I P)} {core : Core}

theorem Trans.committed (h : Trans c x jobs core)
    (hstate : core.state = .dbUpdated ∨ core.state = .released) :
    (x.state = .dbUpdated ∨ x.state = .released)
      ∨ x.state = .rebased ∧ core.state = .dbUpdated := by
  cases h with
  | keep | rebase | verify | passed => exact .inl hstate
  | release hx => exact .inl (.inl hx)
  | commit hx => exact .inr ⟨hx, rfl⟩
  | repair _ _ hrepair => rcases hstate with hs | hs <;> cases hrepair.symm.trans hs
  | _ => rcases hstate with hs | hs <;> cases hs

end

variable [DecidableEq I] {plan : List (Planned I P)} {old : Set I} {s : State I D P} {mode : Mode}
  {t : I} {env : Env I} {domainsOf : I → List D} {it : Item I D P}

theorem Inv.planned_of_rows (h : Inv plan old s) {x' row : Item I D P} (hx : x ∈ s.tree t)
    (hplan : x'.toPlanned = x.toPlanned) (hrow : row ∈ s.rows mode t x') :
    row.toPlanned ∈ plan := by
  have hmem : ∀ it ∈ s.tree t, it.toPlanned ∈ plan := fun it hit =>
    h.planned ▸ mem_map_of_mem (State.mem_tree.mp hit).1
  unfold State.rows at hrow
  split at hrow
  · rename_i kept hkept
    rw [← h.planned, ← (h.kept kept hkept).1]
    exact mem_map_of_mem (mem_filter.mp hrow).1
  · obtain ⟨it, hit, rfl⟩ := mem_map.mp hrow
    split_ifs
    · exact hplan ▸ hmem x hx
    · exact hmem it hit

theorem dbUpdated_of_after (h : ∀ e ∈ effects, e.Holds)
    (hstate : (after effects it).state = .dbUpdated) : it.state = .dbUpdated := by
  induction effects generalizing it with
  | nil => exact hstate
  | cons e effects ih =>
    have he := h e (.head _)
    have hnext := ih (fun x hx => h x (.tail _ hx)) hstate
    cases e with
    | set id change =>
      simp only [Effect.onItem] at hnext
      split_ifs at hnext
      · exact he _ hnext
      · exact hnext
    | settle id state =>
      simp only [Effect.onItem] at hnext
      split_ifs at hnext
      · exact absurd hnext he
      · exact hnext
    | _ => exact hnext

/-- A row that is committed is at its destination. -/
def State.Located (s : State I D P) : Prop :=
  ∀ it ∈ s.items, it.state = .dbUpdated ∨ it.state = .released →
    s.path it.storageId = it.dstPath

/-! ## The location of a row -/

section

variable [DecidableEq D]

theorem State.path_perform (s : State I D P) (effects : List (Effect I D P)) (id : I) :
    (s.perform effects).path id = s.path id
      ∨ .repoint id ((s.perform effects).path id) ∈ effects := by
  induction effects generalizing s with
  | nil => exact .inl rfl
  | cons e effects ih =>
    rcases ih (s.apply e) with heq | hmem
    · show ((s.apply e).perform effects).path id = _
        ∨ Effect.repoint id (((s.apply e).perform effects).path id) ∈ _
      rw [heq]
      cases e with
      | repoint other path =>
        by_cases hid : id = other
        · subst hid
          right
          rw [show (s.apply (.repoint id path)).path id = path from update_self ..]
          exact .head _
        · exact .inl (update_of_ne hid ..)
      | _ => exact .inl rfl
    · exact .inr (.tail _ hmem)

/-! ## A tree that is skipped -/

theorem State.skip_row {it' : Item I D P} (h : it' ∈ (s.skip t).items) :
    ∃ it ∈ s.items, it'.toPlanned = it.toPlanned ∧ (it' = it ∨ it'.state.givenUp) := by
  obtain ⟨hskips, -, -⟩ := skips_all (s.tree t) .skipped rfl
  obtain ⟨it, hit, rfl⟩ := mem_items_perform.mp h
  refine ⟨it, hit, toPlanned_after _ _, ?_⟩
  exact after_of_spares fun e he => (hskips e he).spares it.storageId

theorem State.skip_path (s : State I D P) (t id : I) : (s.skip t).path id = s.path id :=
  (s.path_perform _ id).resolve_right fun hmem => (skips_all (s.tree t) .skipped rfl).1 _ hmem

theorem State.Located.skip (h : s.Located) : (s.skip t).Located := by
  intro it' hit' hstate
  obtain ⟨it, hit, -, rfl | hgiven⟩ := State.skip_row hit'
  · exact (s.skip_path t _).trans (h _ hit hstate)
  · rcases hstate with hs | hs <;> rw [hs] at hgiven <;> cases hgiven

theorem State.skip_jobs (s : State I D P) (t : I) : (s.skip t).jobs = s.jobs := by
  have hnone : placed ((s.tree t).map fun it => (.set it.storageId fun p =>
      { p with state := .skipped } : Effect I D P)) = [] :=
    eq_nil_iff_forall_not_mem.mpr fun job hjob => by
      obtain ⟨it, -, hset⟩ := mem_map.mp (mem_placed.mp hjob)
      cases hset
  show (s.perform _).jobs = s.jobs
  rw [s.jobs_perform, hnone, append_nil]

end

/-! ## Tasks -/

variable [DecidableEq P]

namespace Call

theorem discard_of_terminalize {damaged : Bool}
    (h : .place job ∈ c.terminalizeTreeFailure item damaged) :
    ∃ row ∈ c.items item, .place job ∈ c.discardDestination row := by
  rcases c.terminalize_mem h with h | h | ⟨-, h⟩ | ⟨row, hrow, -, h⟩
  · cases h
  · exact absurd h place_notMem_restore
  · cases h
  · cases h with
    | restore h => exact absurd h place_notMem_restore
    | discard hdiscard => exact ⟨row, hrow, hdiscard⟩

/-- **A task a step places** removes a copy, or is of the disk that is taken further. -/
theorem placed_of_step (hfresh : ∀ x ∈ c.tree, x.state = .pending → x.moveTaskId = none)
    (h : .place job ∈ c.stepTree) :
    (∃ row, .place job ∈ c.discardDestination row ∧ (row ∈ c.tree
        ∨ ∃ x ∈ c.tree, ∃ x', x'.toPlanned = x.toPlanned ∧ row ∈ c.items x'))
      ∨ ∃ x action effects, Next c.tree c.env.statusOf (some x) action
        ∧ Takes c x action effects ∧ .place job ∈ effects := by
  have hdecide := treeNext_next c.tree c.env.statusOf
  unfold stepTree at h
  split at h
  · rename_i effects hgate
    exact absurd h (place_notMem_gate hgate)
  split at h
  · cases h
  rename_i x action hnext
  rw [hnext] at hdecide
  split_ifs at h
  · obtain ⟨row, hrow, h⟩ := discard_of_cancel h
    exact .inl ⟨row, h, .inl hrow⟩
  cases hhandler : c.handler x action with
  | none =>
    rw [hhandler] at h
    cases h
  | some done =>
    rw [hhandler] at h
    have hin : .place job ∈ done := (mem_of_guarded h).resolve_right (by simp)
    rcases handler_outcome hdecide (hfresh x hdecide.mem) hhandler with hends | htakes
    · obtain ⟨first, x', hhand, rfl, hfirst⟩ := hends
      rcases mem_append.mp hin with hin | hin
      · exact absurd (hfirst _ hin) not_false
      · obtain ⟨row, hrow, h⟩ := discard_of_terminalize hin
        exact .inl ⟨row, h, .inr ⟨x, hdecide.mem, x', hhand.planned, hrow⟩⟩
    · exact .inr ⟨x, action, done, hdecide, htakes, hin⟩

end Call

theorem Inv.placed_of_step (h : Inv plan old s) {job : Job I P}
    (hjob : .place job ∈ (s.call mode t env domainsOf).stepTree) :
    (∃ p ∈ plan, job = .removeDestination p.storageId p.dstPath
        ∧ s.path p.storageId ≠ p.dstPath)
      ∨ ∃ x action jobs core, Next (s.tree t) env.statusOf (some x) action
        ∧ Trans (s.call mode t env domainsOf) x jobs core ∧ job ∈ jobs := by
  have hfresh : ∀ x ∈ s.tree t, x.state = .pending → x.moveTaskId = none :=
    fun x hx => (h.disk x (State.mem_tree.mp hx).1).fresh
  rcases Call.placed_of_step hfresh hjob with ⟨row, hdiscard, hrow⟩ | ⟨x, action, effects, hnext,
    htakes, hin⟩
  · obtain ⟨hjob, hpath⟩ := Call.discardDestination_elsewhere hdiscard
    refine .inl ⟨row.toPlanned, ?_, hjob, hpath⟩
    rcases hrow with hrow | ⟨x, hx, x', hplan, hrow⟩
    · exact h.planned ▸ mem_map_of_mem (State.mem_tree.mp hrow).1
    · exact h.planned_of_rows hx hplan hrow
  · exact .inr ⟨x, action, _, _, hnext, htakes.2, mem_placed.mpr hin⟩

/-! ## Rows -/

/-- **What a step makes of a row.** It stays where it is in the saga and no task touches its disk,
or it is given up, or its handler takes it further. -/
theorem Inv.row_step (h : Inv plan old s) (hlaid : Laid plan) (hit : it ∈ s.items) (mode : Mode)
    (t : I) (env : Env I) (domainsOf : I → List D) :
    let c := s.call mode t env domainsOf
    (after c.stepTree it).core = it.core ∧ (∀ job ∈ placed c.stepTree, ¬ job.Touches it.storageId)
      ∨ (after c.stepTree it).state.givenUp
      ∨ ∃ action, it.state.terminal = false ∧ Next (s.tree t) env.statusOf (some it) action
        ∧ c.handler it action = some c.stepTree ∧ Takes c it action c.stepTree := by
  intro c
  -- the handler of a disk spares the others
  have hspared : ∀ {x : I} {effects : List (Effect I D P)}, (∀ e ∈ effects, e.For x) →
      x ≠ it.storageId →
      (after effects it).core = it.core ∧ (∀ job ∈ placed effects, ¬ job.Touches it.storageId)
        ∨ (after effects it).state.givenUp := by
    intro x effects hfor hne
    rcases after_of_spares fun e he => (hfor e he).spares hne with heq | hgiven
    · exact .inl ⟨by rw [heq], not_touches_of_for hfor hne⟩
    · exact .inr hgiven
  generalize hstep : c.stepTree = effects
  have houtcome := c.stepTree_outcome
  rw [hstep] at houtcome
  cases houtcome with
  | idle hwaits =>
    exact .inl ⟨core_after_waits hwaits it, fun job hjob => absurd (mem_placed.mp hjob)
      fun hplace => (hwaits _ hplace).elim⟩
  | skipped hskips =>
    rcases after_of_spares fun e he => (hskips e he).spares it.storageId with heq | hgiven
    · refine .inl ⟨by rw [heq], fun job hjob => ?_⟩
      obtain ⟨_, _, rfl⟩ := hskips _ (mem_placed.mp hjob)
      exact not_false
    · exact .inr (.inl hgiven)
  | @handled x action done hdecide hnext hhandler heffects =>
    have hx : x ∈ s.tree t := hnext.mem
    obtain ⟨hxmem, -⟩ := State.mem_tree.mp hx
    have hresult := Call.handler_outcome hnext (h.disk x hxmem).fresh hhandler
    by_cases hne : x.storageId = it.storageId
    · obtain rfl := h.eq hlaid hxmem hit hne
      rw [Call.guarded] at heffects
      split at heffects
      · subst heffects
        rcases hnext.blocked_or_open with ⟨rfl, hfailed⟩ | hopen
        · cases hhandler
          exact .inr (.inl (givenUp_of_blocked hfailed _))
        · rcases hresult with hends | htakes
          · exact .inr (.inl (h.givenUp_of_ends hx hopen hends))
          · exact .inr (.inr ⟨action, hopen, hnext, hhandler, htakes⟩)
      · -- it has raised
        rename_i n _
        subst heffects
        refine .inr (.inl ?_)
        rw [after_raised]
        rfl
    · have hfor' : ∀ e ∈ effects, e.For x.storageId := by
        intro e he
        rcases Call.mem_of_guarded (heffects ▸ he) with he | rfl
        · exact Call.handler_for hresult e he
        · rfl
      rcases hspared hfor' hne with hsame | hgiven
      · exact .inl hsame
      · exact .inr (.inl hgiven)

namespace Call

theorem terminalize_holds (damaged : Bool) : ∀ e ∈ c.terminalizeTreeFailure x damaged, e.Holds := by
  intro e he
  have habandons := c.terminalizeTreeFailure_abandons e he
  cases e with
  | settle id state =>
    rintro rfl
    cases habandons
  | set => cases habandons
  | _ => trivial

theorem startVerify_holds : ∀ e ∈ c.startVerify x, e.Holds := by
  have hset : ∀ task : Option TaskId, (Effect.set (P := P) x.storageId fun p : Progress D =>
      { p with verifyTaskId := task }).Holds := fun _ _ h => h
  unfold startVerify
  split_ifs
  · exact nofun
  refine forall_mem_cons.mpr ⟨hset _, ?_⟩
  have hrest : ∀ e ∈ [Effect.place (.verify x.storageId x.dstPath x.parentDstPath),
      .set x.storageId fun p : Progress D => { p with verifyTaskId := some (.job c.nextJob) }],
      e.Holds :=
    forall_mem_cons.mpr ⟨trivial, forall_mem_singleton.mpr (hset _)⟩
  unfold resume
  split
  · refine forall_mem_cons.mpr ⟨fun _ h => h, ?_⟩
    split_ifs
    · exact terminalize_holds _
    · exact hrest
  · exact hrest

theorem fail_holds : ∀ e ∈ c.fail x, e.Holds := by
  unfold fail
  split_ifs
  · intro e he
    rcases mem_append.mp he with he | he
    · exact restore_holds e he
    · rw [mem_singleton.mp he]
      exact fun p h => by cases h
  · exact forall_mem_cons.mpr ⟨fun _ h => h, terminalize_holds _⟩
  · exact forall_mem_cons.mpr ⟨trivial, forall_mem_singleton.mpr fun p h => by cases h⟩
  · exact terminalize_holds _
  · exact terminalize_holds _

theorem repoint_of_commit (hnext : Next c.tree c.env.statusOf (some x) action)
    (hx : x.state = .rebased) (hhandler : c.handler x action = some effects)
    (hstate : (after effects x).state = .dbUpdated) : effects = dbUpdate x := by
  have hnot : ¬∀ e ∈ effects, e.Holds := fun h => by
    cases hx.symm.trans (dbUpdated_of_after h hstate)
  cases hnext with
  | blocked _ hfailed => cases hx.symm.trans hfailed
  | phaseA _ _ hphase =>
    rw [hx] at hphase
    cases hphase
  | repair _ hrepair => cases hx.symm.trans hrepair
  | release _ hcommitted => cases hx.symm.trans hcommitted
  | commit =>
    cases hhandler
    rfl
  | gate _ _ _ haction =>
    rcases haction with rfl | rfl | ⟨rfl, -⟩ | ⟨rfl, -⟩ <;> cases hhandler
    · exact absurd fail_holds hnot
    · exact absurd startVerify_holds hnot
    · exact absurd (forall_mem_singleton.mpr fun _ h => h) hnot

end Call

theorem Inv.committed_of_release (h : Inv plan ∅ s) (hlaid : Laid plan)
    (hnext : Next (s.tree t) env.statusOf (some x) action) (hx : x.state = .dbUpdated)
    (hit : it ∈ s.tree t) : it.state = .dbUpdated ∨ it.state = .released := by
  have hopen : x.state.terminal = false := by
    rw [hx]
    rfl
  have hreleases := hnext.releases hx it hit
  cases hs : it.state with
  | dbUpdated => exact .inl rfl
  | released => exact .inr rfl
  | skipped | failed | quarantined =>
    exact absurd (by rw [hs]; rfl) (h.not_lost hlaid hnext hopen hit not_false)
  | pending | moving | moved | rebased | repairing =>
    rw [hs] at hreleases
    cases hreleases rfl

variable [DecidableEq D]

theorem Inv.path_step (h : Inv plan old s) (hlaid : Laid plan) (hit : it ∈ s.items) (mode : Mode)
    (t : I) (env : Env I) (domainsOf : I → List D) :
    let path := (s.perform (s.call mode t env domainsOf).stepTree).path it.storageId
    path = s.path it.storageId ∨ path = it.dstPath := by
  intro path
  have hfresh : ∀ x ∈ s.tree t, x.state = .pending → x.moveTaskId = none :=
    fun x hx => (h.disk x (State.mem_tree.mp hx).1).fresh
  rcases s.path_perform (s.call mode t env domainsOf).stepTree it.storageId with hsame | hmem
  · exact .inl hsame
  · obtain ⟨x, action, effects, hnext, htakes, hin⟩ :=
      Call.takes_of_critical hfresh hmem trivial
    obtain ⟨-, hid, hpath⟩ := htakes.1 _ hin
    have hx := (State.mem_tree.mp hnext.mem).1
    rw [h.eq hlaid hit hx hid]
    exact .inr hpath

theorem Inv.located_step (h : Inv plan old s) (hlaid : Laid plan) (hlocated : s.Located)
    (mode : Mode) (t : I) (env : Env I) (domainsOf : I → List D) :
    (s.step mode t env domainsOf).Located := by
  intro it' hit' hstate
  obtain ⟨it, hit, rfl⟩ := State.mem_items_perform.mp hit'
  show (s.perform _).path _ = _
  rw [toPlanned_after]
  -- a row that is at its destination stays there
  have hstay (hcommitted : it.state = .dbUpdated ∨ it.state = .released) :
      (s.perform (s.call mode t env domainsOf).stepTree).path it.storageId = it.dstPath := by
    rcases h.path_step hlaid hit mode t env domainsOf with hsame | hpath
    · exact hsame.trans (hlocated it hit hcommitted)
    · exact hpath
  rcases h.row_step hlaid hit mode t env domainsOf
    with ⟨hcore, -⟩ | hgiven | ⟨action, -, hnext, hhandler, htakes⟩
  · have hsame : (after (s.call mode t env domainsOf).stepTree it).state = it.state :=
      congrArg Core.state hcore
    exact hstay (hsame ▸ hstate)
  · rcases hstate with hs | hs <;> rw [hs] at hgiven <;> cases hgiven
  · rcases htakes.2.committed hstate with hcommitted | ⟨hx, hcommit⟩
    · exact hstay hcommitted
    · rw [Call.repoint_of_commit hnext hx hhandler hcommit]
      exact update_self ..

end Files

end IsardVDI.Migration.Saga
