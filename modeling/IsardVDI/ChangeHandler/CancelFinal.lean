import IsardVDI.ChangeHandler.CancelParties

/-!
# `models/task.py`, `streams/task_results_consumer.py` — a cancel is final

Once `Task.cancel` has returned, no worker starts a job of the chain that had not started by then.
What can go wrong is work that the cancel does not see.
-/

namespace IsardVDI.ChangeHandler

open List Option

section CancelFinal

variable {U C W D : Type} [DecidableEq U]

variable {s s' : System U C W D} {b : Blueprint U C} {d : D} {phase : DispatchPhase U C}

/-! ## What a cancel has seen to -/

def System.Rests (s : System U C W D) (id : Ident U) : Prop :=
  s.rq.store.terminal id = true ∧ ¬ s.Touched id

def System.Unreported (s : System U C W D) (id : Ident U) : Prop :=
  ∀ entry ∈ s.entries, entry.taskId = id → entry.succeeds = false

def System.Settled (s : System U C W D) (id : Ident U) : Prop := id ∈ s.started ∨ s.Rests id

/-- A member the cancel is done with: no live dispatch of it will find a knot child to build. -/
structure System.Swept (s : System U C W D) (id : Ident U) : Prop where
  settled : s.Settled id
  quiet : s.rq.store.wasCanceled id = true ∨ KnotsThere s.rq.store id
    ∨ (s.Rests id ∧ s.Unreported id)

structure System.Calm (s : System U C W D) : Prop where
  harmless : ∀ d, (s.dispatcher d).Harmless s.rq.store
  settled : ∀ id, s.rq.store.terminal id = true → s.Settled id

variable {id : Ident U} {roots members : List (Ident U)} {action : Action U W D}

theorem KnotsThere.rewrites {touched : Ident U → Prop} {store store' : Store U C}
    (h : KnotsThere store id) (hrw : Rewrites touched store store') : KnotsThere store' id := by
  intro m hm child hchild
  rw [hrw.metadata] at hm
  rw [hrw.exists_eq]
  exact h m hm child hchild

theorem DispatchPhase.Harmless.rewrites {touched : Ident U → Prop} {store store' : Store U C}
    (h : phase.Harmless store) (hrw : Rewrites touched store store') : phase.Harmless store' := by
  cases phase with
  | idle | received entry => trivial
  | settling entry dead | marking entry dead => exact fun hdead => (h hdead).rewrites hrw
  | waiting anchor => exact KnotsThere.rewrites h hrw
  | building anchor commands children =>
    refine ⟨h.1, fun knot hknot => ?_⟩
    rw [hrw.exists_eq]
    exact h.2 knot hknot

namespace Moves

variable (h : Moves s s')

include h

theorem rests (hid : s.Rests id) : s'.Rests id := by
  refine ⟨h.rewrites.terminal id hid.2 hid.1, fun htouched => ?_⟩
  rcases h.touched id htouched with hold | ⟨-, hlive⟩
  · exact hid.2 hold
  · simp [hid.1] at hlive

theorem settled (hid : s.Settled id) : s'.Settled id := hid.imp (h.started id) h.rests

theorem swept (hid : s.Swept id) : s'.Swept id := by
  refine ⟨h.settled hid.settled, ?_⟩
  rcases hid.quiet with hmark | hknots | ⟨hrest, hquiet⟩
  · exact .inl (h.rewrites.wasCanceled id hmark)
  · exact .inr (.inl (hknots.rewrites h.rewrites))
  · refine .inr (.inr ⟨h.rests hrest, fun entry hentry hid => ?_⟩)
    rcases h.published entry hentry with hold | hkind | ⟨-, htouched⟩
    · exact hquiet entry hold hid
    · simp [Entry.succeeds, hkind]
    · exact absurd (hid ▸ htouched) hrest.2

theorem calm (hcalm : s.Calm) (hharmless : ∀ d, (s'.dispatcher d).Harmless s.rq.store)
    (hended : ∀ id, s'.rq.store.terminal id = true →
      s.rq.store.terminal id = true ∨ s'.Settled id) : s'.Calm where
  harmless := fun d => (hharmless d).rewrites h.rewrites
  settled := fun id hid =>
    (hended id hid).elim (fun hold => h.settled (hcalm.settled id hold)) fun h => h

end Moves

/-! ## The cancel -/

def Undisturbed (s : System U C W D) : Action U W D → Prop
  | .cancel _ => ∀ d, (s.dispatcher d).Harmless s.rq.store
  | .dispatch d .checkRecord => s.canceller.Active → s.RecordHarmless d
  | .advance =>
    match s.canceller with
    | .sweeping _ (id :: _) =>
      s.rq.store.terminal id = true → s.rq.store.wasCanceled id = false →
        KnotsThere s.rq.store id ∨ (¬ s.Touched id ∧ s.Unreported id)
    | .cancelling id _ _ => (∀ w, id ∉ (s.worker w).waiting) ∧ s.rq.pushed.count id ≤ 1
    | _ => True
  | _ => True

/-- The members are all that the cancel is not done with. -/
def System.Left (s : System U C W D) (members : List (Ident U)) : Prop :=
  ∀ id, s.rq.store.There id → id ∈ members ∨ s.Swept id

def System.Covered (s : System U C W D) : CancelPhase U C → Prop
  | .idle => ∀ id, s.rq.store.terminal id = true → id ∈ s.started
  | .collecting closure frontier links => s.Calm ∧ Closing s.rq.store closure frontier links
  | .sweeping _ members => s.Calm ∧ s.Left members
  | .cancelling id _ members => s.Calm ∧ s.Left (id :: members)
  | .stamping id _ members =>
    s.Calm ∧ s.Left (id :: members) ∧ (s.rq.store.There id → s.Settled id)
  | .returned => s.Calm ∧ s.Left []

theorem System.Left.moves (hleft : s.Left members) (h : Moves s s') : s'.Left members :=
  fun id hid => (hleft id ((h.rewrites.there_iff id).mp hid)).imp_right h.swept

theorem System.Covered.calm {phase : CancelPhase U C} (h : s.Covered phase)
    (hphase : phase ≠ .idle) : s.Calm := by
  cases phase with
  | idle => exact absurd rfl hphase
  | collecting closure frontier links | sweeping roots members | cancelling id roots members
  | stamping id roots members | returned => exact h.1

theorem System.Covered.moves {phase : CancelPhase U C} (hc : s.Covered phase)
    (hphase : phase ≠ .idle) (h : Moves s s') (hcalm : s'.Calm) : s'.Covered phase := by
  cases phase with
  | idle => exact absurd rfl hphase
  | collecting closure frontier links =>
    exact ⟨hcalm, hc.2.of_metadata_eq h.rewrites.metadata⟩
  | sweeping roots members | cancelling id roots members | returned =>
    exact ⟨hcalm, hc.2.moves h⟩
  | stamping id roots members =>
    exact ⟨hcalm, hc.2.1.moves h, fun hid => h.settled (hc.2.2 ((h.rewrites.there_iff id).mp hid))⟩

theorem Besides.covered (h : Besides s s') (hc : s.Covered s.canceller)
    (hharmless : s.canceller ≠ .idle → ∀ d, (s'.dispatcher d).Harmless s.rq.store) :
    s'.Covered s'.canceller := by
  rw [h.canceller]
  by_cases hidle : s.canceller = .idle
  · rw [hidle] at hc ⊢
    exact fun id hid => h.started id ((h.ended id hid).elim (hc id) fun h => h)
  · refine hc.moves hidle h.toMoves (h.calm (hc.calm hidle) (hharmless hidle) fun id hid => ?_)
    exact (h.ended id hid).imp_right fun hstarted => .inl (h.started id hstarted)

variable {cphase : CancelPhase U C} {announced : Option (Ident U)}

theorem System.Calm.attached (hcalm : s.Calm) (hs : Sane b s) :
    Attached b (fun _ => False) s.rq.store := by
  refine hs.attached.of_metadata_eq (fun _ => rfl) ?_
  rintro id ⟨d, command, hmem, -⟩
  have hharmless := hcalm.harmless d
  cases hd : s.dispatcher d with
  | building anchor commands children =>
    rw [hd] at hharmless hmem
    simp [DispatchPhase.commands, hharmless.1] at hmem
  | idle | received _ | settling _ _ | marking _ _ | waiting _ =>
    rw [hd] at hmem
    simp [DispatchPhase.commands] at hmem

def Next (le : Ident U → Ident U → Bool) (s s' : System U C W D) : Prop :=
  ∃ phase rq announced, s.canceller.next le s.rq = some (phase, rq, announced)
    ∧ s' = s.advanceTo phase rq announced

variable {le : Ident U → Ident U → Bool}

theorem swept_of_terminal (hcalm : s.Calm)
    (hcond : s.rq.store.terminal id = true → s.rq.store.wasCanceled id = false →
      KnotsThere s.rq.store id ∨ (¬ s.Touched id ∧ s.Unreported id))
    (hterminal : s.rq.store.terminal id = true) : s.Swept id := by
  refine ⟨hcalm.settled id hterminal, ?_⟩
  cases hmark : s.rq.store.wasCanceled id with
  | true => exact .inl rfl
  | false =>
    refine .inr ((hcond hterminal hmark).imp_right fun hquiet => ?_)
    exact ⟨⟨hterminal, hquiet.1⟩, hquiet.2⟩

theorem sane_built (b : Blueprint U C) : Sane b (System.built b : System U C W D) where
  attached := (attached_built b).of_metadata_eq (fun _ => rfl) fun _ h => h.elim
  dispatch := fun _ => trivial
  touched := by
    rintro id (hid | ⟨w, hid | hid⟩)
    · exact there_of_mem_pushed_built b id hid
    · exact absurd hid not_mem_nil
    · exact absurd hid not_mem_nil
  working := fun _ _ hid => absurd hid not_mem_nil
  entries := nofun

theorem covered_built (b : Blueprint U C) :
    (System.built b : System U C W D).Covered (System.built b : System U C W D).canceller := by
  have hbuilt : ∀ id, b.built.store.terminal id = true → False := by
    rw [b.built_eq]
    refine b.program_tail.foldl_exec (I := fun rq => ∀ id, rq.store.terminal id = true → False)
      (fun rq command after h hfits id hid => h id (terminal_exec hfits hid)) ?_
    intro id hid
    obtain ⟨m, hm⟩ := isSome_iff_exists.mp (Store.there_of_holds hid)
    obtain ⟨rfl, -⟩ := Blueprint.metadata_saved hm
    simp [Blueprint.saved, BuildCommand.exec, Store.terminal, Store.holds, Store.fetch_set, newJob,
      Job.terminal, JobStatus.terminal] at hid
  exact fun id hid => (hbuilt id hid).elim

section

variable (hs : Sane b s)

include hs

theorem moves_advanceTo {rq : Rq U C} (hpushed : ∀ id ∈ rq.pushed, id ∈ s.rq.pushed)
    (hrewrites : Rewrites s.Touched s.rq.store rq.store) :
    Moves s (s.advanceTo cphase rq announced) := by
  refine hs.moves rfl rfl hpushed hrewrites (fun _ h => mem_append_left _ h) fun entry hentry => ?_
  refine (mem_append.mp hentry).imp_right fun hnew => ?_
  cases announced with
  | none => simp at hnew
  | some root =>
    obtain rfl : entry = canceledEntry root := by simpa using hnew
    rfl

theorem moves_look : Moves s (s.advanceTo cphase s.rq announced) :=
  moves_advanceTo hs (fun _ h => h) (.refl _ _)

/-- A command of the cancel that only reads. -/
theorem look (hcalm : s.Calm) : Sane b (s.advanceTo cphase s.rq announced)
    ∧ (s.advanceTo cphase s.rq announced).Calm :=
  ⟨(moves_look hs).sane_of_eq rfl hs,
    (moves_look hs).calm hcalm hcalm.harmless fun _ h => .inl h⟩

theorem covered_collecting {closure frontier : List (Ident U × Job U C)} {links : List (Ident U)}
    (hphase : s.canceller = .collecting closure frontier links)
    (hc : s.Covered (.collecting closure frontier links)) (h : Next le s s') :
    Sane b s' ∧ s'.Covered s'.canceller := by
  obtain ⟨hcalm, hclosing⟩ := hc
  obtain ⟨phase, rq, announced, hnext, rfl⟩ := h
  rw [hphase] at hnext
  cases links with
  | cons id links =>
    simp only [CancelPhase.next] at hnext
    split at hnext
    · rename_i hmem
      cases hnext
      exact (look hs hcalm).imp_right fun h => ⟨h, hclosing.drop fun _ => hmem⟩
    · split at hnext
      · rename_i job hjob
        cases hnext
        exact (look hs hcalm).imp_right fun h => ⟨h, hclosing.load hjob⟩
      · rename_i hnone
        cases hnext
        refine (look hs hcalm).imp_right fun h => ⟨h, hclosing.drop fun hthere => ?_⟩
        simp [Store.There, Store.metadata, hnone] at hthere
  | nil =>
    cases frontier with
    | cons current frontier =>
      cases hnext
      exact (look hs hcalm).imp_right fun h => ⟨h, hclosing.follow⟩
    | nil =>
      cases hnext
      refine (look hs hcalm).imp_right fun h => ⟨h, fun id hid => .inl ?_⟩
      exact mem_leavesFirst (hclosing.complete (hcalm.attached hs) hid)

theorem covered_sweeping (hphase : s.canceller = .sweeping roots members)
    (hc : s.Covered (.sweeping roots members)) (hcond : Undisturbed s .advance) (h : Next le s s') :
    Sane b s' ∧ s'.Covered s'.canceller := by
  obtain ⟨hcalm, hleft⟩ := hc
  obtain ⟨phase, rq, announced, hnext, rfl⟩ := h
  simp only [Undisturbed] at hcond
  rw [hphase] at hnext hcond
  have hleft' : (s.advanceTo phase s.rq announced).Left members := hleft.moves (moves_look hs)
  cases members with
  | cons id members =>
    simp only [CancelPhase.next] at hnext
    split at hnext
    · rename_i hterminal
      cases hnext
      refine (look hs hcalm).imp_right fun h => ⟨h, fun i hi => ?_⟩
      rcases hleft' i hi with hmem | hswept
      · rcases mem_cons.mp hmem with rfl | hmem
        · exact .inr ((moves_look hs).swept (swept_of_terminal hcalm hcond hterminal))
        · exact .inl hmem
      · exact .inr hswept
    · cases hnext
      exact (look hs hcalm).imp_right fun h => ⟨h, hleft'⟩
  | nil =>
    cases roots <;> cases hnext <;> exact (look hs hcalm).imp_right fun h => ⟨h, hleft'⟩

theorem settled_cancel (hid : s.rq.store.There id) (hwaiting : ∀ w, id ∉ (s.worker w).waiting)
    (hcount : s.rq.pushed.count id ≤ 1) :
    (s.advanceTo cphase (s.rq.cancel id) announced).Settled id := by
  by_cases hstarted : id ∈ s.started
  · exact .inl hstarted
  · refine .inr ⟨terminal_setStatus_self hid rfl, ?_⟩
    rintro (hmem | ⟨w, hmem | hmem⟩)
    · have hpos : 0 < (s.rq.pushed.erase id).count id := count_pos_iff.mpr hmem
      rw [count_erase_self] at hpos
      omega
    · exact hwaiting w hmem
    · exact hstarted (hs.working w id hmem)

theorem covered_cancelling (hphase : s.canceller = .cancelling id roots members)
    (hc : s.Covered (.cancelling id roots members)) (hcond : Undisturbed s .advance)
    (h : Next le s s') : Sane b s' ∧ s'.Covered s'.canceller := by
  obtain ⟨hcalm, hleft⟩ := hc
  obtain ⟨phase, rq, announced, hnext, rfl⟩ := h
  simp only [Undisturbed] at hcond
  rw [hphase] at hnext hcond
  obtain ⟨hwaiting, hcount⟩ := hcond
  cases hnext
  have hmoves : Moves s (s.advanceTo (.stamping id roots members) (s.rq.cancel id) none) :=
    moves_advanceTo hs (fun _ h => mem_of_mem_erase h) (rewrites_setStatus (.inr rfl))
  have hsettled : ∀ i, s.rq.store.There i → i = id →
      (s.advanceTo (.stamping id roots members) (s.rq.cancel id) none).Settled i := by
    rintro i hi rfl
    exact settled_cancel hs hi hwaiting hcount
  refine ⟨hmoves.sane_of_eq rfl hs, hmoves.calm hcalm hcalm.harmless fun i hi => ?_,
    hleft.moves hmoves, fun hid => hsettled id ((hmoves.rewrites.there_iff id).mp hid) rfl⟩
  have hthere := (hmoves.rewrites.there_iff i).mp (Store.there_of_holds hi)
  exact (terminal_setStatus hi).symm.imp_right fun h => hsettled i hthere h.1

theorem covered_stamping (hphase : s.canceller = .stamping id roots members)
    (hc : s.Covered (.stamping id roots members)) (h : Next le s s') :
    Sane b s' ∧ s'.Covered s'.canceller := by
  obtain ⟨hcalm, hleft, hsettled⟩ := hc
  obtain ⟨phase, rq, announced, hnext, rfl⟩ := h
  rw [hphase] at hnext
  cases hnext
  have hmoves : Moves s (s.advanceTo (.sweeping roots members) (s.rq.markCanceled id) none) :=
    moves_advanceTo hs (fun _ h => h)
      (rewrites_update (fun _ => rfl) (fun _ _ => rfl) (.inr fun _ h => h))
  refine ⟨hmoves.sane_of_eq rfl hs, hmoves.calm hcalm hcalm.harmless fun i hi =>
    .inl ((terminal_markCanceled i).symm.trans hi), fun i hi => ?_⟩
  rcases hleft.moves hmoves i hi with hmem | hswept
  · rcases mem_cons.mp hmem with rfl | hmem
    · have hthere := (hmoves.rewrites.there_iff i).mp hi
      exact .inr ⟨hmoves.settled (hsettled hthere), .inl (wasCanceled_markCanceled hthere)⟩
    · exact .inl hmem
  · exact .inr hswept

/-! ## Runs -/

theorem recordHarmless_of_returned (hc : s.Covered .returned) (d : D) : s.RecordHarmless d := by
  intro entry job hd hjob hdead
  obtain ⟨hsucceeds, hrecord⟩ := Entry.of_deadChain_none hdead
  have hthere : s.rq.store.There entry.taskId := by simp [Store.There, Store.metadata, hjob]
  have hswept := (hc.2 entry.taskId hthere).resolve_left not_mem_nil
  rcases hswept.quiet with hmark | hknots | ⟨-, hquiet⟩
  · simp [Store.wasCanceled, Store.holds, hjob, hrecord] at hmark
  · exact hknots
  · have hknows := hs.dispatch d
    rw [hd] at hknows
    simp [hquiet entry hknows rfl] at hsucceeds

theorem recordHarmless_of_covered (hc : s.Covered s.canceller) (hidle : s.canceller ≠ .idle)
    (hcond : Undisturbed s (.dispatch d .checkRecord)) : s.RecordHarmless d := by
  cases hphase : s.canceller with
  | idle => exact absurd hphase hidle
  | returned => exact recordHarmless_of_returned hs (hphase ▸ hc) d
  | collecting _ _ _ | sweeping _ _ | cancelling _ _ _ | stamping _ _ _ =>
    refine hcond ?_
    rw [hphase]
    trivial

variable [DecidableEq W] [DecidableEq D]

theorem covered_advance (hc : s.Covered s.canceller) (hcond : Undisturbed s .advance)
    (h : s.next le .advance = some s') : Sane b s' ∧ s'.Covered s'.canceller := by
  obtain ⟨⟨phase, rq, announced⟩, hnext, rfl⟩ := map_eq_some_iff.mp h
  have hstep : Next le s (s.advanceTo phase rq announced) := ⟨phase, rq, announced, hnext, rfl⟩
  cases hphase : s.canceller with
  | idle | returned => simp [hphase, CancelPhase.next] at hnext
  | collecting closure frontier links => exact covered_collecting hs hphase (hphase ▸ hc) hstep
  | sweeping roots members => exact covered_sweeping hs hphase (hphase ▸ hc) hcond hstep
  | cancelling id roots members => exact covered_cancelling hs hphase (hphase ▸ hc) hcond hstep
  | stamping id roots members => exact covered_stamping hs hphase (hphase ▸ hc) hstep

theorem covered_cancel (hc : s.Covered s.canceller) (hcond : Undisturbed s (.cancel id))
    (h : s.next le (.cancel id) = some s') : Sane b s' ∧ s'.Covered s'.canceller := by
  simp only [System.next] at h
  split at h
  · rename_i job hidle hjob
    cases h
    rw [hidle] at hc
    refine ⟨⟨hs.attached, hs.dispatch, hs.touched, hs.working, hs.entries⟩, ⟨hcond, ?_⟩,
      Closing.start hjob⟩
    exact fun i hi => .inl (hc i hi)
  · cases h

theorem covered_next (hc : s.Covered s.canceller) (hcond : Undisturbed s action)
    (h : s.next le action = some s') : Sane b s' ∧ s'.Covered s'.canceller := by
  cases action with
  | advance => exact covered_advance hs hc hcond h
  | cancel id => exact covered_cancel hs hc hcond h
  | work w command =>
    have hworked := worked_of_work hs.working h
    refine ⟨hworked.sane_of_eq hworked.dispatcher hs, hworked.covered hc fun hidle => ?_⟩
    rw [hworked.dispatcher]
    exact (hc.calm hidle).harmless
  | dispatch d command =>
    rcases dispatch_cases hs h with
      ⟨phase, hleads⟩ | ⟨anchor, first, commands, children, hphase, rfl⟩
    · have hdispatched := hleads.dispatched
      refine ⟨hdispatched.sane hs hleads.commands hleads.knows,
        hdispatched.covered hc fun hidle => ?_⟩
      have hharmless := (hc.calm hidle).harmless
      rw [hdispatched.dispatcher]
      refine forall_dispatcher_update hharmless (hleads.harmless (hharmless d) ?_)
      rintro rfl
      exact recordHarmless_of_covered hs hc hidle hcond
    · refine ⟨hs.build hphase, ?_⟩
      show System.Covered _ s.canceller
      by_cases hidle : s.canceller = .idle
      · rw [hidle] at hc ⊢
        have hknows := hs.dispatch d
        rw [hphase] at hknows
        exact fun id hid => hc id (terminal_exec hknows.2.1.1 hid)
      · -- a build next to a cancel is not harmless
        have hharmless := (hc.calm hidle).harmless d
        rw [hphase] at hharmless
        exact absurd hharmless.1 (cons_ne_nil _ _)

end

variable [DecidableEq W] [DecidableEq D]

theorem undisturbed_of_returned (h : s.canceller = .returned) (hnext : (s.next le action).isSome) :
    Undisturbed s action := by
  cases action with
  | work w command => trivial
  | advance => simp [System.next, h, CancelPhase.next] at hnext
  | cancel id => simp [System.next, h] at hnext
  | dispatch d command =>
    cases command with
    | checkRecord =>
      intro hactive
      rw [h] at hactive
      exact hactive.elim
    | receive _ | readStatus | writeStatus | walk | skip | checkExists | build | release => trivial

theorem started_next (hs : Sane b s) (hc : s.Covered .returned) (hphase : s.canceller = .returned)
    (h : s.next le action = some s') :
    s'.canceller = .returned ∧ ∀ id ∈ s'.started, id ∈ s.started := by
  cases action with
  | advance => simp [System.next, hphase, CancelPhase.next] at h
  | cancel id => simp [System.next, hphase] at h
  | work w command =>
    have hworked := worked_of_work hs.working h
    refine ⟨hworked.canceller.trans hphase, fun id hid => ?_⟩
    rcases hworked.begun id hid with hold | htouched
    · exact hold
    · have hswept := (hc.2 id (hs.touched id htouched)).resolve_left not_mem_nil
      rcases hswept.settled with hstarted | hrests
      · exact hstarted
      · exact absurd htouched hrests.2
  | dispatch d command =>
    rcases dispatch_cases hs h with ⟨phase, hleads⟩ | ⟨_, _, _, _, _, rfl⟩
    · refine ⟨hleads.dispatched.canceller.trans hphase, ?_⟩
      rw [hleads.dispatched.begun]
      exact fun _ h => h
    · exact ⟨hphase, fun _ h => h⟩

/-- **A cancel is final.** In every run from the built chain in which no step disturbs the cancel,
once it has returned no job is started that had not started by then, whatever the workers and the
dispatches do. -/
theorem cancel_final {before after : List (Action U W D)}
    (hmeets : (cancelRace le).Meets Undisturbed (System.built b : System U C W D) before)
    (hbefore : (cancelRace le).run (System.built b) before = some s)
    (hreturned : s.canceller = .returned) (hafter : (cancelRace le).run s after = some s') :
    ∀ id ∈ s'.started, id ∈ s.started := by
  obtain ⟨hs, hc⟩ := (cancelRace le).run_invariant Undisturbed
    (fun s : System U C W D => Sane b s ∧ s.Covered s.canceller)
    (fun _ _ _ h hcond hstep => covered_next h.1 h.2 hcond hstep)
    ⟨sane_built b, covered_built b⟩ hmeets hbefore
  have hfinal := (cancelRace le).run_preserves
    (fun t : System U C W D => Sane b t ∧ t.Covered t.canceller ∧ t.canceller = .returned
      ∧ ∀ id ∈ t.started, id ∈ s.started)
    (fun t action t' h hstep => by
      obtain ⟨hs, hc, hphase, hsub⟩ := h
      have hcond := undisturbed_of_returned hphase (isSome_iff_exists.mpr ⟨t', hstep⟩)
      obtain ⟨hs', hc'⟩ := covered_next hs hc hcond hstep
      obtain ⟨hphase', hstarted⟩ := started_next hs (hphase ▸ hc) hphase hstep
      exact ⟨hs', hc', hphase', fun id hid => hsub id (hstarted id hid)⟩)
    ⟨hs, hc, hreturned, fun _ h => h⟩ hafter
  exact hfinal.2.2.2

end CancelFinal

/-! ## A job with one knot child -/

def knotBlueprint : Blueprint Nat Nat := ⟨0, .core 7 (.storage 8 .nil .nil) .nil⟩

def declaredKnot : Ident Nat := (Ident.step ⟨0, []⟩ 0).knotChildId 0

/-- The job is done, and its entry is not dispatched yet. The cancel leaves it as it is. -/
def cancelAfterFinish : List (Action Nat Unit Unit) :=
  [.work () (.pop ⟨0, []⟩), .work () .start, .work () (.publish true), .work () .readDependents,
    .work () .complete, .cancel ⟨0, []⟩, .advance, .advance, .advance, .advance, .advance, .advance]

def dispatchAfterCancel : List (Action Nat Unit Unit) :=
  [.dispatch () (.receive 0), .dispatch () .checkRecord, .dispatch () .readStatus,
    .dispatch () .writeStatus, .dispatch () .walk, .dispatch () .checkExists, .dispatch () .build,
    .dispatch () .build, .dispatch () .build, .dispatch () .build, .work () (.pop declaredKnot),
    .work () .start]

/-- A knot child of a cancelled chain is built and started after the cancel has returned. -/
theorem knot_started_after_cancel :
    ∃ s s' : System Nat Nat Unit Unit,
      (cancelRace fun _ _ => true).run (System.built knotBlueprint) cancelAfterFinish = some s
      ∧ s.canceller = .returned
      ∧ (cancelRace fun _ _ => true).run s dispatchAfterCancel = some s'
      ∧ declaredKnot ∈ s'.started ∧ declaredKnot ∉ s.started :=
  ⟨_, _, rfl, rfl, rfl, by decide, by decide⟩

def cancelWhileRunning : List (Action Nat Unit Unit) :=
  [.work () (.pop ⟨0, []⟩), .work () .start, .cancel ⟨0, []⟩, .advance, .advance, .advance,
    .advance, .advance, .advance, .advance, .advance]

def finishAfterCancel : List (Action Nat Unit Unit) :=
  [.work () (.publish true), .work () .readDependents, .work () .complete,
    .dispatch () (.receive 1), .dispatch () .checkRecord]

theorem running_cancel_final :
    ∃ s s' : System Nat Nat Unit Unit,
      (cancelRace fun _ _ => true).run (System.built knotBlueprint) cancelWhileRunning = some s
      ∧ (cancelRace fun _ _ => true).run s finishAfterCancel = some s'
      ∧ s'.rq.store.terminal ⟨0, []⟩ = true ∧ ∀ id ∈ s'.started, id ∈ s.started := by
  have hmeets : (cancelRace fun _ _ => true).Meets Undisturbed
      (System.built knotBlueprint : System Nat Nat Unit Unit) cancelWhileRunning := by
    refine ⟨trivial, trivial, fun _ => trivial, trivial, trivial, trivial, ?_, ?_, trivial, trivial,
      trivial, trivial⟩
    · exact fun h => absurd h (by decide)
    · exact ⟨fun _ => not_mem_nil, by decide⟩
  exact ⟨_, _, rfl, rfl, rfl, cancel_final hmeets rfl rfl
    (rfl : (cancelRace fun _ _ => true).run _ finishAfterCancel = _)⟩

end IsardVDI.ChangeHandler
