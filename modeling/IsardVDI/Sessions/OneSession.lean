import IsardVDI.Sessions.Store

/-!
# Sessions — one live session per user

Outside the critical sections of a user, the user has at most one session key, and the user
key points to it.

The proof attaches an assertion to every program counter (`Assert`), about the keys of the
user whose lock the call holds. Two facts make this work. A call changes only the keys of
the user whose lock it holds, so it cannot disturb the assertion of another call
(`Assert.frame`). And what a call asserts survives the loss of session keys, so neither a
`DEL` nor a TTL disturbs it.

* **`Inv.goto`**, **`Inv.tryLock`**, **`Inv.release`** — the three kinds of step: a command
  that neither takes nor gives back a lock, a `SETNX`, and the `DEL` of the lock.
* **`inv_exec`** — every command of every call is one of them.
-/

namespace IsardVDI.Sessions

/-! ## Assertions -/

/-- The user key points to every session of the user, so there is at most one. -/
def Pointed (r : Redis) (u : String) : Prop :=
  ∀ id sess, r.session id = some sess → sess.userId = u → r.user u = some id

def NoSession (r : Redis) (u : String) : Prop :=
  ∀ id sess, r.session id = some sess → sess.userId ≠ u

/-- The user has no session but the one under `id`. -/
def Only (r : Redis) (u id : String) : Prop :=
  ∀ i sess, r.session i = some sess → sess.userId = u → i = id

variable {r r' : Redis} {u id v : String} {issued issued' : String → Option String}
  {stage : RevokeStage} {pc before : Pc} {w : World} {p : Nat} {sess : Session}
  {result : RevokeResult}

theorem NoSession.pointed (h : NoSession r u) : Pointed r u :=
  fun id sess hsess hu => absurd hu (h id sess hsess)

theorem Pointed.only (h : Pointed r u) (huser : r.user u = some id) : Only r u id := by
  intro i sess hi hu
  have hid := h i sess hi hu
  rw [huser] at hid
  exact (Option.some.inj hid).symm

/-- What holds of the keys themselves: sessions are stored under their id, belong to the
user they were made for, and a user key names a session made for that user. -/
structure Sound (r : Redis) (issued : String → Option String) : Prop where
  keyed : ∀ id sess, r.session id = some sess → sess.id = id
  owned : ∀ id sess, r.session id = some sess → issued id = some sess.userId
  pointed : ∀ u id, r.user u = some id → issued id = some u

/-- What a call that holds the lock of `u` knows in the middle of `revoke`. -/
def RevokeAssert (r : Redis) (issued : String → Option String) (u : String) :
    RevokeStage → Prop
  | .loadSession id => Pointed r u ∧ issued id = some u
  | .deleteSession sess => Pointed r u ∧ sess.userId = u ∧ Only r u sess.id
  | .loadUser v | .deleteUser v => v = u ∧ NoSession r u

def Assert (r : Redis) (issued : String → Option String) : Pc → Prop
  | .newLoadUser c => Pointed r c.userId
  | .newRevoke c stage =>
    RevokeAssert r issued c.userId stage
      ∧ ∀ id, stage = .loadSession id → Only r c.userId id
  | .newDeleteUser c | .newSaveSession c => NoSession r c.userId
  | .newSaveUser c sessionId =>
    issued sessionId = some c.userId ∧ Only r c.userId sessionId
  | .renewLock sess _ => issued sess.id = some sess.userId
  | .renewReload sess _ => Pointed r sess.userId ∧ issued sess.id = some sess.userId
  | .renewUpdate u sess _ =>
    Pointed r u ∧ sess.userId = u ∧ r.user u = some sess.id ∧ issued sess.id = some u
  | .revokeLock u id => issued id = some u
  | .revokeRun u stage => RevokeAssert r issued u stage
  | .release u => Pointed r u
  | .idle | .newLock _ | .renewLoad _ _ | .revokeLoad _ => True

/-- From the point of view of user `u`, session keys may have gone, and the user key if no session
is left. -/
structure Fewer (r r' : Redis) (u : String) : Prop where
  session : ∀ id sess, r'.session id = some sess → sess.userId = u → r.session id = some sess
  user : r'.user u = r.user u ∨ NoSession r' u

/-- Only session keys may have gone. -/
structure Shrinks (r r' : Redis) (u : String) : Prop where
  session : ∀ id sess, r'.session id = some sess → sess.userId = u → r.session id = some sess
  user : r'.user u = r.user u

theorem Shrinks.refl (r : Redis) (u : String) : Shrinks r r u := ⟨fun _ _ h _ => h, rfl⟩

theorem Shrinks.fewer (h : Shrinks r r' u) : Fewer r r' u := ⟨h.session, .inl h.user⟩

theorem Pointed.fewer (h : Pointed r u) (hs : Fewer r r' u) : Pointed r' u := by
  rcases hs.user with huser | hno
  · intro id sess hsess hu
    rw [huser]
    exact h id sess (hs.session id sess hsess hu) hu
  · exact hno.pointed

theorem NoSession.fewer (h : NoSession r u) (hs : Fewer r r' u) : NoSession r' u :=
  fun id sess hsess hu => h id sess (hs.session id sess hsess hu) hu

theorem Only.fewer (h : Only r u id) (hs : Fewer r r' u) : Only r' u id :=
  fun i sess hsess hu => h i sess (hs.session i sess hsess hu) hu

theorem RevokeAssert.frame (h : RevokeAssert r issued u stage)
    (hissued : ∀ id v, issued id = some v → issued' id = some v) (hs : Fewer r r' u) :
    RevokeAssert r' issued' u stage := by
  cases stage with
  | loadSession id => exact ⟨h.1.fewer hs, hissued _ _ h.2⟩
  | deleteSession sess => exact ⟨h.1.fewer hs, h.2.1, h.2.2.fewer hs⟩
  | loadUser v | deleteUser v => exact ⟨h.1, h.2.fewer hs⟩

/-- **The frame rule.** An assertion survives the loss of keys of the user whose lock is held,
except that a renewal is about to write under the id the user key points to. -/
theorem Assert.frame (h : Assert r issued pc)
    (hissued : ∀ id v, issued id = some v → issued' id = some v)
    (hs : ∀ u, pc.held = some u → Fewer r r' u)
    (hrenew : ∀ u sess now, pc = .renewUpdate u sess now → r'.user u = r.user u) :
    Assert r' issued' pc := by
  cases pc with
  | idle | newLock | renewLoad | revokeLoad => trivial
  | newLoadUser c => exact h.fewer (hs _ rfl)
  | newRevoke c stage =>
    exact ⟨h.1.frame hissued (hs _ rfl), fun id hid => (h.2 id hid).fewer (hs _ rfl)⟩
  | newDeleteUser c | newSaveSession c => exact h.fewer (hs _ rfl)
  | newSaveUser c sessionId =>
    exact ⟨hissued _ _ h.1, h.2.fewer (hs _ rfl)⟩
  | renewLock sess now => exact hissued _ _ h
  | renewReload sess now => exact ⟨h.1.fewer (hs _ rfl), hissued _ _ h.2⟩
  | renewUpdate u sess now =>
    refine ⟨h.1.fewer (hs _ rfl), h.2.1, ?_, hissued _ _ h.2.2.2⟩
    exact (hrenew u sess now rfl).trans h.2.2.1
  | revokeLock u id => exact hissued _ _ h
  | revokeRun u stage => exact RevokeAssert.frame h hissued (hs _ rfl)
  | release u => exact h.fewer (hs _ rfl)

/-! ## The invariant and the three kinds of step -/

/-- No call is between its `SETNX` and its `DEL` of the user's lock. -/
def Quiet (w : World) (u : String) : Prop := ∀ p, (w.pc p).held ≠ some u

structure Inv (w : World) : Prop where
  sound : Sound w.redis w.issued
  exclusive : ∀ p q u, (w.pc p).held = some u → (w.pc q).held = some u → p = q
  locked : ∀ p u, (w.pc p).held = some u → w.redis.lock u = true
  asserts : ∀ p, Assert w.redis w.issued (w.pc p)
  quiet : ∀ u, Quiet w u → Pointed w.redis u

theorem Inv.assert_pc (h : Inv w) (hpc : w.pc p = pc) : Assert w.redis w.issued pc :=
  hpc ▸ h.asserts p

/-- A step of `p`: the locks of the other calls stay, and so does what they know. -/
theorem Inv.move (h : Inv w) (hissued : ∀ id v, w.issued id = some v → issued id = some v)
    (hsound : Sound r issued)
    (hothers : ∀ q, q ≠ p → ∀ v, (w.pc q).held = some v →
      pc.held ≠ some v ∧ r.lock v = true ∧ Shrinks w.redis r v)
    (hlocked : ∀ v, pc.held = some v → r.lock v = true) (hassert : Assert r issued pc)
    (hquiet : ∀ v, pc.held ≠ some v → (∀ q, q ≠ p → (w.pc q).held ≠ some v) → Pointed r v) :
    Inv (World.goto { w with issued := issued } p r pc) := by
  set w' := World.goto { w with issued := issued } p r pc
  have hself : w'.pc p = pc := World.goto_pc_self ..
  have hne : ∀ q, q ≠ p → w'.pc q = w.pc q := fun q hq => World.goto_pc_ne _ _ _ hq
  refine ⟨hsound, ?_, ?_, ?_, ?_⟩
  · intro q q' u hq hq'
    by_cases hqp : q = p <;> by_cases hqp' : q' = p
    · rw [hqp, hqp']
    · rw [hqp, hself] at hq
      rw [hne q' hqp'] at hq'
      exact absurd hq (hothers q' hqp' u hq').1
    · rw [hqp', hself] at hq'
      rw [hne q hqp] at hq
      exact absurd hq' (hothers q hqp u hq).1
    · rw [hne q hqp] at hq
      rw [hne q' hqp'] at hq'
      exact h.exclusive q q' u hq hq'
  · intro q u hq
    by_cases hqp : q = p
    · rw [hqp, hself] at hq
      exact hlocked u hq
    · rw [hne q hqp] at hq
      exact (hothers q hqp u hq).2.1
  · intro q
    by_cases hqp : q = p
    · rw [hqp, hself]
      exact hassert
    · rw [hne q hqp]
      refine (h.asserts q).frame hissued (fun u hu => (hothers q hqp u hu).2.2.fewer) ?_
      exact fun u sess now hq => (hothers q hqp u (by rw [hq]; rfl)).2.2.user
  · intro u hu
    exact hquiet u (hself ▸ hu p) fun q hqp => hne q hqp ▸ hu q

theorem Inv.goto (h : Inv w) (hissued : ∀ id v, w.issued id = some v → issued id = some v)
    (hheld : pc.held = (w.pc p).held) (hlock : r.lock = w.redis.lock) (hsound : Sound r issued)
    (hframe : ∀ u, (w.pc p).held ≠ some u → Shrinks w.redis r u) (hassert : Assert r issued pc) :
    Inv (World.goto { w with issued := issued } p r pc) := by
  refine h.move hissued hsound ?_ ?_ hassert ?_
  · intro q hqp v hv
    -- another call holds another lock
    have hp : (w.pc p).held ≠ some v := fun hp => hqp (h.exclusive q p v hv hp)
    exact ⟨hheld ▸ hp, hlock ▸ h.locked q v hv, hframe v hp⟩
  · intro v hv
    rw [hlock]
    exact h.locked p v (hheld ▸ hv)
  · intro v hv hothers
    rw [hheld] at hv
    refine (h.quiet v fun q => ?_).fewer (hframe v hv).fewer
    exact (eq_or_ne q p).elim (fun hq => hq ▸ hv) (hothers q)

theorem Inv.goto_same (h : Inv w) (hpc : w.pc p = before) (hheld : pc.held = before.held)
    (hassert : Assert w.redis w.issued pc) : Inv (w.goto p w.redis pc) :=
  h.goto (fun _ _ h => h) (hpc ▸ hheld) rfl h.sound (fun u _ => Shrinks.refl _ u) hassert

theorem Inv.tryLock (h : Inv w) (hpc : w.pc p = before) (hnone : before.held = none)
    (hheld : pc.held = some u)
    (hassert : Pointed w.redis u → Assert (w.redis.setLock u true) w.issued pc) :
    Inv (w.tryLock p u pc) := by
  unfold World.tryLock
  split
  · exact h
  next hfree =>
  have hquiet : Quiet w u := fun q hq => hfree (h.locked q u hq)
  refine h.move (fun _ _ h => h) ⟨h.sound.keyed, h.sound.owned, h.sound.pointed⟩ ?_ ?_
    (hassert (h.quiet u hquiet)) ?_
  · intro q _ v hv
    have hvu : v ≠ u := fun hvu => hquiet q (hvu ▸ hv)
    rw [hheld, Redis.setLock_ne _ _ hvu]
    exact ⟨fun huv => hvu (Option.some.inj huv).symm, h.locked q v hv, fun _ _ h _ => h, rfl⟩
  · intro v hv
    rw [← Option.some.inj (hheld.symm.trans hv), Redis.setLock_self]
  · -- a user that is quiet now was quiet before: `p` held nothing
    intro v _ hothers
    refine h.quiet v fun q => ?_
    exact (eq_or_ne q p).elim (fun hq => by rw [hq, hpc, hnone]; exact nofun) (hothers q)

theorem Inv.release (h : Inv w) (hpc : w.pc p = .release u) :
    Inv (w.goto p (w.redis.setLock u false) .idle) := by
  have hp : (w.pc p).held = some u := by rw [hpc]; rfl
  refine h.move (fun _ _ h => h) ⟨h.sound.keyed, h.sound.owned, h.sound.pointed⟩ ?_ nofun
    trivial ?_
  · intro q hqp v hv
    have hvu : v ≠ u := fun hvu => hqp (h.exclusive q p v hv (hvu ▸ hp))
    exact ⟨nofun, (Redis.setLock_ne _ _ hvu).trans (h.locked q v hv), fun _ _ h _ => h, rfl⟩
  · intro v _ hothers
    by_cases hvu : v = u
    · rw [hvu]
      exact h.assert_pc hpc
    · have hpv : (w.pc p).held ≠ some v := fun hv => hvu (Option.some.inj (hv.symm.trans hp))
      refine h.quiet v fun q => ?_
      exact (eq_or_ne q p).elim (fun hq => hq ▸ hpv) (hothers q)

/-! ## Commands -/

theorem deleteSession_some {i : String} (h : (r.deleteSession id).session i = some sess) :
    i ≠ id ∧ r.session i = some sess := by
  by_cases hid : i = id
  · rw [hid, Redis.deleteSession_self] at h
    cases h
  · rw [Redis.deleteSession_ne _ hid] at h
    exact ⟨hid, h⟩

theorem Sound.deleteSession (h : Sound r issued) (id : String) :
    Sound (r.deleteSession id) issued :=
  ⟨fun i sess hi => h.keyed i sess (deleteSession_some hi).2,
    fun i sess hi => h.owned i sess (deleteSession_some hi).2, h.pointed⟩

theorem shrinks_deleteSession (r : Redis) (id u : String) : Shrinks r (r.deleteSession id) u :=
  ⟨fun _ _ hi _ => (deleteSession_some hi).2, rfl⟩

theorem Sound.deleteUser (h : Sound r issued) (u : String) : Sound (r.deleteUser u) issued := by
  refine ⟨h.keyed, h.owned, ?_⟩
  intro v id hv
  by_cases hvu : v = u
  · rw [hvu, Redis.deleteUser_self] at hv
    cases hv
  · rw [Redis.deleteUser_ne _ hvu] at hv
    exact h.pointed v id hv

theorem shrinks_deleteUser (r : Redis) (h : v ≠ u) : Shrinks r (r.deleteUser u) v :=
  ⟨fun _ _ h _ => h, Redis.deleteUser_ne r h⟩

theorem Sound.setUser (h : Sound r issued) (hid : issued id = some u) :
    Sound (r.setUser u id) issued := by
  refine ⟨h.keyed, h.owned, ?_⟩
  intro v i hv
  by_cases hvu : v = u
  · rw [hvu, Redis.setUser_self] at hv
    rw [← Option.some.inj hv, hvu, hid]
  · rw [Redis.setUser_ne _ _ hvu] at hv
    exact h.pointed v i hv

theorem shrinks_setUser (r : Redis) (id : String) (h : v ≠ u) : Shrinks r (r.setUser u id) v :=
  ⟨fun _ _ h _ => h, Redis.setUser_ne r id h⟩

theorem setSession_cases {sess' : Session} (h : (r.setSession sess).session id = some sess') :
    (id = sess.id ∧ sess' = sess) ∨ r.session id = some sess' := by
  by_cases hid : id = sess.id
  · rw [hid, Redis.setSession_self] at h
    exact .inl ⟨hid, (Option.some.inj h).symm⟩
  · rw [Redis.setSession_ne _ hid] at h
    exact .inr h

theorem Sound.setSession (h : Sound r issued) (hsess : issued' sess.id = some sess.userId)
    (hissued : ∀ id v, issued id = some v → issued' id = some v) :
    Sound (r.setSession sess) issued' := by
  refine ⟨?_, ?_, fun u id hu => hissued _ _ (h.pointed u id hu)⟩
  · intro id sess' hid
    rcases setSession_cases hid with ⟨rfl, rfl⟩ | hid
    · rfl
    · exact h.keyed id sess' hid
  · intro id sess' hid
    rcases setSession_cases hid with ⟨rfl, rfl⟩ | hid
    · exact hsess
    · exact hissued _ _ (h.owned id sess' hid)

theorem shrinks_setSession (r : Redis) (h : sess.userId ≠ u) : Shrinks r (r.setSession sess) u := by
  refine ⟨?_, rfl⟩
  intro id sess' hid hu
  rcases setSession_cases hid with ⟨_, rfl⟩ | hid
  · exact absurd hu h
  · exact hid

/-! ### `revoke`

The user key points to every session of the user. So once the session it names is not there,
or not there any more, the user has none. -/

theorem Only.noSession_of_missing (h : Only r u id) (hsess : r.session id = none) :
    NoSession r u := by
  intro i sess hi hu
  rw [h i sess hi hu, hsess] at hi
  cases hi

theorem Only.noSession_deleteSession (h : Only r u id) : NoSession (r.deleteSession id) u := by
  intro i sess hi hu
  obtain ⟨hne, hold⟩ := deleteSession_some hi
  exact hne (h i sess hold hu)

/-- What one command of `revoke` does, by a call that holds the lock of `u`. -/
structure RevokeStep (r r' : Redis) (issued : String → Option String) (u : String)
    (stage : RevokeStage) (result : RevokeResult) : Prop where
  sound : Sound r' issued
  lock : r'.lock = r.lock
  frame : ∀ v, v ≠ u → Shrinks r r' v
  more : ∀ stage', result = .more stage' →
    RevokeAssert r' issued u stage' ∧ ∀ id, stage' ≠ .loadSession id
  done : result = .done → NoSession r' u
  -- `Revoke` may have been called for a session the user key does not name
  notFound : result = .notFound →
    Pointed r' u ∧ ((∀ id, stage = .loadSession id → Only r u id) → NoSession r' u)

theorem revoke_loadSession (hsound : Sound r issued) (h : RevokeAssert r issued u (.loadSession id))
    (hstep : revoke r (.loadSession id) = (r', result)) :
    RevokeStep r r' issued u (.loadSession id) result := by
  obtain ⟨hpointed, hissued⟩ := h
  cases hsess : r.session id with
  | some sess =>
    simp only [revoke, hsess] at hstep
    cases hstep
    have hid := hsound.keyed id sess hsess
    have hu : sess.userId = u :=
      Option.some.inj ((hsound.owned id sess hsess).symm.trans hissued)
    refine ⟨hsound, rfl, fun v _ => Shrinks.refl _ v, ?_, nofun, nofun⟩
    rintro _ ⟨⟩
    exact ⟨⟨hpointed, hu, hpointed.only (by rw [hid]; exact hpointed id sess hsess hu)⟩, nofun⟩
  | none =>
    simp only [revoke, hsess] at hstep
    cases hstep
    refine ⟨hsound, rfl, fun v _ => Shrinks.refl _ v, nofun, nofun, fun _ => ⟨hpointed, ?_⟩⟩
    exact fun honly => (honly id rfl).noSession_of_missing hsess

theorem revoke_deleteSession (hsound : Sound r issued)
    (h : RevokeAssert r issued u (.deleteSession sess))
    (hstep : revoke r (.deleteSession sess) = (r', result)) :
    RevokeStep r r' issued u (.deleteSession sess) result := by
  obtain ⟨hpointed, hu, honly⟩ := h
  cases hsess : r.session sess.id with
  | some sess' =>
    simp only [revoke, hsess] at hstep
    cases hstep
    refine ⟨hsound.deleteSession _, rfl, fun v _ => shrinks_deleteSession _ _ v, ?_, nofun, nofun⟩
    rintro _ ⟨⟩
    exact ⟨⟨hu, honly.noSession_deleteSession⟩, nofun⟩
  | none =>
    -- its TTL ended in between
    simp only [revoke, hsess] at hstep
    cases hstep
    exact ⟨hsound, rfl, fun v _ => Shrinks.refl _ v, nofun, nofun,
      fun _ => ⟨hpointed, fun _ => honly.noSession_of_missing hsess⟩⟩

theorem revoke_user (hsound : Sound r issued) (hstage : stage = .loadUser u ∨ stage = .deleteUser u)
    (hno : NoSession r u) (hstep : revoke r stage = (r', result)) :
    RevokeStep r r' issued u stage result := by
  cases huser : r.user u with
  | some id =>
    rcases hstage with rfl | rfl
    · simp only [revoke, huser] at hstep
      cases hstep
      refine ⟨hsound, rfl, fun v _ => Shrinks.refl _ v, ?_, nofun, nofun⟩
      rintro _ ⟨⟩
      exact ⟨⟨rfl, hno⟩, nofun⟩
    · simp only [revoke, huser] at hstep
      cases hstep
      exact ⟨hsound.deleteUser _, rfl, fun w hw => shrinks_deleteUser r hw, nofun,
        fun _ => hno, nofun⟩
  | none =>
    have hend : r' = r ∧ result = .notFound := by
      rcases hstage with rfl | rfl <;> simpa [revoke, huser, eq_comm] using hstep
    obtain ⟨rfl, rfl⟩ := hend
    exact ⟨hsound, rfl, fun v _ => Shrinks.refl _ v, nofun, nofun,
      fun _ => ⟨hno.pointed, fun _ => hno⟩⟩

theorem revoke_step (hsound : Sound r issued) (h : RevokeAssert r issued u stage)
    (hstep : revoke r stage = (r', result)) : RevokeStep r r' issued u stage result := by
  cases stage with
  | loadSession id => exact revoke_loadSession hsound h hstep
  | deleteSession sess => exact revoke_deleteSession hsound h hstep
  | loadUser v =>
    obtain ⟨rfl, hno⟩ := h
    exact revoke_user hsound (.inl rfl) hno hstep
  | deleteUser v =>
    obtain ⟨rfl, hno⟩ := h
    exact revoke_user hsound (.inr rfl) hno hstep

theorem Inv.goto_held (h : Inv w) (hpc : w.pc p = before) (hp : before.held = some u)
    (hheld : pc.held = some u) (hlock : r.lock = w.redis.lock) (hsound : Sound r w.issued)
    (hframe : ∀ v, v ≠ u → Shrinks w.redis r v) (hassert : Assert r w.issued pc) :
    Inv (w.goto p r pc) := by
  rw [← hpc] at hp
  refine h.goto (fun _ _ h => h) (hheld.trans hp.symm) hlock hsound ?_ hassert
  intro v hv
  exact hframe v fun heq => hv (by rw [hp, heq])

theorem inv_begin {cfg : Cfg} {w' : World} {call : Call} {now : Int} (h : Inv w)
    (hstep : begin cfg w p call now = some w') : Inv w' := by
  cases hpc : w.pc p with
  | idle =>
    simp only [begin, hpc] at hstep
    rcases call with ⟨u, _ | addr⟩ | ⟨id, _ | addr⟩ | ⟨id⟩
    · cases hstep
      exact h
    · dsimp only at hstep
      split at hstep
      · cases hstep
        exact h
      · cases hstep
        exact h.goto_same hpc rfl trivial
    · cases hstep
      exact h
    · cases hstep
      exact h.goto_same hpc rfl trivial
    · cases hstep
      exact h.goto_same hpc rfl trivial
  | _ => simp [begin, hpc] at hstep

theorem inv_giveUp {w' : World} (h : Inv w) (hstep : giveUp w p = some w') : Inv w' := by
  cases hpc : w.pc p with
  | newLock | renewLock | revokeLock =>
    simp only [giveUp, hpc] at hstep
    cases hstep
    exact h.goto_same hpc rfl trivial
  | _ => simp [giveUp, hpc] at hstep

section Commands

variable {cfg : Cfg} {w w' : World} {p : Nat} {now now' : Int} {uuid : String} (h : Inv w)
  (hstep : exec cfg w p now uuid = some w')

include h hstep

variable {c : NewCall}

theorem inv_newLoadUser (hpc : w.pc p = .newLoadUser c) : Inv w' := by
  have hassert := h.assert_pc hpc
  cases huser : w.redis.user c.userId with
  | some id =>
    simp only [exec, hpc, huser] at hstep
    cases hstep
    refine h.goto_same hpc rfl ⟨⟨hassert, h.sound.pointed _ _ huser⟩, ?_⟩
    rintro _ ⟨⟩
    exact Pointed.only hassert huser
  | none =>
    simp only [exec, hpc, huser] at hstep
    cases hstep
    refine h.goto_same hpc rfl ?_
    intro id sess hsess hu
    have := hassert id sess hsess hu
    rw [huser] at this
    cases this

theorem inv_newRevoke (hpc : w.pc p = .newRevoke c stage) : Inv w' := by
  -- the three answers of `revoke`: it goes on, it is done, or something was missing
  have hassert := h.assert_pc hpc
  cases hrevoke : revoke w.redis stage with
  | mk r result =>
    simp only [exec, hpc, hrevoke] at hstep
    obtain ⟨hsound, hlock, hframe, hmore, hdone, hnotFound⟩ :=
      revoke_step h.sound hassert.1 hrevoke
    cases result with
    | more stage' =>
      cases hstep
      obtain ⟨hstage, hnext⟩ := hmore stage' rfl
      exact h.goto_held hpc rfl rfl hlock hsound hframe
        ⟨hstage, fun id hid => absurd hid (hnext id)⟩
    | done =>
      cases hstep
      exact h.goto_held hpc rfl rfl hlock hsound hframe (hdone rfl)
    | notFound =>
      cases hstep
      exact h.goto_held hpc rfl rfl hlock hsound hframe ((hnotFound rfl).2 hassert.2)

theorem inv_newDeleteUser (hpc : w.pc p = .newDeleteUser c) : Inv w' := by
  have hassert := h.assert_pc hpc
  cases huser : w.redis.user c.userId with
  | some id =>
    simp only [exec, hpc, huser] at hstep
    cases hstep
    exact h.goto_held hpc rfl rfl rfl (h.sound.deleteUser _)
      (fun v hv => shrinks_deleteUser _ hv) hassert
  | none =>
    simp only [exec, hpc, huser] at hstep
    cases hstep
    exact h.goto_same hpc rfl (NoSession.pointed hassert)

theorem inv_newSaveSession (hpc : w.pc p = .newSaveSession c) : Inv w' := by
  -- the id is new, so no key and no assertion speaks of it yet
  have hassert := h.assert_pc hpc
  cases hfresh : w.issued uuid with
  | some u => simp [exec, hpc, hfresh] at hstep
  | none =>
    simp only [exec, hpc, hfresh] at hstep
    cases hstep
    set issued := Function.update w.issued uuid (some c.userId) with hissued
    have hnew : issued uuid = some c.userId := Function.update_self ..
    have hmono : ∀ id v, w.issued id = some v → issued id = some v := by
      intro id v hid
      by_cases hne : id = uuid
      · rw [hne, hfresh] at hid
        cases hid
      · rw [hissued, Function.update_of_ne hne]
        exact hid
    refine h.goto hmono (by rw [hpc]; rfl) rfl (h.sound.setSession hnew hmono) ?_ ⟨hnew, ?_⟩
    · intro u hu
      exact shrinks_setSession _ fun heq => hu (by rw [hpc]; exact congrArg some heq)
    · intro id sess hsess hu
      rcases setSession_cases hsess with ⟨hid, _⟩ | hold
      · exact hid
      · exact absurd hu (hassert id sess hold)

theorem inv_newSaveUser {sessionId : String} (hpc : w.pc p = .newSaveUser c sessionId) :
    Inv w' := by
  have hassert := h.assert_pc hpc
  simp only [exec, hpc] at hstep
  cases hstep
  refine h.goto_held hpc rfl rfl rfl (h.sound.setUser hassert.1)
    (fun v hv => shrinks_setUser _ _ hv) ?_
  intro id sess hsess hu
  rw [hassert.2 id sess hsess hu]
  exact Redis.setUser_self ..

theorem inv_renewLoad {id addr : String} (hpc : w.pc p = .renewLoad id addr) : Inv w' := by
  -- no lock is held yet: only whom the session was made for can be relied on later
  cases hsess : w.redis.session id with
  | none =>
    simp only [exec, hpc, hsess] at hstep
    cases hstep
    exact h.goto_same hpc rfl trivial
  | some sess =>
    simp only [exec, hpc, hsess] at hstep
    split at hstep
    · cases hstep
      exact h.goto_same hpc rfl trivial
    · split at hstep
      · cases hstep
        exact h.goto_same hpc rfl trivial
      · cases hstep
        refine h.goto_same hpc rfl ?_
        show w.issued sess.id = some sess.userId
        rw [h.sound.keyed id sess hsess]
        exact h.sound.owned id sess hsess

theorem inv_renewReload (hpc : w.pc p = .renewReload sess now') : Inv w' := by
  -- a second login may have replaced the session; if it is still there it is still the user's
  obtain ⟨hpointed, hissued⟩ := h.assert_pc hpc
  cases hsess : w.redis.session sess.id with
  | none =>
    simp only [exec, hpc, hsess] at hstep
    cases hstep
    exact h.goto_same hpc rfl hpointed
  | some reloaded =>
    simp only [exec, hpc, hsess] at hstep
    cases hstep
    have hid := h.sound.keyed _ _ hsess
    have hu : reloaded.userId = sess.userId :=
      Option.some.inj ((h.sound.owned _ _ hsess).symm.trans hissued)
    refine h.goto_same hpc rfl ⟨hpointed, hu, ?_, ?_⟩
    · rw [hid]
      exact hpointed _ _ hsess hu
    · rw [hid]
      exact hissued

theorem inv_renewUpdate (hpc : w.pc p = .renewUpdate u sess now') : Inv w' := by
  -- the session is written back under the id the user key points to
  obtain ⟨hpointed, hu, huser, hissued⟩ := h.assert_pc hpc
  simp only [exec, hpc] at hstep
  cases hstep
  refine h.goto_held hpc rfl rfl rfl
    (h.sound.setSession (by rw [hissued, ← hu]) fun _ _ h => h)
    (fun v hv => shrinks_setSession _ fun heq => hv (by rw [← heq, ← hu])) ?_
  intro id sess' hsess' hu'
  rcases setSession_cases hsess' with ⟨hid, _⟩ | hold
  · rw [hid]
    exact huser
  · exact hpointed id sess' hold hu'

theorem inv_revokeLoad {id : String} (hpc : w.pc p = .revokeLoad id) : Inv w' := by
  cases hsess : w.redis.session id with
  | none =>
    simp only [exec, hpc, hsess] at hstep
    cases hstep
    exact h.goto_same hpc rfl trivial
  | some sess =>
    simp only [exec, hpc, hsess] at hstep
    cases hstep
    exact h.goto_same hpc rfl (h.sound.owned id sess hsess)

theorem inv_revokeRun (hpc : w.pc p = .revokeRun u stage) : Inv w' := by
  have hassert := h.assert_pc hpc
  cases hrevoke : revoke w.redis stage with
  | mk r result =>
    simp only [exec, hpc, hrevoke] at hstep
    obtain ⟨hsound, hlock, hframe, hmore, hdone, hnotFound⟩ :=
      revoke_step h.sound hassert hrevoke
    cases result with
    | more stage' =>
      cases hstep
      exact h.goto_held hpc rfl rfl hlock hsound hframe (hmore stage' rfl).1
    | done =>
      cases hstep
      exact h.goto_held hpc rfl rfl hlock hsound hframe (hdone rfl).pointed
    | notFound =>
      cases hstep
      exact h.goto_held hpc rfl rfl hlock hsound hframe (hnotFound rfl).1

theorem inv_exec : Inv w' := by
  cases hpc : w.pc p with
  | idle => simp [exec, hpc] at hstep
  | newLock c =>
    simp only [exec, hpc] at hstep
    cases hstep
    exact h.tryLock hpc rfl rfl id
  | newLoadUser c => exact inv_newLoadUser h hstep hpc
  | newRevoke c stage => exact inv_newRevoke h hstep hpc
  | newDeleteUser c => exact inv_newDeleteUser h hstep hpc
  | newSaveSession c => exact inv_newSaveSession h hstep hpc
  | newSaveUser c sessionId => exact inv_newSaveUser h hstep hpc
  | renewLoad id addr => exact inv_renewLoad h hstep hpc
  | renewLock sess now' =>
    simp only [exec, hpc] at hstep
    cases hstep
    exact h.tryLock hpc rfl rfl fun hpointed => ⟨hpointed, h.assert_pc hpc⟩
  | renewReload sess now' => exact inv_renewReload h hstep hpc
  | renewUpdate u sess now' => exact inv_renewUpdate h hstep hpc
  | revokeLoad id => exact inv_revokeLoad h hstep hpc
  | revokeLock u id =>
    simp only [exec, hpc] at hstep
    cases hstep
    exact h.tryLock hpc rfl rfl fun hpointed => ⟨hpointed, h.assert_pc hpc⟩
  | revokeRun u stage => exact inv_revokeRun h hstep hpc
  | release u =>
    simp only [exec, hpc] at hstep
    cases hstep
    exact h.release hpc

end Commands

theorem inv_expire (h : Inv w) (id : String) :
    Inv { w with redis := w.redis.deleteSession id } where
  sound := h.sound.deleteSession id
  exclusive := h.exclusive
  locked := h.locked
  asserts p := (h.asserts p).frame (fun _ _ h => h)
    (fun u _ => (shrinks_deleteSession _ _ u).fewer) fun _ _ _ _ => rfl
  quiet u hu := (h.quiet u hu).fewer (shrinks_deleteSession _ _ u).fewer

/-- A user key ends with the sessions of the user: when its TTL ends the user has no session key,
and no renewal is about to write one again. -/
def Timely (w : World) : Action → Prop
  | .expireUser u => NoSession w.redis u ∧ ∀ p sess now, w.pc p ≠ .renewUpdate u sess now
  | _ => True

theorem inv_expireUser (h : Inv w) (ht : Timely w (.expireUser u)) :
    Inv { w with redis := w.redis.deleteUser u } := by
  obtain ⟨hno, hrenew⟩ := ht
  have hfewer : ∀ v, Fewer w.redis (w.redis.deleteUser u) v := by
    intro v
    by_cases hvu : v = u
    · subst hvu
      exact ⟨fun _ _ h _ => h, .inr hno⟩
    · exact (shrinks_deleteUser _ hvu).fewer
  refine ⟨h.sound.deleteUser u, h.exclusive, h.locked, fun p => ?_,
    fun v hv => (h.quiet v hv).fewer (hfewer v)⟩
  refine (h.asserts p).frame (fun _ _ h => h) (fun v _ => hfewer v) fun v sess now hpc => ?_
  refine Redis.deleteUser_ne _ ?_
  rintro rfl
  exact hrenew p sess now hpc

theorem inv_init : Inv World.init where
  sound := ⟨nofun, nofun, nofun⟩
  exclusive := nofun
  locked := nofun
  asserts _ := trivial
  quiet _ _ := nofun

/-- **One live session per user.** Whatever calls run, interleaved command by command, if the user
keys end with the sessions then a user outside whose critical sections we look has at most one
session key, and the user key, if there is one, points to it. -/
theorem sessionService_one_session (cfg : Cfg) (actions : List Action) (w : World)
    (htimely : (sessionService cfg).Meets Timely World.init actions)
    (hrun : (sessionService cfg).run World.init actions = some w) (u : String)
    (hquiet : Quiet w u) :
    (∀ id sess id' sess', w.redis.session id = some sess → sess.userId = u →
        w.redis.session id' = some sess' → sess'.userId = u → id = id')
      ∧ (∀ sid id sess, w.redis.user u = some sid → w.redis.session id = some sess →
        sess.userId = u → sid = id) := by
  have hinv : Inv w := by
    refine (sessionService cfg).run_invariant Timely Inv ?_ inv_init htimely hrun
    intro w a w' hw ha hnext
    cases a with
    | begin p call now => exact inv_begin hw hnext
    | exec p now uuid => exact inv_exec hw hnext
    | giveUp p => exact inv_giveUp hw hnext
    | expire id =>
      cases hnext
      exact inv_expire hw id
    | expireUser u =>
      cases hnext
      exact inv_expireUser hw ha
  have hpointed := hinv.quiet u hquiet
  constructor
  · intro id sess id' sess' hsess hu hsess' hu'
    have hid := hpointed id sess hsess hu
    rw [hpointed id' sess' hsess' hu'] at hid
    exact (Option.some.inj hid).symm
  · intro sid id sess hsid hsess hu
    have hid := hpointed id sess hsess hu
    rw [hsid] at hid
    exact Option.some.inj hid

def login (p : Nat) (now : Int) (uuid : String) : List Action :=
  [.begin p (.new "ada" (some "10.0.0.1")) now, .exec p now "", .exec p now "", .exec p now uuid,
    .exec p now "", .exec p now ""]

/-- A login whose two keys end; then another one, and a renewal of its session that loads it before
a third login takes the lock, waits, and reloads after that login has replaced the session. -/
def staleRenewal : List Action :=
  login 0 0 "old" ++ .expire "old" :: .expireUser "ada" :: login 0 0 "first" ++
  [.begin 1 (.renew "first" (some "10.0.0.1")) 5, .exec 1 5 "",
    .begin 2 (.new "ada" (some "10.0.0.2")) 6, .exec 2 6 "", .exec 1 6 "", .exec 2 6 "",
    .exec 2 6 "", .exec 2 6 "", .exec 2 6 "", .exec 2 6 "", .exec 2 6 "second", .exec 2 6 "",
    .exec 2 6 "", .exec 1 7 "", .exec 1 7 "", .exec 1 7 ""]

theorem staleRenewal_timely :
    (sessionService ⟨100, 60, 10, false⟩).Meets Timely World.init staleRenewal := by
  -- the eighth action is the only one in question
  refine ⟨trivial, trivial, trivial, trivial, trivial, trivial, trivial, ⟨?_, ?_⟩, ?_⟩
  · intro id sess hsess
    obtain ⟨hne, hsess⟩ := deleteSession_some hsess
    rcases setSession_cases hsess with ⟨hid, _⟩ | hnone
    · exact absurd hid hne
    · cases hnone
  · intro p
    match p with
    | 0 | p + 1 => exact nofun
  · repeat' constructor

theorem sessionService_one_session_staleRenewal :
    ∃ w, (sessionService ⟨100, 60, 10, false⟩).run World.init staleRenewal = some w
      ∧ w.redis.session "first" = none
      ∧ w.redis.session "second" = some ⟨"second", "ada", "10.0.0.2", ⟨106, 66, 16⟩⟩
      ∧ ∀ sid id sess, w.redis.user "ada" = some sid → w.redis.session id = some sess →
          sess.userId = "ada" → sid = id := by
  refine ⟨_, rfl, rfl, rfl, (sessionService_one_session ⟨100, 60, 10, false⟩ staleRenewal _
    staleRenewal_timely rfl "ada" ?_).2⟩
  intro p
  match p with
  | 0 | 1 | 2 => decide
  | p + 3 => exact nofun

/-- The user key ends while the session of the first login is there, and a second login finds
nothing to revoke. -/
theorem userKey_ends_first :
    ∃ w, (sessionService ⟨100, 60, 10, false⟩).run World.init
        (login 0 0 "first" ++ .expireUser "ada" :: login 1 100 "second") = some w
      ∧ (w.redis.session "first").map (·.userId) = some "ada"
      ∧ (w.redis.session "second").map (·.userId) = some "ada"
      ∧ Quiet w "ada" := by
  refine ⟨_, rfl, rfl, rfl, ?_⟩
  intro p
  match p with
  | 0 | 1 => decide
  | p + 2 => exact nofun

end IsardVDI.Sessions
