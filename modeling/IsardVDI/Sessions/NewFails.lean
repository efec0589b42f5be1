import IsardVDI.Sessions.Store

/-!
# Sessions — a `New` that fails

`New` as one call, with Redis commands that may fail without an effect: `fails` says which ones,
by what the call is about to do (`Pc`). Every error but the last comes before the session key is
written. Nobody deletes the session when the `SET` of the user key fails.
-/

namespace IsardVDI.Sessions

inductive NewError where
  | missingUserId
  | invalidRemoteAddr
  | userLockBusy
  | lockUser
  | loadUser
  | deleteUser
  | revokeOldSession
  | createNewSession
  | createNewUser
  deriving DecidableEq, Repr

/-- `revoke` as a whole, in as many commands as it has stages left; `none` if one of them fails. -/
def revokeAlone (fails : RevokeStage → Bool) :
    Nat → Redis → RevokeStage → Redis × Option RevokeResult
  | 0, r, _ => (r, none)
  | n + 1, r, stage =>
    if fails stage then (r, none)
    else
      match revoke r stage with
      | (r, .more stage) => revokeAlone fails n r stage
      | (r, result) => (r, some result)

def newRevokeOld (fails : Pc → Bool) (r : Redis) (c : NewCall) : Redis × Option NewError :=
  if fails (.newLoadUser c) then (r, some .loadUser)
  else
    match r.user c.userId with
    | none => (r, none)
    | some sessionId =>
      match revokeAlone (fun stage => fails (.newRevoke c stage)) 4 r (.loadSession sessionId) with
      | (r, none) => (r, some .revokeOldSession)
      | (r, some .notFound) =>
        if fails (.newDeleteUser c) then (r, some .deleteUser)
        else
          match r.user c.userId with
          | some _ => (r.deleteUser c.userId, none)
          | none => (r, some .deleteUser)
      | (r, some _) => (r, none)

def newLocked (fails : Pc → Bool) (r : Redis) (c : NewCall) (uuid : String) :
    Redis × Except NewError Session :=
  match newRevokeOld fails r c with
  | (r, some err) => (r, .error err)
  | (r, none) =>
    let sess : Session := ⟨uuid, c.userId, c.remoteAddr, c.time⟩
    if fails (.newSaveSession c) then (r, .error .createNewSession)
    else if fails (.newSaveUser c uuid) then (r.setSession sess, .error .createNewUser)
    else ((r.setSession sess).setUser c.userId uuid, .ok sess)

/-- `New`. A lock that is held stays so until the call gives up; an error of the deferred release
is not looked at. -/
def newAlone (cfg : Cfg) (fails : Pc → Bool) (r : Redis) (userId : String)
    (remoteAddr : Option String) (now : Int) (uuid : String) : Redis × Except NewError Session :=
  if userId = "" then (r, .error .missingUserId)
  else
    match remoteAddr with
    | none => (r, .error .invalidRemoteAddr)
    | some addr =>
      let c : NewCall := ⟨userId, addr, newTime cfg now⟩
      if fails (.newLock c) then (r, .error .lockUser)
      else if r.lock userId then (r, .error .userLockBusy)
      else
        let (r, result) := newLocked fails (r.setLock userId true) c uuid
        (if fails (.release userId) then r else r.setLock userId false, result)

def NoNewSession (r r' : Redis) : Prop := ∀ id, r'.session id ≠ none → r.session id ≠ none

variable {r r' : Redis} {c : NewCall} {uuid : String} {fails : Pc → Bool}

theorem NoNewSession.refl (r : Redis) : NoNewSession r r := fun _ hi => hi

theorem NoNewSession.deleteSession (r : Redis) (id : String) :
    NoNewSession r (r.deleteSession id) := by
  intro i hi
  by_cases h : i = id
  · subst h
    exact absurd (r.deleteSession_self i) hi
  · rwa [r.deleteSession_ne h] at hi

theorem revoke_noNewSession (r : Redis) (stage : RevokeStage) :
    NoNewSession r (revoke r stage).1 := by
  cases stage with
  | deleteSession sess =>
    rw [revoke]
    split
    · exact .deleteSession r sess.id
    · exact .refl r
  | loadSession _ | loadUser _ | deleteUser _ =>
    rw [revoke]
    split
    · exact .refl r
    · exact .refl r

theorem revokeAlone_noNewSession (fails : RevokeStage → Bool) (n : Nat) (r : Redis)
    (stage : RevokeStage) : NoNewSession r (revokeAlone fails n r stage).1 := by
  induction n generalizing r stage with
  | zero => exact .refl r
  | succ n ih =>
    have hrevoke := revoke_noNewSession r stage
    unfold revokeAlone
    split
    · exact .refl r
    · split
      · next r' stage' heq =>
        rw [heq] at hrevoke
        exact fun i hi => hrevoke i (ih r' stage' i hi)
      · next heq =>
        rw [heq] at hrevoke
        exact hrevoke

theorem newRevokeOld_noNewSession (fails : Pc → Bool) (r : Redis) (c : NewCall) :
    NoNewSession r (newRevokeOld fails r c).1 := by
  unfold newRevokeOld
  split
  · exact .refl r
  · split
    · exact .refl r
    · next sessionId _ =>
      have hrevoke := revokeAlone_noNewSession (fun stage => fails (.newRevoke c stage)) 4 r
        (.loadSession sessionId)
      split
      · next heq => rwa [heq] at hrevoke
      · next heq =>
        rw [heq] at hrevoke
        split
        · exact hrevoke
        · split
          · exact hrevoke
          · exact hrevoke
      · next heq => rwa [heq] at hrevoke

theorem revokeAlone_of_none {fails : RevokeStage → Bool} (hnone : ∀ stage, fails stage = false)
    (r : Redis) (id u : String) : ∃ r' result,
    revokeAlone fails 4 r (.loadSession id) = (r', some result)
      ∧ (result = .notFound → r'.user u = r.user u) := by
  cases hsess : r.session id with
  | none => exact ⟨r, .notFound, by simp [revokeAlone, revoke, hnone, hsess], fun _ => rfl⟩
  | some sess =>
    cases hkey : r.session sess.id with
    | none => exact ⟨r, .notFound, by simp [revokeAlone, revoke, hnone, hsess, hkey], fun _ => rfl⟩
    | some _ =>
      cases huser : r.user sess.userId with
      | none =>
        refine ⟨r.deleteSession sess.id, .notFound, ?_, fun _ => rfl⟩
        simp [revokeAlone, revoke, hnone, hsess, hkey, huser, Redis.deleteSession]
      | some _ =>
        refine ⟨(r.deleteSession sess.id).deleteUser sess.userId, .done, ?_, nofun⟩
        simp [revokeAlone, revoke, hnone, hsess, hkey, huser, Redis.deleteSession]

/-- Alone, the old session is always revoked, or has gone and its user key is deleted. -/
theorem newRevokeOld_of_none (hload : fails (.newLoadUser c) = false)
    (hrevoke : ∀ stage, fails (.newRevoke c stage) = false)
    (hdelete : fails (.newDeleteUser c) = false) (r : Redis) :
    (newRevokeOld fails r c).2 = none := by
  unfold newRevokeOld
  rw [hload, if_neg Bool.false_ne_true]
  split
  · rfl
  · next sessionId huser =>
    obtain ⟨r', result, hrun, hkept⟩ := revokeAlone_of_none hrevoke r sessionId c.userId
    rw [hrun]
    cases result with
    | notFound => simp [hdelete, hkept rfl, huser]
    | more _ | done => rfl

/-- What is done under the lock: the session key is the last one but one to be written. -/
theorem newLocked_noNewSession_iff (hfresh : r.session uuid = none) {failing : Pc} {err : NewError}
    (h : newLocked (fun pc => pc = failing) r c uuid = (r', .error err)) :
    NoNewSession r r' ↔ failing ≠ .newSaveUser c uuid := by
  have hold := newRevokeOld_noNewSession (fun pc => pc = failing) r c
  unfold newLocked at h
  split at h
  · next heq =>
    -- nothing fails on the way to the `SET` of the user key if that is what fails
    rw [heq] at hold
    cases h
    refine iff_of_true hold fun hfailing => ?_
    have hnone : (newRevokeOld (fun pc => pc = failing) r c).2 = none :=
      newRevokeOld_of_none (by simp [hfailing]) (by simp [hfailing]) (by simp [hfailing]) r
    simp [heq] at hnone
  · next heq =>
    rw [heq] at hold
    split at h
    · next hsave =>
      cases h
      exact iff_of_true hold fun hfailing => by simp [hfailing] at hsave
    · split at h
      · next hsave =>
        cases h
        refine iff_of_false (fun hno => hno uuid ?_ hfresh) fun hne =>
          hne (of_decide_eq_true hsave).symm
        rw [Redis.setSession_self]
        nofun
      · cases h

/-- **A failed login.** If `New` returns an error and one command at most has failed, then no
session key is new, unless that command is the `SET` of the user key, in a call with arguments that
are not refused and a lock that is free. -/
theorem newAlone_noOrphan_iff (cfg : Cfg) (failing : Pc) (r : Redis) (userId : String)
    (remoteAddr : Option String) (now : Int) (uuid : String) (hfresh : r.session uuid = none)
    {err : NewError}
    (h : newAlone cfg (fun pc => pc = failing) r userId remoteAddr now uuid = (r', .error err)) :
    NoNewSession r r' ↔ ¬ (userId ≠ "" ∧ r.lock userId = false ∧ ∃ addr, remoteAddr = some addr
      ∧ failing = .newSaveUser ⟨userId, addr, newTime cfg now⟩ uuid) := by
  unfold newAlone at h
  split at h
  · next hempty =>
    cases h
    exact iff_of_true (.refl _) fun hreached => hreached.1 hempty
  · next hempty =>
    split at h
    · cases h
      exact iff_of_true (.refl _) fun ⟨_, _, _, haddr, _⟩ => nomatch haddr
    · next addr =>
      dsimp only at h
      split at h
      · next hlock =>
        cases h
        refine iff_of_true (.refl _) fun ⟨_, _, _, _, hfailing⟩ => ?_
        simp [hfailing] at hlock
      · split at h
        · next hbusy =>
          cases h
          exact iff_of_true (.refl _) fun ⟨_, hfree, _⟩ => by simp [hbusy] at hfree
        · next hbusy =>
          -- the lock and its release leave the sessions alone
          obtain ⟨hr, hresult⟩ := Prod.mk.inj h
          have hlocked : newLocked _ (r.setLock userId true) _ uuid = (_, .error err) :=
            Prod.ext rfl hresult
          have hiff := newLocked_noNewSession_iff (r := r.setLock userId true) hfresh hlocked
          refine (Iff.trans ?_ hiff).trans (by simp [hempty, hbusy])
          subst hr
          split <;> rfl

def noKeys : Redis := ⟨fun _ => none, fun _ => none, fun _ => false⟩

def firstLogin (failing : Pc) : Redis × Except NewError Session :=
  newAlone ⟨3, 2, 1, false⟩ (fun pc => pc = failing) noKeys "u" (some "a") 0 "s"

theorem lost_userKey_orphan :
    ∃ r', firstLogin (.newSaveUser ⟨"u", "a", ⟨3, 2, 1⟩⟩ "s") = (r', .error .createNewUser)
      ∧ noKeys.session "s" = none ∧ r'.session "s" ≠ none ∧ r'.user "u" = none :=
  ⟨_, rfl, by decide⟩

theorem lost_sessionKey_noOrphan :
    ∃ r', firstLogin (.newSaveSession ⟨"u", "a", ⟨3, 2, 1⟩⟩) = (r', .error .createNewSession)
      ∧ NoNewSession noKeys r' := by
  have hlogin : firstLogin (.newSaveSession ⟨"u", "a", ⟨3, 2, 1⟩⟩)
      = (_, .error .createNewSession) := rfl
  exact ⟨_, hlogin, (newAlone_noOrphan_iff _ _ noKeys _ _ _ _ rfl hlogin).mpr
    fun ⟨_, _, _, _, hfailing⟩ => nomatch hfailing⟩

end IsardVDI.Sessions
