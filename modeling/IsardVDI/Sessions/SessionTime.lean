import IsardVDI.Lib.Machine
import Mathlib.Data.Int.Order.Basic
import Mathlib.Tactic.Common

/-!
# Sessions — the times of a session

A session carries three times: when it ends for good (`maxTime`), until when it may be
renewed (`maxRenewTime`) and until when it is valid unless renewed (`expirationTime`). `New`
sets them and `Renew` moves the last two. Times and durations are nanoseconds.

`Renew` decides whether to cap the renewal limit by looking at the limit it is about to
replace instead of the clock, so a renewal near the end of a session may set the limit to
`maxTime` although `now + MaxRenewTime` is earlier. `sessionLife_limits_iff` says for which
lives of a session this never shows.
-/

namespace IsardVDI.Sessions

/-! ## `New` and `Renew` on the times -/

structure Cfg where
  maxTime : Int
  maxRenewTime : Int
  expirationTime : Int
  remoteAddrControl : Bool
  deriving DecidableEq, Repr

@[ext] structure SessionTime where
  maxTime : Int
  maxRenewTime : Int
  expirationTime : Int
  deriving DecidableEq, Repr

inductive Error where
  | renewTimeExpired
  | maxSessionTime
  deriving DecidableEq, Repr

def newTime (cfg : Cfg) (now : Int) : SessionTime where
  maxTime := now + cfg.maxTime
  maxRenewTime := now + cfg.maxRenewTime
  expirationTime := now + cfg.expirationTime

def checkRenew (now : Int) (t : SessionTime) : Except Error Unit :=
  if t.maxRenewTime < now then .error .renewTimeExpired
  else if t.maxTime < now then .error .maxSessionTime
  else .ok ()

def renewTime (cfg : Cfg) (now : Int) (t : SessionTime) : SessionTime where
  maxTime := t.maxTime
  expirationTime :=
    if now + cfg.expirationTime > t.maxTime then t.maxTime else now + cfg.expirationTime
  maxRenewTime :=
    -- the old limit stands where the clock is meant
    if t.maxRenewTime + cfg.maxRenewTime > t.maxTime then t.maxTime else now + cfg.maxRenewTime

/-- `Renew` on a session nobody else touches. -/
def renew (cfg : Cfg) (now : Int) (t : SessionTime) : Except Error SessionTime := do
  checkRenew now t
  return renewTime cfg now t

variable {cfg : Cfg}

theorem renew_ok {now : Int} {t t' : SessionTime} :
    renew cfg now t = .ok t'
      ↔ now ≤ t.maxRenewTime ∧ now ≤ t.maxTime ∧ t' = renewTime cfg now t := by
  unfold renew checkRenew
  by_cases hrenew : t.maxRenewTime < now
  · simp [hrenew, bind, Except.bind, hrenew.not_ge]
  · by_cases hmax : t.maxTime < now
    · simp [hrenew, hmax, bind, Except.bind, hmax.not_ge]
    · simp [hrenew, hmax, bind, Except.bind, pure, Except.pure, not_lt.mp hrenew,
        not_lt.mp hmax, eq_comm]

/-! ## Lives of a session -/

/-- A session, the last clock reading, and the time of the last successful `New` or
`Renew`. -/
structure Life where
  time : SessionTime
  clock : Int
  lastSuccess : Int
  deriving DecidableEq, Repr

/-- A session right after `New`. -/
def Life.new (cfg : Cfg) (now : Int) : Life := ⟨newTime cfg now, now, now⟩

/-- Calls of `Renew`; an action is the time since the previous call, so clock readings never
decrease. A refused call changes nothing but the clock. -/
def sessionLife (cfg : Cfg) : Machine Life Nat where
  next life delay :=
    let now := life.clock + delay
    match renew cfg now life.time with
    | .ok time => some ⟨time, now, now⟩
    | .error _ => some { life with clock := now }

variable {life : Life} {delay : Nat}

/-- What the limits promise of one call: a success sets both limits from the clock, capped
by a `maxTime` that stays, and a call that comes too late after the last success is
refused. -/
def LimitsKept (cfg : Cfg) (life : Life) (delay : Nat) : Prop :=
  (∀ time, renew cfg (life.clock + delay) life.time = .ok time →
      time.expirationTime = min (life.clock + delay + cfg.expirationTime) life.time.maxTime
        ∧ time.maxRenewTime = min (life.clock + delay + cfg.maxRenewTime) life.time.maxTime
        ∧ time.maxTime = life.time.maxTime)
    ∧ (life.lastSuccess + cfg.maxRenewTime < life.clock + delay →
        ∀ time, renew cfg (life.clock + delay) life.time ≠ .ok time)

/-- If the call is in time, the cap decided from the old limit is the cap decided from the
clock. -/
def CapAgrees (cfg : Cfg) (life : Life) (delay : Nat) : Prop :=
  life.clock + delay ≤ life.time.maxRenewTime → life.clock + delay ≤ life.time.maxTime →
    life.time.maxRenewTime + cfg.maxRenewTime ≤ life.time.maxTime
      ∨ life.time.maxTime ≤ life.clock + delay + cfg.maxRenewTime

theorem renewTime_expirationTime (cfg : Cfg) (now : Int) (t : SessionTime) :
    (renewTime cfg now t).expirationTime = min (now + cfg.expirationTime) t.maxTime := by
  unfold renewTime
  dsimp only
  split <;> omega

theorem renewTime_maxRenewTime_iff {now : Int} {t : SessionTime} (h : now ≤ t.maxRenewTime) :
    (renewTime cfg now t).maxRenewTime = min (now + cfg.maxRenewTime) t.maxTime
      ↔ t.maxRenewTime + cfg.maxRenewTime ≤ t.maxTime ∨ t.maxTime ≤ now + cfg.maxRenewTime := by
  unfold renewTime
  dsimp only
  split <;> omega

theorem capAgrees_of_limitsKept (h : LimitsKept cfg life delay) : CapAgrees cfg life delay := by
  intro hrenew hmax
  obtain ⟨_, hlimit, _⟩ := h.1 _ (renew_ok.mpr ⟨hrenew, hmax, rfl⟩)
  exact (renewTime_maxRenewTime_iff hrenew).mp hlimit

theorem limitsKept_of_capAgrees
    (hlife : life.time.maxRenewTime ≤ life.lastSuccess + cfg.maxRenewTime)
    (h : CapAgrees cfg life delay) : LimitsKept cfg life delay := by
  constructor
  · intro time hok
    obtain ⟨hrenew, hmax, rfl⟩ := renew_ok.mp hok
    have hcap := h hrenew hmax
    exact ⟨renewTime_expirationTime cfg _ _, (renewTime_maxRenewTime_iff hrenew).mpr hcap, rfl⟩
  · intro hlate time hok
    obtain ⟨hrenew, _, _⟩ := renew_ok.mp hok
    omega

theorem next_maxRenewTime_le {life' : Life}
    (hlife : life.time.maxRenewTime ≤ life.lastSuccess + cfg.maxRenewTime)
    (h : CapAgrees cfg life delay) (hnext : (sessionLife cfg).next life delay = some life') :
    life'.time.maxRenewTime ≤ life'.lastSuccess + cfg.maxRenewTime := by
  simp only [sessionLife] at hnext
  split at hnext
  · next time hrenew =>
    cases hnext
    obtain ⟨_, hlimit, _⟩ := (limitsKept_of_capAgrees hlife h).1 time hrenew
    show time.maxRenewTime ≤ life.clock + delay + cfg.maxRenewTime
    omega
  · cases hnext
    exact hlife

/-- **The limits hold over the whole life of a session exactly when** no successful `Renew`
of it caps the renewal limit by the old one where the clock would not. -/
theorem sessionLife_limits_iff (cfg : Cfg) (now : Int) (delays : List Nat) :
    (sessionLife cfg).Meets (LimitsKept cfg) (Life.new cfg now) delays
      ↔ (sessionLife cfg).Meets (CapAgrees cfg) (Life.new cfg now) delays := by
  have hlife : (Life.new cfg now).time.maxRenewTime
      ≤ (Life.new cfg now).lastSuccess + cfg.maxRenewTime := le_refl _
  generalize Life.new cfg now = life at hlife
  induction delays generalizing life with
  | nil => exact Iff.rfl
  | cons delay delays ih =>
    cases hnext : (sessionLife cfg).next life delay with
    | none => simp only [sessionLife] at hnext; split at hnext <;> cases hnext
    | some life' =>
      rw [Machine.meets_cons _ hnext, Machine.meets_cons _ hnext]
      constructor
      · intro ⟨hkept, hrest⟩
        have hcap := capAgrees_of_limitsKept hkept
        exact ⟨hcap, (ih life' (next_maxRenewTime_le hlife hcap hnext)).mp hrest⟩
      · intro ⟨hcap, hrest⟩
        exact ⟨limitsKept_of_capAgrees hlife hcap,
          (ih life' (next_maxRenewTime_le hlife hcap hnext)).mpr hrest⟩

/-- With a session of 100 that may be left alone for 60, a renewal at 1 moves the renewal
limit to 100 instead of 61, and a renewal at 90, 89 after the last one, is accepted. -/
theorem sessionLife_late_renew_accepted :
    (sessionLife ⟨100, 60, 10, false⟩).run (Life.new ⟨100, 60, 10, false⟩ 0) [1]
        = some ⟨⟨100, 100, 11⟩, 1, 1⟩
      ∧ (sessionLife ⟨100, 60, 10, false⟩).run (Life.new ⟨100, 60, 10, false⟩ 0) [1, 89]
        = some ⟨⟨100, 100, 100⟩, 90, 90⟩ := by
  decide

end IsardVDI.Sessions
