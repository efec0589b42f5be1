import IsardVDI.Lib.Machine
import Mathlib.Tactic.Common

/-!
# `pkg/redis` — `Model.Lock`

The lock of a model: `SETNX` of an empty value with a TTL, tried again until `MaxWait` is
over, and a release that deletes the key without looking whose it is.

Any number of clients compete for one key. The clock advances on its own; a key whose
deadline has passed is gone. A client that holds the lock has a lease of its own, which may
be over before it releases: nothing tells it. When it then releases, it deletes the key of
whoever took the lock over, and a third client may enter (`release_steals`). As long as no
late release meets a running lease, leases exclude each other (`lock_exclusive`).

Commands may fail: a `SETNX` whose answer is lost leaves a key nobody holds, and a `DEL` that
does not arrive leaves the key to its TTL.
-/

namespace IsardVDI.RedisLock

/-- `LockOptions`, in milliseconds. A TTL of 0 is a key without a deadline. -/
structure LockOptions where
  ttl : Nat
  maxWait : Nat
  retryDelay : Nat
  deriving DecidableEq, Repr

def defaultLockOptions : LockOptions := ⟨5000, 2000, 25⟩

/-- A client of the lock. A lease is known by its deadline. -/
inductive Client where
  | idle
  | waiting (opts : LockOptions) (deadline : Nat)
  | holding (lease : Option Nat)
  deriving DecidableEq, Repr

structure State where
  now : Nat
  key : Option (Option Nat)
  client : Nat → Client

def State.init : State := ⟨0, none, fun _ => .idle⟩

def within (now : Nat) : Option Nat → Bool
  | some deadline => now ≤ deadline
  | none => true

variable (s : State)

/-- The key is there for `SETNX`. -/
def State.locked : Bool :=
  match s.key with
  | some deadline => within s.now deadline
  | none => false

/-- The client obtained the lock, has not released it and is within its TTL. -/
def State.live (c : Nat) : Bool :=
  match s.client c with
  | .holding lease => within s.now lease
  | _ => false

inductive Action where
  | start (c : Nat) (opts : LockOptions)
  | attempt (c : Nat)
  | attemptLost (c : Nat)
  | cancel (c : Nat)
  | release (c : Nat)
  | releaseLost (c : Nat)
  | tick (ms : Nat)

def State.set (c : Nat) (client : Client) : State :=
  { s with client := Function.update s.client c client }

/-- The deadline `SETNX` gives the key. -/
def State.lease (opts : LockOptions) : Option Nat :=
  if opts.ttl = 0 then none else some (s.now + opts.ttl)

/-- One `SETNX` of the loop, with the check of `MaxWait` when the key is there. -/
def attempt (c : Nat) (opts : LockOptions) (deadline : Nat) : State :=
  if s.locked then
    if deadline < s.now then s.set c .idle else s
  else { s.set c (.holding (s.lease opts)) with key := some (s.lease opts) }

/-- A `SETNX` that Redis carried out and that failed for the client. -/
def attemptLost (c : Nat) (opts : LockOptions) : State :=
  if s.locked then s.set c .idle else { s.set c .idle with key := some (s.lease opts) }

def lock : Machine State Action where
  next s
    | .start c opts =>
      match s.client c with
      | .idle => some (s.set c (.waiting opts (s.now + opts.maxWait)))
      | _ => none
    | .attempt c =>
      match s.client c with
      | .waiting opts deadline => some (attempt s c opts deadline)
      | _ => none
    | .attemptLost c =>
      match s.client c with
      | .waiting opts _ => some (attemptLost s c opts)
      | _ => none
    | .cancel c =>
      match s.client c with
      | .waiting _ _ => some (s.set c .idle)
      | _ => none
    | .release c =>
      match s.client c with
      | .holding _ => some { s.set c .idle with key := none }
      | _ => none
    | .releaseLost c =>
      match s.client c with
      | .holding _ => some (s.set c .idle)
      | _ => none
    | .tick ms => some { s with now := s.now + ms }

/-! ## Leases exclude each other -/

/-- A release by a client whose lease is over happens only while no lease runs. -/
def ReleaseHarmless : Action → Prop
  | .release c => s.live c = true ∨ ∀ d, s.live d = false
  | _ => True

/-- At most one lease runs, and the key has its deadline. -/
structure Exclusive (s : State) : Prop where
  unique : ∀ c d, s.live c = true → s.live d = true → c = d
  keyed : ∀ c lease, s.client c = .holding lease → within s.now lease = true →
    s.key = some lease

variable {s : State} {c : Nat}

theorem live_iff :
    s.live c = true ↔ ∃ lease, s.client c = .holding lease ∧ within s.now lease = true := by
  unfold State.live
  cases s.client c <;> simp

theorem within_mono {now ms : Nat} {lease : Option Nat} (h : within (now + ms) lease = true) :
    within now lease = true := by
  cases lease with
  | none => rfl
  | some deadline =>
    simp only [within, decide_eq_true_eq] at h ⊢
    omega

theorem set_self (s : State) (c : Nat) (client : Client) : (s.set c client).client c = client :=
  Function.update_self ..

variable {d : Nat}

theorem set_ne (s : State) (client : Client) (h : d ≠ c) : (s.set c client).client d = s.client d :=
  Function.update_of_ne h ..

variable {client : Client}

theorem holding_of_set {lease : Option Nat} (hclient : ∀ lease, client ≠ .holding lease)
    (h : (s.set c client).client d = .holding lease) : d ≠ c ∧ s.client d = .holding lease := by
  by_cases hd : d = c
  · rw [hd, set_self] at h
    exact absurd h (hclient lease)
  · rw [set_ne s client hd] at h
    exact ⟨hd, h⟩

theorem Exclusive.mono {t : State} (h : Exclusive s) (hkey : t.key = s.key)
    (hlive : ∀ d lease, t.client d = .holding lease → within t.now lease = true →
      s.client d = .holding lease ∧ within s.now lease = true) : Exclusive t := by
  constructor
  · intro d d' hd hd'
    obtain ⟨lease, hlease, hwithin⟩ := live_iff.mp hd
    obtain ⟨lease', hlease', hwithin'⟩ := live_iff.mp hd'
    exact h.unique d d' (live_iff.mpr ⟨lease, hlive d lease hlease hwithin⟩)
      (live_iff.mpr ⟨lease', hlive d' lease' hlease' hwithin'⟩)
  · intro d lease hd hwithin
    obtain ⟨hd, hwithin⟩ := hlive d lease hd hwithin
    exact hkey.trans (h.keyed d lease hd hwithin)

theorem exclusive_set (h : Exclusive s) (c : Nat) (hclient : ∀ lease, client ≠ .holding lease) :
    Exclusive (s.set c client) :=
  h.mono rfl fun _ _ hd hwithin => ⟨(holding_of_set hclient hd).2, hwithin⟩

theorem not_within_of_free (h : Exclusive s) (hfree : ¬ s.locked = true) {lease : Option Nat}
    (hd : s.client d = .holding lease) : within s.now lease ≠ true := by
  intro hwithin
  apply hfree
  unfold State.locked
  rw [h.keyed d lease hd hwithin]
  exact hwithin

theorem exclusive_attempt (h : Exclusive s) (c : Nat) (opts : LockOptions) (deadline : Nat) :
    Exclusive (attempt s c opts deadline) := by
  unfold attempt
  split
  · split
    · exact exclusive_set h c nofun
    · exact h
  · next hfree =>
    generalize s.lease opts = new
    have honly : ∀ d lease, (s.set c (.holding new)).client d = .holding lease →
        within s.now lease = true → d = c ∧ lease = new := by
      intro d lease hd hwithin
      by_cases hdc : d = c
      · rw [hdc, set_self] at hd
        exact ⟨hdc, (Client.holding.inj hd).symm⟩
      · rw [set_ne _ _ hdc] at hd
        exact absurd hwithin (not_within_of_free h hfree hd)
    constructor
    · intro d d' hd hd'
      obtain ⟨lease, hlease, hwithin⟩ := live_iff.mp hd
      obtain ⟨lease', hlease', hwithin'⟩ := live_iff.mp hd'
      rw [(honly d lease hlease hwithin).1, (honly d' lease' hlease' hwithin').1]
    · intro d lease hd hwithin
      show some new = some lease
      rw [(honly d lease hd hwithin).2]

theorem exclusive_of_none (h : ∀ d lease, s.client d = .holding lease → within s.now lease ≠ true) :
    Exclusive s := by
  constructor
  · intro d d' hd _
    obtain ⟨lease, hlease, hwithin⟩ := live_iff.mp hd
    exact absurd hwithin (h d lease hlease)
  · intro d lease hd hwithin
    exact absurd hwithin (h d lease hd)

theorem exclusive_attemptLost (h : Exclusive s) (c : Nat) (opts : LockOptions) :
    Exclusive (attemptLost s c opts) := by
  have hidle : ∀ lease, Client.idle ≠ .holding lease := nofun
  unfold attemptLost
  split
  · exact exclusive_set h c hidle
  · next hfree =>
    apply exclusive_of_none
    intro d lease hd
    exact not_within_of_free h hfree (holding_of_set hidle hd).2

theorem exclusive_release (h : Exclusive s) (c : Nat)
    (hharmless : s.live c = true ∨ ∀ d, s.live d = false) :
    Exclusive { s.set c .idle with key := none } := by
  have hidle : ∀ lease, Client.idle ≠ .holding lease := nofun
  apply exclusive_of_none
  intro d lease hd hwithin
  obtain ⟨hdc, hd⟩ := holding_of_set hidle hd
  have hlive : s.live d = true := live_iff.mpr ⟨lease, hd, hwithin⟩
  rcases hharmless with hc | hall
  · exact hdc (h.unique d c hlive hc)
  · rw [hall d] at hlive
    cases hlive

theorem exclusive_tick (h : Exclusive s) (ms : Nat) : Exclusive { s with now := s.now + ms } :=
  h.mono rfl fun _ _ hd hwithin => ⟨hd, within_mono hwithin⟩

theorem exclusive_next {s' : State} {a : Action} (h : Exclusive s) (ha : ReleaseHarmless s a)
    (hnext : lock.next s a = some s') : Exclusive s' := by
  cases a with
  | start c _ | cancel c | releaseLost c =>
    simp only [lock] at hnext
    split at hnext <;> cases hnext
    exact exclusive_set h c nofun
  | attempt c =>
    simp only [lock] at hnext
    split at hnext <;> cases hnext
    exact exclusive_attempt h c _ _
  | attemptLost c =>
    simp only [lock] at hnext
    split at hnext <;> cases hnext
    exact exclusive_attemptLost h c _
  | release c =>
    simp only [lock] at hnext
    split at hnext <;> cases hnext
    exact exclusive_release h c ha
  | tick ms =>
    cases hnext
    exact exclusive_tick h ms

/-- **Unexpired leases exclude each other** in every run in which no client releases after
its lease is over while another lease runs. -/
theorem lock_exclusive (actions : List Action) (s : State)
    (hharmless : lock.Meets ReleaseHarmless State.init actions)
    (hrun : lock.run State.init actions = some s) (c d : Nat)
    (hc : s.live c = true) (hd : s.live d = true) : c = d := by
  have hinit : Exclusive State.init := ⟨fun _ _ h => (nomatch h), fun _ _ h => (nomatch h)⟩
  have h := lock.run_invariant ReleaseHarmless Exclusive
    (fun _ _ _ hs ha hnext => exclusive_next hs ha hnext) hinit hharmless hrun
  exact h.unique c d hc hd

/-- Client 1 gets the lock after client 0 released it in time. -/
def handover : List Action :=
  [.start 0 defaultLockOptions, .attempt 0, .start 1 defaultLockOptions, .attempt 1, .tick 30,
    .release 0, .attempt 1]

theorem lock_exclusive_handover :
    ∃ s, lock.run State.init handover = some s
      ∧ s.live 1 = true ∧ ∀ d, s.live d = true → 1 = d := by
  have hharmless : lock.Meets ReleaseHarmless State.init handover :=
    ⟨trivial, trivial, trivial, trivial, trivial, .inl rfl, trivial, trivial⟩
  exact ⟨_, rfl, rfl, fun d hd => lock_exclusive handover _ hharmless rfl 1 d rfl hd⟩

/-- Client 0 outlives its lease, client 1 takes over, client 0 releases and client 2
enters beside client 1. -/
theorem lock_stolen :
    ∃ s, lock.run State.init
        [.start 0 defaultLockOptions, .attempt 0, .tick 6000,
          .start 1 defaultLockOptions, .attempt 1, .release 0,
          .start 2 defaultLockOptions, .attempt 2] = some s
      ∧ s.live 1 = true ∧ s.live 2 = true :=
  ⟨_, rfl, rfl, rfl⟩

end IsardVDI.RedisLock
