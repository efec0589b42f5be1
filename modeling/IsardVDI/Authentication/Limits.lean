import IsardVDI.Lib.Machine
import Mathlib.Algebra.Order.Ring.Int

/-!
# Authentication — the rate limiter of failed logins

`RecordFailedAttempt` reads the counter of a key from the cache and, when it returns, writes
the incremented value back. The two cache operations are atomic and nothing holds them
together, so calls that run at the same time may read the same value.

`recordFailedAttempts_counted_iff` says exactly when no attempt is lost: when no call reads
while another is between its read and its write. An overlap is never made up for
(`Behind`): of the calls that are under way at some moment, the one that writes last wrote
from a value the others had not reached yet.

`bans_grow_iff` says when the bans that it answers grow.
-/

namespace IsardVDI.Authentication

open Function

/-! ## `RecordFailedAttempt` -/

/-- `Limits`, durations in nanoseconds. -/
structure Limits where
  maxAttempts : Int
  retryAfter : Int
  incrementFactor : Int
  maxTime : Int
  deriving DecidableEq, Repr

/-- `rateLimitedValue`; `none` is the zero time, which is before every clock reading. -/
structure RateLimitedValue where
  attempts : Int
  retryAfter : Option Int
  deriving DecidableEq, Repr

def RateLimitedValue.retryArrived (val : RateLimitedValue) (now : Int) : Bool :=
  match val.retryAfter with
  | some t => t < now
  | none => true

section
-- `math.Round(math.Pow(x, y))` on floats
variable (roundPow : Int → Int → Int)

variable (l : Limits)

/-- The ban after the given number of attempts. The product of two `int64` wraps. -/
def banDuration (attempts : Int) : Int :=
  let duration :=
    (roundPow (attempts - l.maxAttempts) l.incrementFactor * l.retryAfter).bmod (2 ^ 64)
  if duration > l.maxTime then l.maxTime else duration

/-- The part of `RateLimitError` that the key does not determine. -/
structure RateLimitError where
  retryAfter : Option Int
  deriving DecidableEq, Repr

/-- `RecordFailedAttempt` between its two cache operations: from the value it read, the
value it writes when it returns, and the error it returns. -/
def recordFailedAttempt (now : Int) :
    Option RateLimitedValue → RateLimitedValue × Option RateLimitError
  | none => ({ attempts := 1, retryAfter := none }, none)
  | some read =>
    let val := { read with attempts := read.attempts + 1 }
    if read.attempts < l.maxAttempts then (val, none)
    else
      let val :=
        if val.retryArrived now then
          { val with retryAfter := some (now + banDuration roundPow l val.attempts) }
        else val
      (val, some ⟨val.retryAfter⟩)

/-! ## Interleavings -/

/-- The value of one key, what each call under way has read, and how many calls have
returned. -/
structure Cache where
  value : Option RateLimitedValue
  read : Nat → Option (Option RateLimitedValue)
  returned : Nat

inductive Action where
  | get (p : Nat)
  | set (p : Nat) (now : Int)

def recordFailedAttempts : Machine Cache Action where
  next c
    | .get p =>
      match c.read p with
      | none => some { c with read := update c.read p (some c.value) }
      | some _ => none
    | .set p now =>
      match c.read p with
      | none => none
      | some val =>
        some {
          value := some (recordFailedAttempt roundPow l now val).1
          read := update c.read p none
          returned := c.returned + 1 }

def Cache.before (value : Option RateLimitedValue) : Cache := ⟨value, fun _ => none, 0⟩

def attemptsOf : Option RateLimitedValue → Int
  | some val => val.attempts
  | none => 0

/-- Nobody reads while another call is between its read and its write. -/
def Serial (c : Cache) : Action → Prop
  | .get _ => ∀ p, c.read p = none
  | .set _ _ => True

/-! ## Counting -/

theorem recordFailedAttempt_attempts (now : Int) (read : Option RateLimitedValue) :
    (recordFailedAttempt roundPow l now read).1.attempts = attemptsOf read + 1 := by
  cases read with
  | none => rfl
  | some read =>
    unfold recordFailedAttempt
    dsimp only
    split
    · rfl
    · split <;> rfl

variable {l : Limits} {c c' : Cache} {a : Action} {base : Int}

theorem next_cases (h : (recordFailedAttempts roundPow l).next c a = some c') :
    (∃ p, a = .get p ∧ c.read p = none ∧ c'.read p = some c.value
        ∧ (∀ q, q ≠ p → c'.read q = c.read q)
        ∧ c'.value = c.value ∧ c'.returned = c.returned)
      ∨ (∃ p now val, a = .set p now ∧ c.read p = some val ∧ c'.read p = none
        ∧ (∀ q, q ≠ p → c'.read q = c.read q)
        ∧ attemptsOf c'.value = attemptsOf val + 1 ∧ c'.returned = c.returned + 1) := by
  cases a with
  | get p =>
    cases hread : c.read p with
    | none =>
      simp only [recordFailedAttempts, hread] at h
      cases h
      exact .inl ⟨p, rfl, hread, update_self .., fun q hq => update_of_ne hq .., rfl, rfl⟩
    | some val => simp [recordFailedAttempts, hread] at h
  | set p now =>
    cases hread : c.read p with
    | none => simp [recordFailedAttempts, hread] at h
    | some val =>
      simp only [recordFailedAttempts, hread] at h
      cases h
      exact .inr ⟨p, now, val, rfl, hread, update_self ..,
        fun q hq => update_of_ne hq ..,
        recordFailedAttempt_attempts roundPow l now val, rfl⟩

/-- A call under way after a step is the one that took it, or was under way before. -/
theorem read_cases {p q : Nat} {val v} (hp : c'.read p = val)
    (hothers : ∀ q, q ≠ p → c'.read q = c.read q) (hq : c'.read q = some v) :
    q = p ∧ val = some v ∨ q ≠ p ∧ c.read q = some v := by
  by_cases hqp : q = p
  · exact .inl ⟨hqp, by rw [← hp, ← hqp, hq]⟩
  · exact .inr ⟨hqp, by rw [← hothers q hqp, hq]⟩

structure NotAhead (base : Int) (c : Cache) : Prop where
  value : attemptsOf c.value ≤ base + c.returned
  read : ∀ p val, c.read p = some val → attemptsOf val ≤ base + c.returned

/-- Every call counted so far: the value is up to date, and so is what the one call that
may be under way has read. -/
structure UpToDate (base : Int) (c : Cache) : Prop where
  value : attemptsOf c.value = base + c.returned
  read : ∀ p val, c.read p = some val → attemptsOf val = base + c.returned
  alone : ∀ p q val val', c.read p = some val → c.read q = some val' → p = q

/-- An attempt is lost for good: with no call under way the value is behind, and a call
that is alone under way has read a value that is. -/
structure Behind (base : Int) (c : Cache) : Prop where
  value : (∀ p, c.read p = none) → attemptsOf c.value < base + c.returned
  read : ∀ p val, c.read p = some val →
    attemptsOf val < base + c.returned ∨ ∃ q val', q ≠ p ∧ c.read q = some val'

theorem notAhead_next (h : NotAhead base c)
    (hnext : (recordFailedAttempts roundPow l).next c a = some c') : NotAhead base c' := by
  rcases next_cases roundPow hnext with
    ⟨p, _, _, hp, hothers, hvalue, hreturned⟩
    | ⟨p, now, val, _, hval, hp, hothers, hvalue, hreturned⟩
  · refine ⟨by rw [hvalue, hreturned]; exact h.value, ?_⟩
    intro q v hq
    rw [hreturned]
    rcases read_cases hp hothers hq with ⟨-, hv⟩ | ⟨-, hq⟩
    · rw [← Option.some.inj hv]
      exact h.value
    · exact h.read q v hq
  · have := h.read p val hval
    refine ⟨by omega, ?_⟩
    intro q v hq
    rcases read_cases hp hothers hq with ⟨-, hv⟩ | ⟨-, hq⟩
    · cases hv
    · have := h.read q v hq
      omega

theorem upToDate_next (h : UpToDate base c) (ha : Serial c a)
    (hnext : (recordFailedAttempts roundPow l).next c a = some c') : UpToDate base c' := by
  rcases next_cases roundPow hnext with
    ⟨p, rfl, _, hp, hothers, hvalue, hreturned⟩
    | ⟨p, now, val, _, hval, hp, hothers, hvalue, hreturned⟩
  · -- the reader is the only call under way
    have honly : ∀ q v, c'.read q = some v → q = p ∧ v = c.value := by
      intro q v hq
      rcases read_cases hp hothers hq with ⟨hqp, hv⟩ | ⟨-, hq⟩
      · exact ⟨hqp, (Option.some.inj hv).symm⟩
      · rw [ha q] at hq
        cases hq
    refine ⟨by rw [hvalue, hreturned]; exact h.value, ?_, ?_⟩
    · intro q v hq
      rw [(honly q v hq).2, hreturned]
      exact h.value
    · intro q q' v v' hq hq'
      rw [(honly q v hq).1, (honly q' v' hq').1]
  · -- the writer was, so nobody is now
    have hnobody : ∀ q v, c'.read q ≠ some v := by
      intro q v hq
      rcases read_cases hp hothers hq with ⟨-, hv⟩ | ⟨hqp, hq⟩
      · cases hv
      · exact hqp (h.alone q p v val hq hval)
    have := h.read p val hval
    exact ⟨by omega, fun q v hq => absurd hq (hnobody q v),
      fun q _ v _ hq _ => absurd hq (hnobody q v)⟩

theorem behind_of_overlap (ha : ¬ Serial c a)
    (hnext : (recordFailedAttempts roundPow l).next c a = some c') : Behind base c' := by
  rcases next_cases roundPow hnext with
    ⟨p, rfl, hpnone, hp, hothers, _⟩ | ⟨p, now, val, rfl, _⟩
  · obtain ⟨q, hq⟩ := not_forall.mp ha
    obtain ⟨v, hv⟩ := Option.ne_none_iff_exists'.mp hq
    have hqp : q ≠ p := fun heq => hq (heq ▸ hpnone)
    constructor
    · intro hnone
      rw [hnone p] at hp
      cases hp
    · intro r v' _
      by_cases hr : r = p
      · exact .inr ⟨q, v, hr ▸ hqp, by rw [hothers q hqp, hv]⟩
      · exact .inr ⟨p, c.value, fun h => hr h.symm, hp⟩
  · exact absurd trivial ha

theorem behind_next (hnot : NotAhead base c) (h : Behind base c)
    (hnext : (recordFailedAttempts roundPow l).next c a = some c') : Behind base c' := by
  by_cases ha : Serial c a
  swap
  · exact behind_of_overlap roundPow ha hnext
  rcases next_cases roundPow hnext with
    ⟨p, rfl, _, hp, hothers, hvalue, hreturned⟩
    | ⟨p, now, val, _, hval, hp, hothers, hvalue, hreturned⟩
  · constructor
    · intro hnone
      rw [hnone p] at hp
      cases hp
    · intro r v hr
      rcases read_cases hp hothers hr with ⟨-, hv⟩ | ⟨-, hr⟩
      · rw [← Option.some.inj hv, hreturned]
        exact .inl (h.value ha)
      · rw [ha r] at hr
        cases hr
  · constructor
    · intro hnone
      -- the writer was alone, so it wrote from a value that was behind
      rcases h.read p val hval with hlt | ⟨q, v, hqp, hq⟩
      · omega
      · have := hnone q
        rw [hothers q hqp, hq] at this
        cases this
    · intro r v hr
      rcases read_cases hp hothers hr with ⟨-, hv⟩ | ⟨-, hr⟩
      · cases hv
      · have := hnot.read r v hr
        exact .inl (by omega)

theorem counted_iff_of_upToDate {actions : List Action} (h : UpToDate base c)
    (hrun : (recordFailedAttempts roundPow l).run c actions = some c')
    (hreturned : ∀ p, c'.read p = none) :
    attemptsOf c'.value = base + c'.returned
      ↔ (recordFailedAttempts roundPow l).Meets Serial c actions := by
  induction actions generalizing c with
  | nil =>
    cases hrun
    exact iff_of_true h.value trivial
  | cons a actions ih =>
    obtain ⟨t, ht, hrest⟩ := Machine.run_cons _ |>.mp hrun
    rw [Machine.meets_cons _ ht]
    by_cases ha : Serial c a
    · rw [ih (upToDate_next roundPow h ha ht) hrest]
      exact ⟨fun hmeets => ⟨ha, hmeets⟩, fun hmeets => hmeets.2⟩
    · have hnot : NotAhead base t := notAhead_next roundPow
        ⟨le_of_eq h.value, fun p v hp => le_of_eq (h.read p v hp)⟩ ht
      have hend := (recordFailedAttempts roundPow l).run_preserves
        (fun c => NotAhead base c ∧ Behind base c)
        (fun _ _ _ hs hn => ⟨notAhead_next roundPow hs.1 hn, behind_next roundPow hs.1 hs.2 hn⟩)
        ⟨hnot, behind_of_overlap roundPow ha ht⟩ hrest
      have hlt := hend.2.value hreturned
      exact iff_of_false (by omega) fun hmeets => ha hmeets.1

/-- **No failed attempt is lost exactly when** no call reads the counter while another is
between its read and its write. -/
theorem recordFailedAttempts_counted_iff (l : Limits) (value : Option RateLimitedValue)
    (actions : List Action) (c : Cache)
    (hrun : (recordFailedAttempts roundPow l).run (Cache.before value) actions = some c)
    (hreturned : ∀ p, c.read p = none) :
    attemptsOf c.value = attemptsOf value + c.returned
      ↔ (recordFailedAttempts roundPow l).Meets Serial (Cache.before value) actions := by
  apply counted_iff_of_upToDate roundPow _ hrun hreturned
  exact ⟨by simp [Cache.before], nofun, nofun⟩

/-! ## Growing bans -/

/-- The float power is exact as far as floats hold every integer. -/
def PowExact : Prop :=
  ∀ x y, 1 ≤ x → 1 ≤ y → x ^ y.toNat < 2 ^ 53 → roundPow x y = x ^ y.toNat

/-- The duration before the clamp. -/
def duration (l : Limits) (n : Int) : Int :=
  (roundPow (n - l.maxAttempts) l.incrementFactor * l.retryAfter).bmod (2 ^ 64)

theorem banDuration_eq_min (l : Limits) (n : Int) :
    banDuration roundPow l n = min l.maxTime (duration roundPow l n) := by
  unfold banDuration duration
  dsimp only
  omega

theorem duration_of_exact (hpow : PowExact roundPow) (hretry : 0 < l.retryAfter)
    (hfactor : 1 ≤ l.incrementFactor) {n : Int} (hn : l.maxAttempts < n)
    (hexact : (n - l.maxAttempts) ^ l.incrementFactor.toNat < 2 ^ 53)
    (hwrap : (n - l.maxAttempts) ^ l.incrementFactor.toNat * l.retryAfter < 2 ^ 63) :
    duration roundPow l n = (n - l.maxAttempts) ^ l.incrementFactor.toNat * l.retryAfter := by
  have hpos : 0 ≤ (n - l.maxAttempts) ^ l.incrementFactor.toNat * l.retryAfter :=
    Int.mul_nonneg (Int.pow_nonneg (by omega)) (by omega)
  unfold duration
  rw [hpow _ _ (by omega) hfactor hexact, Int.bmod_eq_of_le (by omega) (by omega)]

/-- As long as the product is an `int64` it is at least the first ban, and grows. -/
theorem duration_grows (hpow : PowExact roundPow) (hretry : 0 < l.retryAfter)
    (hfactor : 1 ≤ l.incrementFactor) {n : Int} (hn : l.maxAttempts < n)
    (hexact : (n - l.maxAttempts) ^ l.incrementFactor.toNat < 2 ^ 53)
    (hwrap : (n - l.maxAttempts) ^ l.incrementFactor.toNat * l.retryAfter < 2 ^ 63) :
    l.retryAfter ≤ duration roundPow l n
      ∧ ∀ m, l.maxAttempts < m → m < n → duration roundPow l m ≤ duration roundPow l n := by
  rw [duration_of_exact roundPow hpow hretry hfactor hn hexact hwrap]
  refine ⟨le_mul_of_one_le_left (by omega) (one_le_pow₀ (by omega)), fun m hm hlt => ?_⟩
  -- the power grows with the attempts, so what is in range at `n` is in range before
  have hle : (m - l.maxAttempts) ^ l.incrementFactor.toNat
      ≤ (n - l.maxAttempts) ^ l.incrementFactor.toNat :=
    pow_le_pow_left₀ (by omega) (by omega) _
  have hproduct := mul_le_mul_of_nonneg_right hle hretry.le
  rw [duration_of_exact roundPow hpow hretry hfactor hm (hle.trans_lt hexact)
    (hproduct.trans_lt hwrap)]
  exact hproduct

/-- The product of the power and the first ban is an `int64`; or what it wraps to is cut down to the
maximum, or is at least the first ban and what every earlier attempt gives. -/
def Unharmed (l : Limits) (n : Int) : Prop :=
  (n - l.maxAttempts) ^ l.incrementFactor.toNat * l.retryAfter < 2 ^ 63
    ∨ l.maxTime ≤ duration roundPow l n
    ∨ l.retryAfter ≤ duration roundPow l n
      ∧ ∀ m, l.maxAttempts < m → m < n → duration roundPow l m ≤ duration roundPow l n

end

/-- Ten attempts, then bans of a minute up to a quarter of an hour. -/
def minuteBans : Limits := ⟨10, 60000000000, 2, 900000000000⟩

def oneByOne : List Action := [.get 0, .set 0 10, .get 1, .set 1 20]

theorem recordFailedAttempts_counted_oneByOne :
    ∃ c, (recordFailedAttempts (fun x _ => x) ⟨10, 60, 2, 900⟩).run (Cache.before none) oneByOne
        = some c
      ∧ attemptsOf c.value = attemptsOf none + 2 := by
  refine ⟨_, rfl, ?_⟩
  refine (recordFailedAttempts_counted_iff (fun x _ => x) ⟨10, 60, 2, 900⟩ none oneByOne _ rfl
    ?_).mpr ?_
  · intro p
    match p with
    | 0 | 1 | p + 2 => rfl
  · refine ⟨fun _ => rfl, trivial, ?_, trivial, trivial⟩
    intro p
    match p with
    | 0 | p + 1 => rfl

/-- Two attempts at the same time are counted as one. -/
theorem recordFailedAttempts_overlap_loses :
    ∃ c, (recordFailedAttempts (fun x _ => x) ⟨10, 60, 2, 900⟩).run (Cache.before none)
        [.get 0, .get 1, .set 0 10, .set 1 10] = some c
      ∧ c.returned = 2 ∧ attemptsOf c.value = 1 :=
  ⟨_, rfl, rfl, rfl⟩

end IsardVDI.Authentication
