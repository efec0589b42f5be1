import IsardVDI.Lib.Machine
import IsardVDI.Storage.Governor
import IsardVDI.Storage.QueueTiers

/-!
# `lib/governed_worker.py` — the global heavy cap

Any number of governed workers share one Redis. A worker pops a job, decides (`_admit`), runs an
admission script, writes the owner tag, executes the job and releases the slots; between two of
its commands every other worker may run. A worker that polls may also reconcile a running set:
`SMEMBERS`, then for each member the reads of status and owner and, when it is stale, `SREM` and
`DEL`, each a command of its own.

A reconcile decides on what it read earlier. A job that is requeued and admitted again between
its read and its `SREM` loses the slot it runs under (`reconcile_over_admits`); the release of a
worker whose job was requeued before it released does the same.
-/

namespace IsardVDI.Storage

open Function

/-- What the workers share and do not change: the mode of the queues, the caps, who governs. -/
structure GovernorConfig (W P C : Type) where
  multitenancy : Bool
  maxHeavy : Nat
  categoryCap : C → Option Nat
  nullCategory : C
  /-- `_is_governing` of a worker: the switch is on and it is not the floor. -/
  governing : W → Bool

/-- `job._gov_reserved`: what an admitted job holds. -/
inductive Reservation (K : Type) where
  | fair (key : K) (isHeavy : Bool)
  | heavy
  deriving DecidableEq

def Reservation.isHeavy {K : Type} : Reservation K → Bool
  | .fair _ isHeavy => isHeavy
  | .heavy => true

/-- What `_admit` decides before it asks Redis. -/
inductive AdmitPlan (K : Type) where
  | pushBack
  | run
  | reserve (reservation : Reservation K)
  deriving DecidableEq

variable {J W P C : Type}

/-- `_admit`, up to the reservation. `held` says whether the deferrable tiers are held back:
`defer_bg`, or pressure that has risen since. -/
def admitPlan (cfg : GovernorConfig W P C) (w : W) (lane : QueueName P C) (held : Bool) :
    AdmitPlan (P × C) :=
  match cfg.governing w, parseStorageQueue lane with
  | true, some (pool, category, segment) =>
    if cfg.multitenancy && segment.isTier Tier.fair then
      if segment.isTier Tier.deferrable && held then .pushBack
      else
        .reserve (.fair (pool, category.getD cfg.nullCategory) (segment.isTier Tier.heavy))
    else if isDeferrableQueue lane then
      if held then .pushBack
      else if isHeavyQueue lane then .reserve .heavy
      else .run
    else .run
  | _, _ => .run

/-! ## Workers -/

inductive ReleaseCommand (K : Type) where
  | srem (key : SetKey K)
  | deleteTag
  deriving DecidableEq

def Reservation.release {K : Type} : Reservation K → List (ReleaseCommand K)
  | .fair key true => [.srem (.category key), .srem .heavy, .deleteTag]
  | .fair key false => [.srem (.category key), .deleteTag]
  | .heavy => [.srem .heavy, .deleteTag]

/-- Where `_prune_stale_members` stands with the member at hand. -/
inductive PruneStage (W : Type) where
  | readStatus
  | readTag
  | checkOwner (owner : W)
  | srem
  | deleteTag
  deriving DecidableEq

inductive Phase (J W K : Type) where
  | idle
  /-- `dequeue_any` gave it a job. -/
  | popped (j : J)
  /-- The job was denied and is about to be pushed back. -/
  | denied (j : J)
  /-- The script reserved the slots; the owner tag is not written yet. -/
  | reserved (j : J) (reservation : Reservation K)
  | executing (j : J) (reservation : Option (Reservation K))
  /-- The job's body is over; these release commands are left. -/
  | releasing (j : J) (commands : List (ReleaseCommand K))
  /-- It reconciles a running set: the member at hand and the members after it. -/
  | pruning (key : SetKey K) (j : J) (todo : List J) (stage : PruneStage W)
  | dead
  deriving DecidableEq

/-- The worker is alive and executes, or is about to execute, the job under a heavy slot. -/
def Phase.admittedHeavy [DecidableEq J] {K : Type} (j : J) : Phase J W K → Bool
  | .reserved j' reservation => j' = j && reservation.isHeavy
  | .executing j' (some reservation) => j' = j && reservation.isHeavy
  | _ => false

/-- The workers, the Redis they share and the ids waiting on the queues. -/
structure Fleet (J W K : Type) where
  redis : Redis J W K
  queue : List J
  phase : W → Phase J W K

section Steps

variable {K : Type} [DecidableEq J] [DecidableEq W] [DecidableEq K]

namespace Fleet

def setPhase (s : Fleet J W K) (w : W) (phase : Phase J W K) : Fleet J W K :=
  { s with phase := update s.phase w phase }

def setRedis (s : Fleet J W K) (redis : Redis J W K) : Fleet J W K := { s with redis := redis }

end Fleet

def Phase.nextMember (key : SetKey K) : List J → Phase J W K
  | [] => .idle
  | j :: todo => .pruning key j todo .readStatus

/-- One command of `_prune_stale_members` on the member at hand. -/
def pruneStep (redis : Redis J W K) (key : SetKey K) (j : J) (todo : List J) :
    PruneStage W → Redis J W K × Phase J W K
  | .readStatus =>
    (redis, .pruning key j todo (if Redis.isLive (redis.status j) then .readTag else .srem))
  | .readTag =>
    match redis.reservedBy j with
    | none => (redis, .nextMember key todo)
    | some owner => (redis, .pruning key j todo (.checkOwner owner))
  | .checkOwner owner =>
    if redis.workerAlive owner then (redis, .nextMember key todo)
    else (redis, .pruning key j todo .srem)
  | .srem => (redis.srem key j, .pruning key j todo .deleteTag)
  | .deleteTag => (redis.deleteTag j, .nextMember key todo)

def releaseStep (redis : Redis J W K) (j : J) :
    List (ReleaseCommand K) → Redis J W K × Phase J W K
  | [] => (redis, .idle)
  | .srem key :: commands => (redis.srem key j, .releasing j commands)
  | .deleteTag :: commands => (redis.deleteTag j, .releasing j commands)

end Steps

/-! ## The machine of all workers -/

/-- One Redis command of a worker, or something RQ or a producer does. -/
inductive GovernorCommand (J W K : Type) where
  /-- A job is put on its queue: by a producer, by an operator who requeues a failed job, or by
  RQ's own rescue of an abandoned one. -/
  | enqueue (j : J)
  | setStatus (j : J) (status : Option JobStatus)
  | pop (w : W) (j : J)
  | decide (w : W) (held : Bool)
  | tag (w : W)
  | pushBack (w : W)
  /-- The job's body is over. RQ settles the job before the worker releases its slots, and a
  job with retries left goes back on its queue. -/
  | finish (w : W) (retried : Bool)
  | release (w : W)
  /-- `SMEMBERS` of a reconcile. -/
  | reconcile (w : W) (key : SetKey K) (members : List J)
  | prune (w : W)
  | die (w : W)
  /-- The heartbeat key of a dead worker runs out. -/
  | expire (w : W)

section Machine

variable [DecidableEq J] [DecidableEq W] [DecidableEq P] [DecidableEq C]

variable (cfg : GovernorConfig W P C)

def reserve (redis : Redis J W (P × C)) (j : J) : Reservation (P × C) → Bool × Redis J W (P × C)
  | .fair key isHeavy =>
    redis.fairReserveLua key j (cfg.categoryCap key.2) isHeavy cfg.maxHeavy
  | .heavy => redis.reserveLua j cfg.maxHeavy

variable (s : Fleet J W (P × C))

/-- The rest of `_admit`: the script, and where it leaves the worker. -/
def Fleet.carryOut (w : W) (j : J) : AdmitPlan (P × C) → Fleet J W (P × C)
  | .pushBack => s.setPhase w (.denied j)
  | .run => s.setPhase w (.executing j none)
  | .reserve reservation =>
    match reserve cfg s.redis j reservation with
    | (true, redis) => (s.setRedis redis).setPhase w (.reserved j reservation)
    | (false, redis) => (s.setRedis redis).setPhase w (.denied j)

def Fleet.enqueue (j : J) : Fleet J W (P × C) :=
  { s with
    queue := s.queue ++ [j]
    redis := { s.redis with status := update s.redis.status j (some .queued) } }

def governor (lane : J → QueueName P C) :
    Machine (Fleet J W (P × C)) (GovernorCommand J W (P × C)) where
  next s
    | .enqueue j => some (s.enqueue j)
    | .setStatus j status =>
      some (s.setRedis { s.redis with status := update s.redis.status j status })
    | .pop w j =>
      match s.phase w with
      | .idle =>
        if j ∈ s.queue then some ({ s with queue := s.queue.erase j }.setPhase w (.popped j))
        else none
      | _ => none
    | .decide w held =>
      match s.phase w with
      | .popped j => some (s.carryOut cfg w j (admitPlan cfg w (lane j) held))
      | _ => none
    | .tag w =>
      match s.phase w with
      | .reserved j reservation =>
        some ((s.setRedis (s.redis.setTag j w)).setPhase w (.executing j (some reservation)))
      | _ => none
    | .pushBack w =>
      match s.phase w with
      | .denied j => some ({ s with queue := j :: s.queue }.setPhase w .idle)
      | _ => none
    | .finish w retried =>
      match s.phase w with
      | .executing j reservation =>
        let released := .releasing j ((reservation.map Reservation.release).getD [])
        some ((if retried then s.enqueue j else s).setPhase w released)
      | _ => none
    | .release w =>
      match s.phase w with
      | .releasing j commands =>
        let step := releaseStep s.redis j commands
        some ((s.setRedis step.1).setPhase w step.2)
      | _ => none
    | .reconcile w key members =>
      match s.phase w with
      | .idle =>
        if members.toFinset = s.redis.sets key then
          some (s.setPhase w (Phase.nextMember key members))
        else none
      | _ => none
    | .prune w =>
      match s.phase w with
      | .pruning key j todo stage =>
        let step := pruneStep s.redis key j todo stage
        some ((s.setRedis step.1).setPhase w step.2)
      | _ => none
    | .die w => some (s.setPhase w .dead)
    | .expire w =>
      match s.phase w with
      | .dead =>
        some (s.setRedis
          { s.redis with workerAlive := update s.redis.workerAlive w false })
      | _ => none

def Fleet.init : Fleet J W (P × C) where
  redis :=
    { sets := fun _ => ∅, reservedBy := fun _ => none, status := fun _ => none
      workerAlive := fun _ => true }
  queue := []
  phase := fun _ => .idle

/-! ## The side condition -/

/-- No living worker holds the job under a heavy admission. -/
def Fleet.Unclaimed (j : J) : Prop :=
  ∀ w, (s.phase w).admittedHeavy j = false

/-- An `SREM` on the heavy set, by a release or a reconcile, takes away an unclaimed slot. -/
def Fleet.RemovesUnclaimed : GovernorCommand J W (P × C) → Prop
  | .release w =>
    match s.phase w with
    | .releasing j (.srem .heavy :: _) => s.Unclaimed j
    | _ => True
  | .prune w =>
    match s.phase w with
    | .pruning .heavy j _ .srem => s.Unclaimed j
    | _ => True
  | _ => True

instance Fleet.decidableRemovesUnclaimed [Fintype W] (s : Fleet J W (P × C)) :
    ∀ c, Decidable (s.RemovesUnclaimed c)
  | .release w => by
    unfold Fleet.RemovesUnclaimed Fleet.Unclaimed
    dsimp only
    split <;> infer_instance
  | .prune w => by
    unfold Fleet.RemovesUnclaimed Fleet.Unclaimed
    dsimp only
    split <;> infer_instance
  | .enqueue _ | .setStatus _ _ | .pop _ _ | .decide _ _ | .tag _ | .pushBack _ | .finish _ _
  | .reconcile _ _ _ | .die _ | .expire _ => isTrue trivial

end Machine

section Cap

variable [DecidableEq J]

/-! ## The invariant -/

/-- The heavy set respects the cap and holds every job that runs under a heavy admission. -/
structure Fleet.CapInv (cfg : GovernorConfig W P C) (s : Fleet J W (P × C)) : Prop where
  card_le : (s.redis.sets .heavy).card ≤ cfg.maxHeavy
  held : ∀ w j, (s.phase w).admittedHeavy j = true → j ∈ s.redis.sets .heavy

variable {cfg : GovernorConfig W P C} {s : Fleet J W (P × C)} {w : W} {j : J}
  {redis : Redis J W (P × C)} {reservation : Reservation (P × C)} {phase : Phase J W (P × C)}

theorem Fleet.capInv_init (cfg : GovernorConfig W P C) :
    (Fleet.init : Fleet J W (P × C)).CapInv cfg where
  card_le := Nat.zero_le _
  held := fun _ _ h => by simp [Fleet.init, Phase.admittedHeavy] at h

theorem Phase.nextMember_admittedHeavy (key : SetKey (P × C)) (todo : List J) (j : J) :
    (Phase.nextMember key todo : Phase J W (P × C)).admittedHeavy j = false := by
  cases todo <;> rfl

section

variable (h : s.CapInv cfg)

include h

namespace Fleet.CapInv

theorem setRedis_grown (hsub : s.redis.sets .heavy ⊆ redis.sets .heavy)
    (hcard : (redis.sets .heavy).card ≤ cfg.maxHeavy) : (s.setRedis redis).CapInv cfg where
  card_le := hcard
  held := fun w j hj => hsub (h.held w j hj)

theorem setRedis_same (hsame : redis.sets .heavy = s.redis.sets .heavy) :
    (s.setRedis redis).CapInv cfg :=
  h.setRedis_grown hsame.ge (hsame ▸ h.card_le)

theorem deleteTag (j : J) : (s.setRedis (s.redis.deleteTag j)).CapInv cfg :=
  h.setRedis_same rfl

theorem enqueue (j : J) : (s.enqueue j).CapInv cfg :=
  ⟨h.card_le, h.held⟩

theorem setQueue (queue : List J) : { s with queue := queue }.CapInv cfg :=
  ⟨h.card_le, h.held⟩

theorem setPhase [DecidableEq W]
    (hphase : ∀ j, phase.admittedHeavy j = true → j ∈ s.redis.sets .heavy) :
    (s.setPhase w phase).CapInv cfg where
  card_le := h.card_le
  held := by
    intro w' j hj
    by_cases hw : w' = w
    · subst hw
      exact hphase j (by simpa [Fleet.setPhase] using hj)
    · exact h.held w' j (by simpa [Fleet.setPhase, update_of_ne hw] using hj)

theorem setPhase_free [DecidableEq W] (hphase : ∀ j, phase.admittedHeavy j = false) :
    (s.setPhase w phase).CapInv cfg :=
  h.setPhase fun j hj => absurd hj (by simp [hphase j])

theorem tag [DecidableEq W] (hphase : s.phase w = .reserved j reservation) :
    ((s.setRedis (s.redis.setTag j w)).setPhase w (.executing j (some reservation))).CapInv
      cfg := by
  have hsame : (s.setRedis (s.redis.setTag j w)).CapInv cfg := h.setRedis_same rfl
  refine hsame.setPhase ?_
  intro j' hj'
  exact h.held w j' (by rw [hphase]; exact hj')

variable [DecidableEq P] [DecidableEq C]

theorem srem_category (key : P × C) (j : J) :
    (s.setRedis (s.redis.srem (.category key) j)).CapInv cfg :=
  h.setRedis_same (by simp [Redis.srem])

theorem srem_heavy (hfree : s.Unclaimed j) :
    (s.setRedis (s.redis.srem .heavy j)).CapInv cfg where
  card_le := by
    have hle := Finset.card_le_card (Finset.erase_subset j (s.redis.sets .heavy))
    simpa [Fleet.setRedis, Redis.srem] using hle.trans h.card_le
  held := by
    intro w j' hj'
    have hne : j' ≠ j := by
      rintro rfl
      exact absurd hj' (by simpa [Fleet.setRedis] using hfree w)
    simpa [Fleet.setRedis, Redis.srem, hne] using h.held w j' hj'

end Fleet.CapInv

end

/-! ## Preservation, command by command -/

variable [DecidableEq P] [DecidableEq C]

theorem Redis.card_sadd_heavy_le {n : Nat} (hlt : (redis.sets .heavy).card < n) :
    ((redis.sadd .heavy j).sets .heavy).card ≤ n := by
  have hle := Finset.card_insert_le j (redis.sets .heavy)
  simp only [Redis.sadd, update_self]
  omega

theorem Redis.sadd_category_heavy (redis : Redis J W (P × C)) (key : P × C) (j : J) :
    (redis.sadd (.category key) j).sets .heavy = redis.sets .heavy := by
  simp [Redis.sadd]

/-- **The scripts respect the cap**, and a heavy reservation puts the job into the set. -/
theorem reserve_spec {redis' : Redis J W (P × C)} {ok : Bool}
    (hcard : (redis.sets .heavy).card ≤ cfg.maxHeavy)
    (h : reserve cfg redis j reservation = (ok, redis')) :
    redis.sets .heavy ⊆ redis'.sets .heavy
      ∧ (redis'.sets .heavy).card ≤ cfg.maxHeavy
      ∧ (ok = true → reservation.isHeavy = true → j ∈ redis'.sets .heavy) := by
  cases reservation with
  | heavy =>
    simp only [reserve, Redis.reserveLua] at h
    split at h
    · rename_i hlt
      cases h
      exact ⟨by simp [Redis.sadd], Redis.card_sadd_heavy_le hlt, by simp [Redis.sadd]⟩
    · cases h
      exact ⟨Finset.Subset.refl _, hcard, by simp⟩
  | fair key isHeavy =>
    simp only [reserve, Redis.fairReserveLua] at h
    split at h
    · cases h
      exact ⟨Finset.Subset.refl _, hcard, by simp⟩
    split at h
    · cases h
      exact ⟨Finset.Subset.refl _, hcard, by simp⟩
    rename_i hfull
    cases h
    cases isHeavy with
    | false => exact ⟨Finset.Subset.refl _, hcard, by simp [Reservation.isHeavy]⟩
    | true =>
      have hlt : ((redis.sadd (.category key) j).sets .heavy).card < cfg.maxHeavy := by
        simpa [Redis.sadd_category_heavy] using hfull
      refine ⟨?_, Redis.card_sadd_heavy_le hlt, by simp [Redis.sadd]⟩
      simp [Redis.sadd]

variable [DecidableEq W]

namespace Fleet.CapInv

variable (h : s.CapInv cfg)

include h

theorem carryOut (w : W) (j : J) (plan : AdmitPlan (P × C)) :
    (s.carryOut cfg w j plan).CapInv cfg := by
  cases plan with
  | pushBack | run => exact h.setPhase_free fun _ => rfl
  | reserve reservation =>
    cases hres : reserve cfg s.redis j reservation with
    | mk ok redis =>
      obtain ⟨hsub, hcard, hin⟩ := reserve_spec h.card_le hres
      have hgrown := h.setRedis_grown hsub hcard
      simp only [Fleet.carryOut, hres]
      cases ok with
      | false => exact hgrown.setPhase_free fun _ => rfl
      | true =>
        refine hgrown.setPhase ?_
        intro j' hj'
        simp only [Phase.admittedHeavy, Bool.and_eq_true, decide_eq_true_eq] at hj'
        obtain ⟨rfl, hheavy⟩ := hj'
        exact hin rfl hheavy

theorem releaseStep {commands : List (ReleaseCommand (P × C))}
    (hphase : s.phase w = .releasing j commands) (hfree : s.RemovesUnclaimed (.release w)) :
    ((s.setRedis (releaseStep s.redis j commands).1).setPhase w
      (releaseStep s.redis j commands).2).CapInv cfg := by
  match commands, hphase with
  | [], _ => exact (h.setRedis_same rfl).setPhase_free fun _ => rfl
  | .deleteTag :: _, _ => exact (h.deleteTag j).setPhase_free fun _ => rfl
  | .srem (.category key) :: _, _ =>
    exact (h.srem_category key j).setPhase_free fun _ => rfl
  | .srem .heavy :: _, hphase =>
    simp only [Fleet.RemovesUnclaimed, hphase] at hfree
    exact (h.srem_heavy hfree).setPhase_free fun _ => rfl

theorem pruneStep {key : SetKey (P × C)} {todo : List J} {stage : PruneStage W}
    (hphase : s.phase w = .pruning key j todo stage) (hfree : s.RemovesUnclaimed (.prune w)) :
    ((s.setRedis (pruneStep s.redis key j todo stage).1).setPhase w
      (pruneStep s.redis key j todo stage).2).CapInv cfg := by
  have hsame : ∀ phase : Phase J W (P × C), (∀ j, phase.admittedHeavy j = false) →
      ((s.setRedis s.redis).setPhase w phase).CapInv cfg := fun _ hfree' =>
    (h.setRedis_same rfl).setPhase_free hfree'
  cases stage with
  | readStatus => exact hsame _ fun _ => rfl
  | readTag =>
    simp only [Storage.pruneStep]
    cases s.redis.reservedBy j with
    | none => exact hsame _ (Phase.nextMember_admittedHeavy key todo)
    | some owner => exact hsame _ fun _ => rfl
  | checkOwner owner =>
    simp only [Storage.pruneStep]
    cases s.redis.workerAlive owner with
    | true => exact hsame _ (Phase.nextMember_admittedHeavy key todo)
    | false => exact hsame _ fun _ => rfl
  | deleteTag => exact (h.deleteTag j).setPhase_free (Phase.nextMember_admittedHeavy key todo)
  | srem =>
    cases key with
    | category k => exact (h.srem_category k j).setPhase_free fun _ => rfl
    | heavy =>
      simp only [Fleet.RemovesUnclaimed, hphase] at hfree
      exact (h.srem_heavy hfree).setPhase_free fun _ => rfl

theorem next {lane : J → QueueName P C} {c : GovernorCommand J W (P × C)}
    {s' : Fleet J W (P × C)} (hfree : s.RemovesUnclaimed c)
    (hstep : (governor cfg lane).next s c = some s') : s'.CapInv cfg := by
  cases c with
  | enqueue j =>
    cases hstep
    exact h.enqueue j
  | setStatus j status =>
    cases hstep
    exact h.setRedis_same rfl
  | pop w j =>
    simp only [governor] at hstep
    split at hstep
    case h_1 =>
      split at hstep <;> cases hstep
      exact (h.setQueue _).setPhase_free fun _ => rfl
    case h_2 => cases hstep
  | decide w held =>
    simp only [governor] at hstep
    split at hstep <;> cases hstep
    exact h.carryOut w _ _
  | tag w =>
    simp only [governor] at hstep
    split at hstep <;> cases hstep
    rename_i hphase
    exact h.tag hphase
  | pushBack w =>
    simp only [governor] at hstep
    split at hstep <;> cases hstep
    exact (h.setQueue _).setPhase_free fun _ => rfl
  | finish w retried =>
    simp only [governor] at hstep
    split at hstep <;> cases hstep
    cases retried with
    | false => exact h.setPhase_free fun _ => rfl
    | true => exact (h.enqueue _).setPhase_free fun _ => rfl
  | release w =>
    simp only [governor] at hstep
    split at hstep <;> cases hstep
    rename_i hphase
    exact h.releaseStep hphase hfree
  | reconcile w key members =>
    simp only [governor] at hstep
    split at hstep
    case h_1 =>
      split at hstep <;> cases hstep
      exact h.setPhase_free (Phase.nextMember_admittedHeavy key members)
    case h_2 => cases hstep
  | prune w =>
    simp only [governor] at hstep
    split at hstep <;> cases hstep
    rename_i hphase
    exact h.pruneStep hphase hfree
  | die w =>
    cases hstep
    exact h.setPhase_free fun _ => rfl
  | expire w =>
    simp only [governor] at hstep
    split at hstep <;> cases hstep
    exact h.setRedis_same rfl

end Fleet.CapInv

/-- **The heavy cap.** In every run whose removals from the heavy set take away unclaimed slots,
the jobs that living workers execute under a heavy admission are at most `max_heavy`. -/
theorem heavy_cap (cfg : GovernorConfig W P C) (lane : J → QueueName P C)
    {commands : List (GovernorCommand J W (P × C))} {s : Fleet J W (P × C)}
    (hmeets : (governor cfg lane).Meets Fleet.RemovesUnclaimed Fleet.init commands)
    (hrun : (governor cfg lane).run Fleet.init commands = some s) (executing : Finset J)
    (hexec : ∀ j ∈ executing, ∃ w, (s.phase w).admittedHeavy j = true) :
    executing.card ≤ cfg.maxHeavy := by
  have hinv := (governor cfg lane).run_invariant Fleet.RemovesUnclaimed (Fleet.CapInv cfg)
    (fun _ _ _ h hfree hstep => h.next hfree hstep) (Fleet.capInv_init cfg) hmeets hrun
  have hsub : executing ⊆ s.redis.sets .heavy := by
    intro j hj
    obtain ⟨w, hw⟩ := hexec j hj
    exact hinv.held w j hw
  exact (Finset.card_le_card hsub).trans hinv.card_le

end Cap

/-! ## A job requeued under a reconcile -/

def oneSlot : GovernorConfig (Fin 3) Nat Nat where
  multitenancy := true
  maxHeavy := 1
  categoryCap := fun _ => none
  nullCategory := 0
  governing := fun _ => true

def maintenanceLane : Nat → QueueName Nat Nat :=
  fun _ => .storage 0 (some 5) (.tier .maintenance)

/-- Worker 0 runs job 0, which fails. Worker 1 reconciles and reads `failed`. The job is
requeued and admitted by worker 2. Then worker 1 removes it, and worker 0 is admitted with
job 1. -/
def requeueUnderReconcile : List (GovernorCommand Nat (Fin 3) (Nat × Nat)) :=
  [.enqueue 0, .pop 0 0, .decide 0 false, .tag 0, .finish 0 false, .setStatus 0 (some .failed),
    .reconcile 1 .heavy [0], .prune 1,
    .release 0, .release 0, .release 0, .release 0,
    .enqueue 0, .pop 2 0, .decide 2 false, .tag 2,
    .prune 1,
    .enqueue 1, .pop 0 1, .decide 0 false, .tag 0]

theorem reconcile_over_admits :
    ∃ s, (governor oneSlot maintenanceLane).run Fleet.init requeueUnderReconcile = some s
      ∧ s.phase 2 = .executing 0 (some (.fair (0, 5) true))
      ∧ s.phase 0 = .executing 1 (some (.fair (0, 5) true))
      ∧ oneSlot.maxHeavy < ({0, 1} : Finset Nat).card :=
  ⟨_, rfl, rfl, rfl, by decide⟩

/-- The same failed job, reconciled to the end before it is requeued: the cap holds. -/
def requeueAfterReconcile : List (GovernorCommand Nat (Fin 3) (Nat × Nat)) :=
  [.enqueue 0, .pop 0 0, .decide 0 false, .tag 0, .finish 0 false, .setStatus 0 (some .failed),
    .reconcile 1 .heavy [0], .prune 1, .prune 1, .prune 1,
    .release 0, .release 0, .release 0, .release 0,
    .enqueue 0, .pop 2 0, .decide 2 false, .tag 2]

theorem requeueAfterReconcile_meets :
    (governor oneSlot maintenanceLane).Meets Fleet.RemovesUnclaimed Fleet.init
      requeueAfterReconcile := by
  decide

theorem requeueAfterReconcile_within_cap :
    ∃ s, (governor oneSlot maintenanceLane).run Fleet.init requeueAfterReconcile = some s
      ∧ (s.phase 2).admittedHeavy 0 = true ∧ ({0} : Finset Nat).card ≤ oneSlot.maxHeavy := by
  refine ⟨_, rfl, rfl, ?_⟩
  refine heavy_cap oneSlot maintenanceLane requeueAfterReconcile_meets rfl {0} ?_
  intro j hj
  rw [Finset.mem_singleton.mp hj]
  exact ⟨2, rfl⟩

end IsardVDI.Storage
