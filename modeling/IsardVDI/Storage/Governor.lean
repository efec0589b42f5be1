import IsardVDI.Tasks.JobStatus
import Mathlib

/-!
# `lib/governed_worker.py` — reservations and their reconcile

A governed worker that admits a job reserves slots for it: the job's id goes into the global
set of heavy jobs, into the running set of its pool and category, or into both, and one owner
tag `governor:reserved_by:<job>` names the worker. A worker that dies leaves its ids behind. The
reconcile drops an id whose job is no longer live *or* whose owner is gone; a missing tag reads
as a living owner.

A heavy job of a fair lane is in two sets under one tag. The pass over the first removes the
tag with the id, and from then on the second set's entry looks owned (`boot_leaves_category_slot`).
-/

namespace IsardVDI.Storage

open Function

/-- The running sets: `governor:heavy_running`, and `governor:running:<pool>:<category>`. -/
inductive SetKey (K : Type) where
  | heavy
  | category (key : K)
  deriving DecidableEq

/-- The keys of the shared Redis the governor works on. An empty set is an absent one. -/
structure Redis (J W K : Type) where
  sets : SetKey K → Finset J
  reservedBy : J → Option W
  /-- The status of a job, `none` when it has vanished. -/
  status : J → Option JobStatus
  /-- `rq:worker:<name>` exists. -/
  workerAlive : W → Bool

variable {J W K : Type} [DecidableEq J] [DecidableEq K]

/-! ## Commands -/

namespace Redis

variable (r : Redis J W K) (key : SetKey K) (j : J)

def sadd : Redis J W K :=
  { r with sets := update r.sets key (insert j (r.sets key)) }

def srem : Redis J W K :=
  { r with sets := update r.sets key ((r.sets key).erase j) }

/-- `SET governor:reserved_by:<job> <worker>`. -/
def setTag (w : W) : Redis J W K :=
  { r with reservedBy := update r.reservedBy j (some w) }

def deleteTag : Redis J W K :=
  { r with reservedBy := update r.reservedBy j none }

/-- `_RESERVE_LUA`. The set's TTL, refreshed here, is longer than any job. -/
def reserveLua (maxHeavy : Nat) : Bool × Redis J W K :=
  if (r.sets .heavy).card < maxHeavy then (true, r.sadd .heavy j) else (false, r)

/-- `_FAIR_RESERVE_LUA`. No cap on the category is `-1` in the script. -/
def fairReserveLua (key : K) (j : J) (catCap : Option Nat) (isHeavy : Bool)
    (maxHeavy : Nat) : Bool × Redis J W K :=
  if catCap.any (· ≤ (r.sets (.category key)).card) then (false, r)
  else if isHeavy && maxHeavy ≤ (r.sets .heavy).card then (false, r)
  else
    let r := r.sadd (.category key) j
    (true, if isHeavy then r.sadd .heavy j else r)

/-! ## The reconcile -/

def isLive : Option JobStatus → Bool
  | some .started | some .queued | some .deferred | some .scheduled => true
  | _ => false

def ownerAlive : Bool :=
  match r.reservedBy j with
  | none => true
  | some owner => r.workerAlive owner

/-- The test of `_prune_stale_members`. -/
def stale : Bool := !isLive (r.status j) || !r.ownerAlive j

def pruneMember (r : Redis J W K) (j : J) : Redis J W K :=
  if r.stale j then (r.srem key j).deleteTag j else r

/-- `_prune_stale_members`, over the members in the order `SMEMBERS` gave them. -/
def pruneStaleMembers (members : List J) : Redis J W K :=
  members.foldl (pruneMember key) r

end Redis

/-- The order in which Redis lists the members of a set. -/
structure MemberOrder (J : Type) where
  smembers : Finset J → List J
  mem_smembers : ∀ s j, j ∈ smembers s ↔ j ∈ s

section Boot

variable (order : MemberOrder J)

variable (r : Redis J W K)

def Redis.reconcileSet (key : SetKey K) : Redis J W K :=
  r.pruneStaleMembers key (order.smembers (r.sets key))

def Redis.reconcileHeavy : Redis J W K := r.reconcileSet order .heavy

/-- `_reconcile_categories` over the keys its `SCAN` found. A set that has become empty is gone;
`_gc_drained_category_lanes` touches other keys. -/
def Redis.reconcileCategories (scanned : List K) : Redis J W K :=
  scanned.foldl (fun r key => r.reconcileSet order (.category key)) r

/-- The end of `GovernedWorker.__init__`. -/
def Redis.boot (scanned : List K) : Redis J W K :=
  (r.reconcileHeavy order).reconcileCategories order scanned

end Boot

/-! ## What a pass does to one job

A pass looks at one member at a time, and what it does to a member depends on that member's own
status and tag. So the effect on a job `j` can be read off the state before the pass. -/

namespace Redis

variable {key : SetKey K} {r r' r'' : Redis J W K} {j : J} {hit hit' : Prop}

omit [DecidableEq J] [DecidableEq K] in
theorem stale_congr (hstatus : r'.status j = r.status j) (halive : r'.workerAlive = r.workerAlive)
    (htag : r'.reservedBy j = r.reservedBy j) : r'.stale j = r.stale j := by
  simp only [stale, ownerAlive, hstatus, halive, htag]

/-- The state of `j` after a pass over the set `key`; `hit` says whether the pass dropped it. -/
structure PrunedBy (key : SetKey K) (hit : Prop) (j : J) (r r' : Redis J W K) : Prop where
  status : r'.status = r.status
  workerAlive : r'.workerAlive = r.workerAlive
  reservedBy_of_hit : hit → r'.reservedBy j = none
  reservedBy_of_not_hit : ¬ hit → r'.reservedBy j = r.reservedBy j
  mem : ∀ key', j ∈ r'.sets key' ↔ j ∈ r.sets key' ∧ ¬ (key' = key ∧ hit)

omit [DecidableEq J] [DecidableEq K] in
theorem PrunedBy.stale_eq (h : PrunedBy key hit j r r') (hkept : ¬ hit) : r'.stale j = r.stale j :=
  stale_congr (congrFun h.status j) h.workerAlive (h.reservedBy_of_not_hit hkept)

omit [DecidableEq J] [DecidableEq K] in
theorem PrunedBy.trans (h : PrunedBy key hit j r r') (h' : PrunedBy key hit' j r' r'') :
    PrunedBy key (hit ∨ hit') j r r'' where
  status := h'.status.trans h.status
  workerAlive := h'.workerAlive.trans h.workerAlive
  reservedBy_of_hit hor := by
    by_cases hlater : hit'
    · exact h'.reservedBy_of_hit hlater
    · rw [h'.reservedBy_of_not_hit hlater]
      exact h.reservedBy_of_hit (hor.resolve_right hlater)
  reservedBy_of_not_hit hnor := by
    rw [not_or] at hnor
    rw [h'.reservedBy_of_not_hit hnor.2, h.reservedBy_of_not_hit hnor.1]
  mem key' := by
    rw [h'.mem, h.mem]
    tauto

theorem pruneMember_spec (key : SetKey K) (r : Redis J W K) (m j : J) :
    PrunedBy key (j = m ∧ r.stale j = true) j r (pruneMember key r m) := by
  unfold pruneMember
  split_ifs with hstale
  · refine ⟨rfl, rfl, fun h => ?_, fun h => ?_, fun key' => ?_⟩
    · rw [h.1]
      exact update_self ..
    · exact update_of_ne (fun heq => h ⟨heq, heq ▸ hstale⟩) ..
    · by_cases hkey : key' = key
      · subst hkey
        by_cases hj : j = m <;> simp [srem, deleteTag, hj, hstale]
      · simp [srem, deleteTag, hkey]
  · have hnot : ¬ (j = m ∧ r.stale j = true) := by
      rintro ⟨rfl, h⟩
      exact hstale h
    exact ⟨rfl, rfl, fun h => absurd h hnot, fun _ => rfl, fun key' => by simp [hnot]⟩

/-- **One pass.** The job leaves the set, and loses its tag, iff it is listed and stale. -/
theorem pruneStaleMembers_spec (key : SetKey K) (members : List J) (r : Redis J W K) (j : J) :
    PrunedBy key (j ∈ members ∧ r.stale j = true) j r (r.pruneStaleMembers key members) := by
  induction members generalizing r with
  | nil =>
    exact ⟨rfl, rfl, fun h => absurd h.1 (by simp), fun _ => rfl,
      fun key' => by simp [pruneStaleMembers]⟩
  | cons m members ih =>
    have hone := pruneMember_spec key r m j
    have hiff : (j = m ∧ r.stale j = true)
          ∨ (j ∈ members ∧ (pruneMember key r m).stale j = true)
        ↔ j ∈ m :: members ∧ r.stale j = true := by
      rw [List.mem_cons]
      by_cases hnow : j = m ∧ r.stale j = true
      · exact iff_of_true (.inl hnow) ⟨.inl hnow.1, hnow.2⟩
      · -- a job that is not dropped now is as stale as it was
        rw [hone.stale_eq hnow]
        tauto
    rw [← hiff]
    exact hone.trans (ih _)

end Redis

/-! ## What the reconcile does to one job -/

section Reconcile

variable (order : MemberOrder J)

variable (r : Redis J W K)

def Redis.reconcile (keys : List (SetKey K)) : Redis J W K :=
  keys.foldl (Redis.reconcileSet order) r

theorem Redis.boot_eq_reconcile (scanned : List K) :
    r.boot order scanned = r.reconcile order (.heavy :: scanned.map .category) := by
  simp only [Redis.boot, Redis.reconcileHeavy, Redis.reconcileCategories, Redis.reconcile,
    List.foldl_cons, List.foldl_map]

/-- The worker named by the job's tag is dead. -/
def Redis.OwnerDead (j : J) : Prop :=
  ∃ w, r.reservedBy j = some w ∧ r.workerAlive w = false

theorem Redis.reconcileSet_spec (key : SetKey K) (j : J) :
    Redis.PrunedBy key (j ∈ r.sets key ∧ r.stale j = true) j r (r.reconcileSet order key) := by
  have hspec := Redis.pruneStaleMembers_spec key (order.smembers (r.sets key)) r j
  rwa [order.mem_smembers] at hspec

variable {order}

variable {r r' : Redis J W K} {j : J} {key : SetKey K} {keys : List (SetKey K)}

omit [DecidableEq J] [DecidableEq K] in
theorem Redis.OwnerDead.stale (h : r.OwnerDead j) : r.stale j = true := by
  obtain ⟨w, htag, hdead⟩ := h
  simp [Redis.stale, Redis.ownerAlive, htag, hdead]

variable {hit : Prop}

omit [DecidableEq J] [DecidableEq K] in
theorem Redis.PrunedBy.fresh_of_hit (h : Redis.PrunedBy key hit j r r') (hhit : hit)
    (hlive : Redis.isLive (r.status j) = true) : r'.stale j = false := by
  simp [Redis.stale, Redis.ownerAlive, h.reservedBy_of_hit hhit, h.status, hlive]

theorem Redis.mem_of_mem_reconcile (h : j ∈ (r.reconcile order keys).sets key) :
    j ∈ r.sets key := by
  induction keys generalizing r with
  | nil => exact h
  | cons k keys ih => exact (((r.reconcileSet_spec order k j).mem key).mp (ih h)).1

theorem Redis.mem_reconcile_of_fresh (hfresh : r.stale j = false) (h : j ∈ r.sets key) :
    j ∈ (r.reconcile order keys).sets key := by
  induction keys generalizing r with
  | nil => exact h
  | cons k keys ih =>
    have hspec := r.reconcileSet_spec order k j
    have hkept : ¬ (j ∈ r.sets k ∧ r.stale j = true) := by simp [hfresh]
    refine ih ((hspec.stale_eq hkept).trans hfresh) ((hspec.mem key).mpr ⟨h, ?_⟩)
    rintro ⟨-, hhit⟩
    exact hkept hhit

/-- **The second slot leaks.** A live job of a dead worker that is in two sets is still in one
of them after any passes. -/
theorem Redis.mem_reconcile_of_two {k₁ k₂ : SetKey K} (hne : k₁ ≠ k₂) (h₁ : j ∈ r.sets k₁)
    (h₂ : j ∈ r.sets k₂) (hlive : Redis.isLive (r.status j) = true) :
    ∃ key, j ∈ (r.reconcile order keys).sets key := by
  induction keys generalizing r with
  | nil => exact ⟨k₁, h₁⟩
  | cons k keys ih =>
    have hspec := r.reconcileSet_spec order k j
    by_cases hhit : j ∈ r.sets k ∧ r.stale j = true
    · -- dropped from `k` only, and owned from now on
      show ∃ key, j ∈ ((r.reconcileSet order k).reconcile order keys).sets key
      have hfresh := hspec.fresh_of_hit hhit hlive
      by_cases hk : k₁ = k
      · have hin := (hspec.mem k₂).mpr ⟨h₂, fun h => hne (hk.trans h.1.symm)⟩
        exact ⟨k₂, Redis.mem_reconcile_of_fresh hfresh hin⟩
      · have hin := (hspec.mem k₁).mpr ⟨h₁, fun h => hk h.1⟩
        exact ⟨k₁, Redis.mem_reconcile_of_fresh hfresh hin⟩
    · refine ih ((hspec.mem k₁).mpr ⟨h₁, fun h => hhit h.2⟩)
        ((hspec.mem k₂).mpr ⟨h₂, fun h => hhit h.2⟩) ?_
      rwa [hspec.status]

/-- **One slot heals.** A job of a dead worker that is in one set at most is in none once that
set has been passed over. -/
theorem Redis.not_mem_reconcile_of_one (hdead : r.OwnerDead j)
    (hone : ∀ k₁ k₂, j ∈ r.sets k₁ → j ∈ r.sets k₂ → k₁ = k₂) (hkeys : ∀ k, j ∈ r.sets k → k ∈ keys)
    (key : SetKey K) : j ∉ (r.reconcile order keys).sets key := by
  induction keys generalizing r with
  | nil => exact fun h => absurd (hkeys key h) (by simp)
  | cons k keys ih =>
    have hspec := r.reconcileSet_spec order k j
    by_cases hk : j ∈ r.sets k
    · intro h
      obtain ⟨hin, hnot⟩ := (hspec.mem key).mp (Redis.mem_of_mem_reconcile h)
      exact hnot ⟨hone key k hin hk, hk, hdead.stale⟩
    · -- the pass does not concern `j`
      have hkept : ¬ (j ∈ r.sets k ∧ r.stale j = true) := fun h => hk h.1
      have hsets : ∀ k', j ∈ (r.reconcileSet order k).sets k' ↔ j ∈ r.sets k' := fun k' =>
        (hspec.mem k').trans ⟨fun h => h.1, fun h => ⟨h, fun h' => hkept h'.2⟩⟩
      refine ih ?_ ?_ ?_
      · obtain ⟨w, htag, hw⟩ := hdead
        exact ⟨w, (hspec.reservedBy_of_not_hit hkept).trans htag, by rwa [hspec.workerAlive]⟩
      · intro k₁ k₂ h₁ h₂
        exact hone k₁ k₂ ((hsets k₁).mp h₁) ((hsets k₂).mp h₂)
      · intro k' h'
        have hin := (hsets k').mp h'
        refine (List.mem_cons.mp (hkeys k' hin)).resolve_left ?_
        rintro rfl
        exact hk hin

theorem Redis.not_mem_reconcile_of_over (hover : Redis.isLive (r.status j) = false)
    (hkey : key ∈ keys) : j ∉ (r.reconcile order keys).sets key := by
  induction keys generalizing r with
  | nil => cases hkey
  | cons k keys ih =>
    have hspec := r.reconcileSet_spec order k j
    rcases List.mem_cons.mp hkey with rfl | hkey
    · intro h
      obtain ⟨hin, hnot⟩ := (hspec.mem key).mp (Redis.mem_of_mem_reconcile h)
      exact hnot ⟨rfl, hin, by simp [Redis.stale, hover]⟩
    · exact ih (by rwa [hspec.status]) hkey

end Reconcile

/-! ## A boot -/

/-- **Which leaks a boot heals.** The dead workers' jobs still read `started` or `queued`. After
the boot none of them is in a running set iff each was in one running set at most. -/
theorem boot_heals_iff (order : MemberOrder J) (r : Redis J W K) (scanned : List K)
    (hscan : ∀ key, (r.sets (.category key)).Nonempty → key ∈ scanned)
    (hstatus : ∀ j, r.OwnerDead j → r.status j = some .started ∨ r.status j = some .queued) :
    (∀ j, r.OwnerDead j → ∀ key, j ∉ (r.boot order scanned).sets key)
      ↔ ∀ j, r.OwnerDead j → ∀ k₁ k₂, j ∈ r.sets k₁ → j ∈ r.sets k₂ → k₁ = k₂ := by
  rw [Redis.boot_eq_reconcile]
  constructor
  · intro hheals j hdead k₁ k₂ h₁ h₂
    by_contra hne
    have hlive : Redis.isLive (r.status j) = true := by
      rcases hstatus j hdead with h | h <;> rw [h] <;> rfl
    obtain ⟨key, hkey⟩ :
        ∃ key, j ∈ (r.reconcile order (.heavy :: scanned.map .category)).sets key :=
      Redis.mem_reconcile_of_two hne h₁ h₂ hlive
    exact hheals j hdead key hkey
  · intro hone j hdead key
    refine Redis.not_mem_reconcile_of_one hdead (hone j hdead) ?_ key
    intro k hk
    cases k with
    | heavy => exact .head _
    | category key' =>
      exact .tail _ (List.mem_map_of_mem (hscan key' ⟨j, hk⟩))

/-- **What a boot leaves alone and what it frees.** A live job without a dead owner stays in the
running sets it is in; a job that is over is in none of those passed over. -/
theorem boot_spares_live (order : MemberOrder J) (r : Redis J W K) (scanned : List K) (j : J) :
    (r.stale j = false → ∀ key, j ∈ (r.boot order scanned).sets key ↔ j ∈ r.sets key)
      ∧ (Redis.isLive (r.status j) = false →
        ∀ key ∈ .heavy :: scanned.map .category, j ∉ (r.boot order scanned).sets key) := by
  rw [Redis.boot_eq_reconcile]
  refine ⟨fun hfresh key => ?_, fun hover key => Redis.not_mem_reconcile_of_over hover⟩
  exact ⟨Redis.mem_of_mem_reconcile, Redis.mem_reconcile_of_fresh hfresh⟩

def ascending (n : Nat) : MemberOrder (Fin n) where
  smembers s := (List.finRange n).filter (· ∈ s)
  mem_smembers := by simp

/-- Worker 3 runs job 0 of category 5. Job 2 of that category is over. -/
def busyWorker : Redis (Fin 4) Nat Nat where
  sets
    | .heavy => {0, 2}
    | .category key => if key = 5 then {0, 2} else ∅
  reservedBy := fun _ => some 3
  status := fun j => if j = 0 then some .started else some .finished
  workerAlive := fun _ => true

theorem boot_spares_busyWorker :
    (∀ key, 0 ∈ (busyWorker.boot (ascending 4) [5]).sets key ↔ 0 ∈ busyWorker.sets key)
      ∧ 0 ∈ busyWorker.sets (.category 5) ∧ 2 ∈ busyWorker.sets (.category 5)
      ∧ ∀ key ∈ [.heavy, .category 5], 2 ∉ (busyWorker.boot (ascending 4) [5]).sets key :=
  ⟨(boot_spares_live (ascending 4) busyWorker [5] 0).1 rfl, by decide, by decide,
    (boot_spares_live (ascending 4) busyWorker [5] 2).2 rfl⟩

/-! ### A heavy job of a fair lane -/

/-- Worker 9 admitted job 1 of a fair maintenance lane, category 5, and was killed. -/
def killedWorker : Redis (Fin 2) Nat Nat where
  sets
    | .heavy => {1}
    | .category key => if key = 5 then {1} else ∅
  reservedBy := fun j => if j = 1 then some 9 else none
  status := fun j => if j = 1 then some .started else none
  workerAlive := fun w => w ≠ 9

/-- The boot frees the global slot and leaves the category's. -/
theorem boot_leaves_category_slot :
    killedWorker.OwnerDead 1 ∧ killedWorker.status 1 = some .started
      ∧ 1 ∉ (killedWorker.boot (ascending 2) [5]).sets .heavy
      ∧ 1 ∈ (killedWorker.boot (ascending 2) [5]).sets (.category 5) :=
  ⟨⟨9, rfl, rfl⟩, rfl, by decide, by decide⟩

/-- The same worker's job on a flat lane: it holds the global slot only, and the boot frees it. -/
def killedFlatWorker : Redis (Fin 2) Nat Nat :=
  { killedWorker with
    sets := fun key => if key = .heavy then {1} else ∅ }

theorem boot_heals_flat_slot :
    killedFlatWorker.OwnerDead 1
      ∧ ∀ key, 1 ∉ (killedFlatWorker.boot (ascending 2) []).sets key := by
  have hdead : killedFlatWorker.OwnerDead 1 := ⟨9, rfl, rfl⟩
  have hkey : ∀ j k, j ∈ killedFlatWorker.sets k → k = .heavy := by
    intro j k hj
    by_contra hne
    simp [killedFlatWorker, hne] at hj
  refine ⟨hdead, (boot_heals_iff (ascending 2) killedFlatWorker [] ?_ ?_).mpr ?_ 1 hdead⟩
  · rintro key ⟨j, hj⟩
    exact absurd (hkey j _ hj) (by simp)
  · rintro j ⟨w, htag, -⟩
    refine .inl ?_
    by_cases hj : j = 1
    · rw [hj]
      rfl
    · simp [killedFlatWorker, killedWorker, hj] at htag
  · intro j _ k₁ k₂ h₁ h₂
    rw [hkey j k₁ h₁, hkey j k₂ h₂]

end IsardVDI.Storage
