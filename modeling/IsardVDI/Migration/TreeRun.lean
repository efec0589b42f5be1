import IsardVDI.Lib.Machine
import IsardVDI.Migration.Handlers

/-!
# The saga of a ledger, step by step

The runner steps the trees of a ledger in two modes. A tick reads the whole ledger and keeps the
rows; a drive reads the rows of one tree, and a failure in it looks at the rows the last tick kept.
Statuses of tasks, worker results, the writes of others to the storage rows and the domains, and
exceptions of the handlers are arbitrary at every step.

* `Inv` — a disk past its gate has passed it since it was last touched, and a tree with a disk that
  is lost goes nowhere.
-/

namespace IsardVDI.Migration.Saga

open IsardVDI.Storage
open List Function

/-! ## The ledger and its surroundings -/

structure State (I D P : Type) where
  /-- The rows of the ledger, of all its trees. -/
  items : List (Item I D P)
  /-- `_snapshot`: the rows that are kept. -/
  snapshot : Option (List (Item I D P)) := none
  status : I → Option StorageStatus
  /-- Where a storage row says the disk is. -/
  path : I → P
  domains : D → DomainState
  /-- The tasks placed so far. The id of a task is its place here. -/
  jobs : List (Job I P) := []
  /-- The tasks that a step has found finished. -/
  finished : List Nat := []
  /-- The disks that have been `rebased`. -/
  reached : List I := []

inductive Mode where
  | tick
  | drive
  deriving DecidableEq, Repr

inductive Event (I D P : Type) where
  | step (mode : Mode) (tree : I) (env : Env I) (domainsOf : I → List D)
  /-- A tick of a job that is being cancelled skips a tree that has not started. -/
  | skip (tree : I)
  /-- `_items`, for the pass or for `save_drive`. -/
  | load
  /-- A new pass, or another runner: nothing is kept. -/
  | forget
  /-- The rows of the disks and the domains are written by others. -/
  | outside (status : I → Option StorageStatus) (path : I → P) (domains : D → DomainState)

section Machine

variable {I D P : Type}

section Ledger

variable [DecidableEq I] [DecidableEq D] [DecidableEq P]

namespace State

variable (s : State I D P)

def tree (t : I) : List (Item I D P) := s.items.filter (·.treeId = t)

/-- The rows of a tree that `_items` has when `x` is at hand. A tick writes the rows it keeps; a
drive does not, but without kept rows it reads the ledger as it is. -/
def rows (mode : Mode) (t : I) (x : Item I D P) : List (Item I D P) :=
  match mode, s.snapshot with
  | .drive, some kept => kept.filter (·.treeId = t)
  | _, _ => (s.tree t).map fun it => if it.storageId = x.storageId then x else it

def call (mode : Mode) (t : I) (env : Env I) (domainsOf : I → List D) : Call I D P where
  env
  tree := s.tree t
  items := s.rows mode t
  status := s.status
  path := s.path
  domains := s.domains
  domainsOf
  nextJob := s.jobs.length

def apply (e : Effect I D P) : State I D P :=
  match e with
  | .set .. => { s with items := s.items.map e.onItem }
  | .load => { s with snapshot := some (s.snapshot.getD s.items) }
  | .settle .. =>
    { s with items := s.items.map e.onItem, snapshot := s.snapshot.map (·.map e.onItem) }
  | .place job => { s with jobs := s.jobs ++ [job] }
  | .status id status =>
    { s with status := update s.status id ((s.status id).map fun _ => status) }
  | .repoint id path => { s with path := update s.path id path }
  | .park d => { s with domains := update s.domains d .maintenance }
  | .unpark d =>
    { s with domains := if s.domains d = .maintenance then update s.domains d .stopped
        else s.domains }
  | .stop d => { s with domains := update s.domains d .stopping }

def perform (effects : List (Effect I D P)) : State I D P :=
  effects.foldl apply s

/-- The rows that are kept after the effects of a step, and what is observed. -/
def close (s s' : State I D P) (mode : Mode) (jobStatus : Nat → Option JobStatus) :
    State I D P :=
  { s' with
    snapshot := match mode with
      | .tick => some s'.items
      | .drive => s'.snapshot
    finished := s'.finished ++ (List.range s.jobs.length).filter (jobFinished <| jobStatus ·)
    reached := s'.reached ++ (s'.items.filter (·.state = .rebased)).map (·.storageId) }

def step (mode : Mode) (t : I) (env : Env I) (domainsOf : I → List D) : State I D P :=
  s.close (s.perform (s.call mode t env domainsOf).stepTree) mode env.jobStatus

def notStarted (t : I) : Bool :=
  !(s.tree t).isEmpty && (s.tree t).all (·.state = .pending)

def skip (t : I) : State I D P :=
  s.close (s.perform ((s.tree t).map fun it =>
    .set it.storageId fun p => { p with state := .skipped })) .tick fun _ => none

end State

def machine : Machine (State I D P) (Event I D P) where
  next s
    | .step mode t env domainsOf => some (s.step mode t env domainsOf)
    | .skip t => if s.notStarted t then some (s.skip t) else none
    | .load => some { s with snapshot := some (s.snapshot.getD s.items) }
    | .forget => some { s with snapshot := none }
    | .outside status path domains => some { s with status, path, domains }

end Ledger

/-! ## Kinds of effects -/

def Effect.Quiet : Effect I D P → Prop
  | .settle .. | .load => False
  | _ => True

variable {e : Effect I D P} {jobs more : List (Job I P)} {id : I} {s s' : State I D P}
  {plan : List (Planned I P)} {old : Set I} {x : Planned I P} {core : Core}
  {effects : List (Effect I D P)}

theorem Effect.Own.quiet {x : Item I D P} {action : Action} (h : e.Own x action) : e.Quiet := by
  cases e with
  | settle | load => exact h
  | _ => trivial

def Effect.Skips : Effect I D P → Prop
  | .set _ change => ∃ state, state.givenUp ∧ change = fun p => { p with state }
  | .settle .. | .load | .repoint .. => False
  | .place job => ∃ id path, job = .removeDestination id path
  | _ => True

theorem Effect.Skips.quiet (h : e.Skips) : e.Quiet := by
  cases e with
  | settle | load => cases h
  | _ => trivial

theorem Effect.Skips.spares (h : e.Skips) (id : I) : e.Spares id := by
  cases e with
  | set => exact .inr h
  | settle => cases h
  | _ => trivial

def Effect.Within (ids : List I) : Effect I D P → Prop
  | .set id _ | .settle id _ | .status id _ => id ∈ ids
  | _ => True

theorem Effect.Own.within {x : Item I D P} {action : Action} {ids : List I}
    (h : e.Own x action) (hx : x.storageId ∈ ids) : e.Within ids := by
  cases e with
  | set | status => exact h ▸ hx
  | settle => cases h
  | _ => trivial

def Effect.Waits : Effect I D P → Prop
  | .set _ change => ∃ attempts, change = fun p => { p with attempts }
  | .stop .. => True
  | _ => False

theorem Effect.Waits.quiet (h : e.Waits) : e.Quiet := by
  cases e with
  | settle | load => exact h
  | _ => trivial

theorem skips_all (tree : List (Item I D P)) (state : ItemState) (hstate : state.givenUp) :
    let effects : List (Effect I D P) := tree.map fun it => .set it.storageId ({ · with state })
    (∀ e ∈ effects, e.Skips) ∧ (∀ e ∈ effects, e.Within (tree.map (·.storageId)))
      ∧ ∀ it ∈ tree, ∃ e ∈ effects, e.Stops it.storageId :=
  ⟨forall_mem_map.mpr fun _ _ => ⟨state, hstate, rfl⟩,
    forall_mem_map.mpr fun _ hit => mem_map_of_mem hit,
    fun _ hit => ⟨_, mem_map_of_mem hit, state, hstate, .inr rfl⟩⟩

theorem Call.mem_of_guarded {c : Call I D P} {x : Item I D P} (h : e ∈ c.guarded x effects) :
    e ∈ effects ∨ e = .set x.storageId fun p => { p with state := .failed } := by
  unfold guarded at h
  split at h
  · exact .inl h
  · exact (mem_append.mp h).imp mem_of_mem_take mem_singleton.mp

/-! ## A disk and its gate -/

def Job.Touches (id : I) : Job I P → Prop
  | .move other .. | .rebase other .. | .repair other .. => other = id
  | _ => False

/-- The task verifies the disk, and the disk has not been touched since it was placed. -/
def Verifies (jobs : List (Job I P)) (id : I) (v : Nat) : Prop :=
  (∃ dstPath expectBacking, jobs[v]? = some (.verify id dstPath expectBacking))
    ∧ ∀ j job, v < j → jobs[j]? = some job → ¬ job.Touches id

/-- The disk has passed its gate after it was last moved, rebased or repaired. -/
def State.Passed (s : State I D P) (id : I) : Prop := ∃ v ∈ s.finished, Verifies s.jobs id v

theorem Verifies.lt_length {v : Nat} (h : Verifies jobs id v) : v < jobs.length := by
  obtain ⟨⟨_, _, hv⟩, -⟩ := h
  exact (List.getElem?_eq_some_iff.mp hv).1

theorem Verifies.append {v : Nat} (h : Verifies jobs id v) (hmore : ∀ job ∈ more, ¬ job.Touches id)
    : Verifies (jobs ++ more) id v := by
  have hlt := h.lt_length
  obtain ⟨⟨dstPath, expectBacking, hv⟩, hlater⟩ := h
  refine ⟨⟨dstPath, expectBacking, ?_⟩, fun j job hj hjob => ?_⟩
  · rw [getElem?_append_left hlt, hv]
  by_cases hold : j < jobs.length
  · rw [getElem?_append_left hold] at hjob
    exact hlater j job hj hjob
  · rw [getElem?_append_right (by omega)] at hjob
    exact hmore job (mem_of_getElem? hjob)

theorem verifies_last (jobs : List (Job I P)) (id : I) (dstPath : P) (expectBacking : Option P) :
    Verifies (jobs ++ [.verify id dstPath expectBacking]) id jobs.length := by
  refine ⟨⟨dstPath, expectBacking, by simp⟩, fun j job hj hjob => ?_⟩
  have hlt := (List.getElem?_eq_some_iff.mp hjob).1
  rw [length_append, length_singleton] at hlt
  omega

structure CoreInv (plan : List (Planned I P)) (s : State I D P) (x : Planned I P) (core : Core) :
    Prop where
  /-- Before it is rebased it has no gate. -/
  early : core.state = .pending ∨ core.state = .moving ∨ core.state = .moved →
    core.verifyTaskId = none ∧ core.verifyPassed = false
  fresh : core.state = .pending → core.moveTaskId = none
  slot : core.state = .rebased → ∀ v, core.verifyTaskId = some (.job v) →
    Verifies s.jobs x.storageId v
  gate : core.state = .rebased → core.verifyPassed → s.Passed x.storageId
  committed : core.state = .dbUpdated → x.dstPath ≠ x.srcPath → s.Passed x.storageId
  reached : core.state = .rebased ∨ core.state = .dbUpdated ∨ core.state = .released →
    x.storageId ∈ s.reached
  leaf : core.state = .repairing → ∀ child ∈ plan, child.treeId = x.treeId →
    child.parentStorageId ≠ some x.storageId

structure Follows (s s' : State I D P) (env : Env I) (more : List (Job I P)) : Prop where
  jobs : s'.jobs = s.jobs ++ more
  finished : ∀ v ∈ s.finished, v ∈ s'.finished
  observed : ∀ v < s.jobs.length, jobFinished (env.jobStatus v) → v ∈ s'.finished
  reached : ∀ id ∈ s.reached, id ∈ s'.reached

theorem not_touches_of_for {x id : I} (hfor : ∀ e ∈ effects, e.For x) (hne : x ≠ id) :
    ∀ job ∈ placed effects, ¬ job.Touches id := by
  intro job hjob htouches
  rcases hfor _ (mem_placed.mp hjob) with hdisk | ⟨_, _, rfl⟩
  · cases job <;> first | exact hne (hdisk.symm.trans htouches) | exact htouches
  · exact htouches

theorem State.Passed.follows {env : Env I} (h : s.Passed id) (hf : Follows s s' env more)
    (hmore : ∀ job ∈ more, ¬ job.Touches id) : s'.Passed id := by
  obtain ⟨v, hv, hverifies⟩ := h
  exact ⟨v, hf.finished v hv, hf.jobs ▸ hverifies.append hmore⟩

theorem CoreInv.follows {env : Env I} (h : CoreInv plan s x core) (hf : Follows s s' env more)
    (hmore : ∀ job ∈ more, ¬ job.Touches x.storageId) : CoreInv plan s' x core :=
  { h with
    slot := fun hstate v hv => hf.jobs ▸ (h.slot hstate v hv).append hmore
    gate := fun hstate hpassed => (h.gate hstate hpassed).follows hf hmore
    committed := fun hstate hplace => (h.committed hstate hplace).follows hf hmore
    reached := fun hstate => hf.reached _ (h.reached hstate) }

theorem CoreInv.of_givenUp (h : core.state.givenUp) : CoreInv plan s x core := by
  constructor <;> intro hstate <;> rcases ItemState.eq_of_givenUp h with hs | hs <;>
    simp [hs] at hstate

theorem CoreInv.of_early
    (hstate : core.state = .pending ∨ core.state = .moving ∨ core.state = .moved)
    (hgate : core.verifyTaskId = none ∧ core.verifyPassed = false)
    (hfresh : core.state = .pending → core.moveTaskId = none) : CoreInv plan s x core := by
  refine ⟨fun _ => hgate, hfresh, ?_, ?_, ?_, ?_, ?_⟩ <;> intro h <;>
    rcases hstate with hs | hs | hs <;> simp [hs] at h

theorem CoreInv.of_rebased (hstate : core.state = .rebased)
    (hslot : ∀ v, core.verifyTaskId = some (.job v) → Verifies s.jobs x.storageId v)
    (hgate : core.verifyPassed → s.Passed x.storageId) (hreached : x.storageId ∈ s.reached) :
    CoreInv plan s x core := by
  refine ⟨?_, ?_, fun _ => hslot, fun _ => hgate, ?_, fun _ => hreached, ?_⟩ <;> intro h <;>
    simp_all

/-! ## A tree with a disk that is lost -/

/-- The states of a disk that has not been migrated and will not be. -/
def ItemState.lost : ItemState → Bool
  | .skipped | .failed | .quarantined => true
  | _ => false

/-- A tree that goes nowhere: it is over, or the first disk that could be taken further has
failed. -/
def Doomed (tree : List (Item I D P)) : Prop :=
  (∀ it ∈ tree, it.state.terminal) ∨ ∃ f ∈ tree, f.state = .failed
    ∧ ∀ it ∈ tree, it.topoIndex < f.topoIndex → it.state.phaseADone ∨ it.state = .failed

variable {f : Item I D P → Item I D P}

theorem Doomed.map {tree : List (Item I D P)} (h : Doomed tree)
    (hplan : ∀ it, (f it).toPlanned = it.toPlanned) (hstate : ∀ it ∈ tree, (f it).state = it.state)
    : Doomed (tree.map f) := by
  rcases h with hall | ⟨x, hx, hfailed, hbefore⟩
  · refine .inl (forall_mem_map.mpr fun it hit => ?_)
    rw [hstate it hit]
    exact hall it hit
  · refine .inr ⟨f x, mem_map_of_mem hx, (hstate x hx).trans hfailed,
      forall_mem_map.mpr fun it hit hlt => ?_⟩
    rw [hplan, hplan] at hlt
    rw [hstate it hit]
    exact hbefore it hit hlt

/-! ## The ledger as a whole -/

structure Laid (plan : List (Planned I P)) : Prop where
  ids : (plan.map (·.storageId)).Nodup
  order : ∀ a ∈ plan, ∀ b ∈ plan, a.treeId = b.treeId → a.topoIndex = b.topoIndex → a = b
  parents : ∀ a ∈ plan, ∀ p ∈ plan, a.treeId = p.treeId →
    a.parentStorageId = some p.storageId → p.topoIndex < a.topoIndex

/-- The rows that are kept are older than the ledger: of the disks that `p` is about, those ended
in them are ended. -/
def State.Behind (s : State I D P) (p : I → Prop) : Prop :=
  ∀ kept, s.snapshot = some kept → kept.map (·.toPlanned) = s.items.map (·.toPlanned)
    ∧ ∀ k ∈ kept, ∀ it ∈ s.items, k.storageId = it.storageId → p it.storageId →
      k.state.terminal → it.state.terminal

theorem eq_of_storageId {items : List (Item I D P)}
    (h : ((items.map (·.toPlanned)).map (·.storageId)).Nodup) {a b : Item I D P} (ha : a ∈ items)
    (hb : b ∈ items) (hid : a.storageId = b.storageId) : a = b := by
  rw [map_map] at h
  exact inj_on_of_nodup_map h ha hb hid

namespace State

theorem plan_map (hitems : s'.items = s.items.map f) (hplan : ∀ it, (f it).toPlanned = it.toPlanned)
    : s'.items.map (·.toPlanned) = s.items.map (·.toPlanned) := by
  rw [hitems, map_map]
  exact map_congr_left fun it _ => hplan it

theorem behind_self {kept : List (Item I D P)} (hkept : s.snapshot = some kept)
    (heq : kept = s.items) (hids : ((s.items.map (·.toPlanned)).map (·.storageId)).Nodup)
    (p : I → Prop) : s.Behind p := by
  intro kept' hkept'
  cases hkept.symm.trans hkept'
  subst heq
  refine ⟨rfl, fun k hk it hit hid _ hterminal => ?_⟩
  rw [← eq_of_storageId hids hk hit hid]
  exact hterminal

theorem Behind.close {p : I → Prop} (h : s'.Behind p)
    (hids : ((s'.items.map (·.toPlanned)).map (·.storageId)).Nodup) (mode : Mode)
    (jobStatus : Nat → Option JobStatus) : (s.close s' mode jobStatus).Behind p := by
  cases mode with
  | tick => exact behind_self (s := s.close s' .tick jobStatus) rfl rfl hids p
  | drive => exact h

end State

/-! ## How far a disk gets -/

section Disk

variable [DecidableEq P]

/-- **A disk that is taken one step further.** -/
theorem CoreInv.trans {c : Call I D P} {x : Item I D P} (h : CoreInv plan s x.toPlanned x.core)
    (htrans : Trans c x jobs core) (hf : Follows s s' c.env jobs) (hid : c.nextJob = s.jobs.length)
    (hleaf : (∀ it ∈ c.tree, it.parentStorageId ≠ some x.storageId) →
      ∀ child ∈ plan, child.treeId = x.treeId → child.parentStorageId ≠ some x.storageId)
    (hreached : core.state = .rebased → x.storageId ∈ s'.reached) :
    CoreInv plan s' x.toPlanned core := by
  have hearly : Movable c x → x.verifyTaskId = none ∧ x.verifyPassed = false :=
    fun hx => h.early (hx.elim (fun hx => .inl hx.1) fun hx => .inr (.inl hx.1))
  cases htrans with
  | keep hjobs =>
    refine h.follows hf fun job hjob => ?_
    obtain ⟨path, rfl⟩ := hjobs job hjob
    exact not_false
  | claimMove hx | move hx => exact .of_early (.inr (.inl rfl)) (hearly hx) (by simp)
  | moved hx =>
    refine .of_early (.inr (.inr rfl)) (h.early ?_) (by simp)
    exact hx.elim (fun hx => .inl hx.1) fun hx => .inr (.inl hx.1)
  | rebase hx hroot hidle =>
    exact .of_early (.inr (.inr hx)) (h.early (.inr (.inr hx))) fun hpending => by
      cases hpending.symm.trans hx
  | rebased hx hdone =>
    obtain ⟨hnone, hfalse⟩ := h.early (.inr (.inr hx))
    refine .of_rebased rfl (fun v hv => ?_) (fun hpassed => ?_) (hreached rfl)
    · cases hv.symm.trans hnone
    · cases hpassed.symm.trans hfalse
  | verify hx hpassed =>
    refine .of_rebased hx (fun v hv => ?_) (fun hpass => ?_) (hf.reached _ (h.reached (.inl hx)))
    · cases hv
      rw [hf.jobs, hid]
      exact verifies_last _ _ _ _
    · cases hpass.symm.trans hpassed
  | passed hx hdone =>
    -- the task in the slot has been found finished
    cases hslot : x.verifyTaskId with
    | none => simp [hslot, Env.statusOf, jobFinished] at hdone
    | some task =>
      cases task with
      | claim => simp [hslot, Env.statusOf, jobFinished] at hdone
      | job v =>
        have hverifies := h.slot hx v hslot
        rw [hslot] at hdone
        have hpassed : s'.Passed x.storageId :=
          ⟨v, hf.observed v hverifies.lt_length hdone,
            hf.jobs ▸ hverifies.append (forall_mem_nil _)⟩
        refine .of_rebased hx (fun w hw => ?_) (fun _ => hpassed)
          (hf.reached _ (h.reached (.inl hx)))
        exact hf.jobs ▸ (h.slot hx w hw).append (forall_mem_nil _)
  | commit hx hpassed =>
    refine ⟨by simp, by simp, by simp, by simp, fun _ hplace => ?_, fun _ => ?_, by simp⟩
    · rcases hpassed with hin | hpassed
      · exact absurd (by simpa [Item.inPlace] using hin) hplace
      · exact (h.gate hx hpassed).follows hf (forall_mem_nil _)
    · exact hf.reached _ (h.reached (.inl hx))
  | release hx hjobs =>
    refine ⟨by simp, by simp, by simp, by simp, by simp, fun _ => ?_, by simp⟩
    exact hf.reached _ (h.reached (.inr (.inl hx)))
  | defer hx => exact .of_early (.inl rfl) (hearly hx) fun _ => rfl
  | repair hx hchild hcore =>
    refine ⟨?_, ?_, ?_, ?_, ?_, ?_, fun _ => hleaf hchild⟩ <;> intro hstate <;> simp_all
  | repaired hx => exact .of_rebased rfl (by simp) (by simp) (hreached rfl)

namespace Next

variable {tree : List (Item I D P)} {jobStatus : Option TaskId → Option JobStatus}
  {x : Item I D P} {action : Action} (h : Next tree jobStatus (some x) action)

include h

theorem mem : x ∈ tree := by
  cases h <;> assumption

theorem blocked_or_open : action = .blocked ∧ x.state = .failed ∨ x.state.terminal = false := by
  cases h with
  | blocked hmem hstate hbefore => exact .inl ⟨rfl, hstate⟩
  | phaseA hmem hstate hphase hbefore =>
    right
    cases hx : x.state <;> simp_all [ItemState.phaseADone, ItemState.terminal]
  | repair hmem hstate | gate hmem hstate | commit hmem hstate | release hmem hstate =>
    exact .inr (by rw [hstate]; rfl)

theorem before : ∀ it ∈ tree, it.topoIndex < x.topoIndex → it.state.phaseADone := by
  cases h with
  | blocked _ _ hbefore | phaseA _ _ _ hbefore => exact hbefore
  | repair _ _ hall | gate _ _ hall | commit _ _ hall | release _ _ hall =>
    exact fun it hit _ => hall it hit

/-- **No disk of a doomed tree is taken further.** -/
theorem not_doomed (hopen : x.state.terminal = false)
    (horder : ∀ a ∈ tree, ∀ b ∈ tree, a.topoIndex = b.topoIndex → a = b) : ¬ Doomed tree := by
  have hmem := h.mem
  rintro (hall | ⟨f, hf, hfailed, hbefore⟩)
  · rw [hall x hmem] at hopen
    cases hopen
  have hphase : ¬ f.state.phaseADone := by rw [hfailed]; exact Bool.false_ne_true
  have hall : ∀ hall : (∀ it ∈ tree, it.state.phaseADone), False := fun hall => hphase (hall f hf)
  cases h with
  | blocked _ hstate =>
    rw [hstate] at hopen
    cases hopen
  | phaseA _ hstate hx hfirst =>
    rcases lt_trichotomy x.topoIndex f.topoIndex with hlt | heq | hlt
    · rcases hbefore x hmem hlt with hdone | hfail
      · rw [hx] at hdone
        cases hdone
      · exact hstate hfail
    · rw [horder x hmem f hf heq] at hstate
      exact hstate hfailed
    · exact hphase (hfirst f hf hlt)
  | repair _ _ hdone | gate _ _ hdone | commit _ _ hdone | release _ _ hdone => exact hall hdone

end Next

variable {c : Call I D P} {x : Item I D P} {jobStatus : Option TaskId → Option JobStatus}

theorem Trans.not_lost {c : Call I D P} (h : Trans c x jobs core) (hopen : x.state.terminal = false)
    : core.state.lost = false := by
  have hx : x.state.lost = false := by
    cases hs : x.state <;> simp_all [ItemState.terminal, ItemState.lost]
  cases h with
  | keep | rebase | verify | passed => exact hx
  | repair _ _ hcore => rw [hcore]; rfl
  | _ => rfl

/-- The tasks that a step of a disk places. -/
def Job.By (c : Call I D P) (x : Item I D P) : Job I P → Prop
  | .move id srcPath dstPath =>
    Movable c x ∧ id = x.storageId ∧ srcPath = x.srcPath ∧ dstPath = x.dstPath
  | .rebase id path backing => x.state = .moved ∧ x.isRoot = false ∧ id = x.storageId
    ∧ path = x.dstPath ∧ backing = x.parentDstPath
  | .verify id dstPath expectBacking =>
    id = x.storageId ∧ dstPath = x.dstPath ∧ expectBacking = x.parentDstPath
  | .removeSource id path =>
    x.state = .dbUpdated ∧ x.inPlace = false ∧ id = x.storageId ∧ path = x.srcPath
  | .removeDestination .. => False
  | .preflight .. | .repair .. => True

theorem Trans.placed {jobs : List (Job I P)} {core : Core} (h : Trans c x jobs core)
    {job : Job I P} (hjob : job ∈ jobs) : job.By c x := by
  cases h with
  | keep hjobs =>
    obtain ⟨_, rfl⟩ := hjobs _ hjob
    trivial
  | move hx =>
    cases mem_singleton.mp hjob
    exact ⟨hx, rfl, rfl, rfl⟩
  | rebase hx hroot =>
    cases mem_singleton.mp hjob
    exact ⟨hx, hroot, rfl, rfl, rfl⟩
  | verify =>
    cases mem_singleton.mp hjob
    exact ⟨rfl, rfl, rfl⟩
  | repair =>
    cases mem_singleton.mp hjob
    trivial
  | release hx hjobs =>
    rcases hjobs with rfl | ⟨hplace, rfl⟩
    · cases hjob
    · cases mem_singleton.mp hjob
      exact ⟨hx, hplace, rfl, rfl⟩
  | _ => cases hjob

theorem decideItemAction_ne_dbUpdate : decideItemAction x jobStatus ≠ .dbUpdate := by
  unfold decideItemAction
  split
  · split_ifs <;> exact Action.noConfusion
  · split_ifs <;> exact Action.noConfusion
  · split_ifs <;> exact Action.noConfusion
  · exact Action.noConfusion

theorem Next.commits {tree : List (Item I D P)} (h : Next tree jobStatus (some x) .dbUpdate)
    {it : Item I D P} (hit : it ∈ tree) (hopen : it.state.terminal = false) :
    it.state = .rebased ∧ (it.inPlace = false → it.verifyPassed) ∨ it.state = .dbUpdated := by
  generalize haction : Action.dbUpdate = action at h
  cases h with
  | blocked => cases haction
  | phaseA => exact absurd haction.symm decideItemAction_ne_dbUpdate
  | repair _ _ _ h =>
    subst haction
    rcases h with h | h | h <;> cases h
  | gate _ _ _ h =>
    subst haction
    rcases h with h | h | ⟨h, -⟩ | ⟨h, -⟩ <;> cases h
  | commit hmem hstate hall hrepair hpassed =>
    have hphase := hall it hit
    cases hs : it.state <;> simp_all [ItemState.phaseADone, ItemState.terminal]
  | release _ _ _ _ => split_ifs at haction

theorem Next.releases {tree : List (Item I D P)} {action : Action}
    (h : Next tree jobStatus (some x) action) (hx : x.state = .dbUpdated) :
    ∀ it ∈ tree, it.state.terminal = false → it.state = .dbUpdated := by
  cases h with
  | release _ _ _ hopen => exact hopen
  | phaseA _ _ hphase =>
    rw [hx] at hphase
    cases hphase
  | blocked _ hstate | repair _ hstate | gate _ hstate | commit _ hstate =>
    cases hx.symm.trans hstate

end Disk

/-! ## The rows of a tree -/

variable [DecidableEq I]

/-- The invariant of an attempt. A disk that is lost stops its tree, except those that were lost
before. -/
structure Inv (plan : List (Planned I P)) (old : Set I) (s : State I D P) : Prop where
  planned : s.items.map (·.toPlanned) = plan
  disk : ∀ it ∈ s.items, CoreInv plan s it.toPlanned it.core
  lost : ∀ t, ∀ it ∈ s.tree t, it.state.lost → it.storageId ∉ old → Doomed (s.tree t)
  kept : s.Behind fun _ => True

namespace State

theorem mem_tree {t : I} {it : Item I D P} : it ∈ s.tree t ↔ it ∈ s.items ∧ it.treeId = t := by
  simp [tree]

theorem tree_map (hitems : s'.items = s.items.map f) (hplan : ∀ it, (f it).toPlanned = it.toPlanned)
    (t : I) : s'.tree t = (s.tree t).map f := by
  have hsame : (fun it : Item I D P => decide ((f it).treeId = t))
      = fun it => decide (it.treeId = t) :=
    funext fun it => by rw [hplan]
  rw [tree, hitems, filter_map]
  exact congrArg (List.map f) (congrArg (List.filter · s.items) hsame)

theorem exists_of_mem_rows (h : s.Behind fun _ => True) {mode : Mode} {t : I} {x row : Item I D P}
    (hx : ∃ it ∈ s.tree t, it.storageId = x.storageId) (hrow : row ∈ s.rows mode t x) :
    ∃ it ∈ s.tree t, it.storageId = row.storageId := by
  unfold rows at hrow
  split at hrow
  · rename_i kept hkept
    obtain ⟨hk, htree⟩ := mem_filter.mp hrow
    have hplan : row.toPlanned ∈ s.items.map (·.toPlanned) :=
      (h kept hkept).1 ▸ mem_map_of_mem hk
    obtain ⟨it, hit, heq⟩ := mem_map.mp hplan
    refine ⟨it, mem_tree.mpr ⟨hit, ?_⟩, by rw [heq]⟩
    rw [heq]
    simpa using htree
  · obtain ⟨it, hit, rfl⟩ := mem_map.mp hrow
    split_ifs with hid
    · exact hx
    · exact ⟨it, hit, rfl⟩

theorem exists_row (h : s.Behind fun _ => True) (mode : Mode) {t : I} {x it : Item I D P}
    (hit : it ∈ s.tree t) (hopen : it.state.terminal = false)
    (hx : it.storageId = x.storageId → x.state.terminal = false) :
    ∃ row ∈ s.rows mode t x, row.storageId = it.storageId ∧ row.state.terminal = false := by
  unfold rows
  split
  · rename_i kept hkept
    obtain ⟨hplan, hold⟩ := h kept hkept
    obtain ⟨hmem, htree⟩ := mem_tree.mp hit
    have hin : it.toPlanned ∈ kept.map (·.toPlanned) := hplan ▸ mem_map_of_mem hmem
    obtain ⟨k, hk, heq⟩ := mem_map.mp hin
    have hid : k.storageId = it.storageId := by rw [heq]
    refine ⟨k, mem_filter.mpr ⟨hk, by rw [heq]; simpa using htree⟩, hid, ?_⟩
    by_contra hterminal
    have := hold k hk it hmem hid trivial (by simpa using hterminal)
    rw [hopen] at this
    cases this
  · by_cases hid : it.storageId = x.storageId
    · exact ⟨x, mem_map.mpr ⟨it, hit, if_pos hid⟩, hid.symm, hx hid⟩
    · exact ⟨it, mem_map.mpr ⟨it, hit, if_neg hid⟩, rfl, hopen⟩

end State

theorem Inv.of_same (h : Inv plan old s) (hitems : s'.items = s.items) (hjobs : s'.jobs = s.jobs)
    (hfinished : s'.finished = s.finished) (hreached : s'.reached = s.reached)
    (hkept : s'.Behind fun _ => True) : Inv plan old s' := by
  have hf : Follows s s' { jobStatus := fun _ => none } [] := by
    refine ⟨?_, ?_, fun _ _ hnone => ?_, ?_⟩
    · rw [hjobs, append_nil]
    · rw [hfinished]
      exact fun _ hv => hv
    · cases hnone
    · rw [hreached]
      exact fun _ hid => hid
  refine ⟨by rw [hitems]; exact h.planned, fun it hit => ?_, fun t it hit => ?_, hkept⟩
  · rw [hitems] at hit
    exact (h.disk it hit).follows hf nofun
  · have htree : s'.tree t = s.tree t := by rw [State.tree, State.tree, hitems]
    rw [htree] at hit ⊢
    exact h.lost t it hit

/-- An attempt begins: the rows that have not ended are pending and clean. -/
structure State.Start (s : State I D P) : Prop where
  laid : Laid (s.items.map (·.toPlanned))
  snapshot : s.snapshot = none
  jobs : s.jobs = []
  finished : s.finished = []
  reached : s.reached = (s.items.filter (·.state = .released)).map (·.storageId)
  fresh : ∀ it ∈ s.items, it.state.terminal = false →
    it.state = .pending ∧ it.moveTaskId = none ∧ it.verifyTaskId = none ∧ it.verifyPassed = false

/-- The disks that are lost. -/
def State.lost (s : State I D P) : Set I := {id | ∃ it ∈ s.items, it.storageId = id ∧ it.state.lost}

/-- A tree with a disk that is lost is over. A re-scan that finds a new disk of such a tree adds it
all the same. -/
def State.Settled (s : State I D P) : Prop :=
  ∀ it ∈ s.items, it.state.lost → ∀ other ∈ s.items, other.treeId = it.treeId → other.state.terminal

theorem State.Start.inv_of (h : s.Start) (hlost : ∀ it ∈ s.items, it.state.lost →
      it.storageId ∉ old → ∀ other ∈ s.items, other.treeId = it.treeId → other.state.terminal) :
    Inv (s.items.map (·.toPlanned)) old s where
  planned := rfl
  disk it hit := by
    cases hterminal : it.state.terminal with
    | false =>
      obtain ⟨hstate, hmove, hgate⟩ := h.fresh it hit hterminal
      exact .of_early (.inl hstate) hgate fun _ => hmove
    | true =>
      have hreached : it.state = .released → it.storageId ∈ s.reached := by
        intro hstate
        rw [h.reached]
        exact mem_map_of_mem (mem_filter.mpr ⟨hit, decide_eq_true hstate⟩)
      constructor <;> intro hstate <;>
        cases hs : it.state <;> simp_all [Progress.core, ItemState.terminal]
  lost t it hit hstate hnew := by
    obtain ⟨hmem, htree⟩ := mem_tree.mp hit
    refine .inl fun other hother => ?_
    obtain ⟨hother, hotree⟩ := mem_tree.mp hother
    exact hlost it hmem hstate hnew other hother (hotree.trans htree.symm)
  kept kept hkept := by
    rw [h.snapshot] at hkept
    cases hkept

/-- Of the disks that were lost before, nothing is known. -/
theorem State.Start.inv (h : s.Start) : Inv (s.items.map (·.toPlanned)) s.lost s :=
  h.inv_of fun it hit hlost hnew => absurd ⟨it, hit, rfl, hlost⟩ hnew

theorem State.Start.inv_settled (h : s.Start) (hsettled : s.Settled) :
    Inv (s.items.map (·.toPlanned)) ∅ s :=
  h.inv_of fun it hit hlost _ => hsettled it hit hlost

variable {plan : List (Planned I P)} {s : State I D P} {it x : Item I D P} {action : Action}
  {damaged : Bool} {effects : List (Effect I D P)}

theorem core_after_waits (h : ∀ e ∈ effects, e.Waits) (item : Item I D P) :
    (after effects item).core = item.core := by
  refine after_keeps (·.core) (fun e he item => ?_) item
  have hwaits := h e he
  cases e with
  | set id change =>
    obtain ⟨attempts, rfl⟩ := hwaits
    simp only [Effect.onItem]
    split_ifs <;> rfl
  | stop => rfl
  | _ => cases hwaits

theorem after_raised (effects : List (Effect I D P)) (x : Item I D P) (n : Nat) :
    after (effects.take n ++ [.set x.storageId fun p => { p with state := .failed }]) x
      = (after (effects.take n) x).update fun p => { p with state := .failed } := by
  have hid : (after (effects.take n) x).storageId = x.storageId := by rw [toPlanned_after]
  rw [after_append, after_cons, after_nil, ← hid, Call.onItem_set_self]

theorem after_of_own (hown : ∀ e ∈ effects, e.Own x action) (hid : it.storageId ≠ x.storageId) :
    after effects it = it := by
  refine after_of_misses fun e he => ?_
  have hin := hown e he
  cases e with
  | set => exact fun heq => hid (heq.symm.trans hin)
  | settle => cases hin
  | _ => trivial

variable (mode : Mode) (t : I) (env : Env I) (domainsOf : I → List D) (h : Inv plan old s)
  (hlaid : Laid plan)

section

include h

/-- A step that leaves the other trees alone is judged by its own tree. -/
theorem Inv.of_tree {t : I} {env : Env I} (hf : Follows s s' env more)
    (hitems : s'.items = s.items.map (after effects)) (hout : ∀ it ∈ s.items, it.treeId ≠ t →
      (after effects it).core = it.core ∧ ∀ job ∈ more, ¬ job.Touches it.storageId)
    (hdisk : ∀ it ∈ s.tree t, CoreInv plan s' it.toPlanned (after effects it).core)
    (hlost : ∀ it ∈ s.tree t, (after effects it).state.lost → it.storageId ∉ old →
      Doomed ((s.tree t).map (after effects))) (hkept : s'.Behind fun _ => True) :
    Inv plan old s' where
  planned := (State.plan_map hitems (toPlanned_after effects)).trans h.planned
  disk := by
    intro it' hit'
    rw [hitems] at hit'
    obtain ⟨it, hit, rfl⟩ := mem_map.mp hit'
    rw [toPlanned_after]
    by_cases htree : it.treeId = t
    · exact hdisk it (State.mem_tree.mpr ⟨hit, htree⟩)
    · obtain ⟨hcore, hmore⟩ := hout it hit htree
      rw [hcore]
      exact (h.disk it hit).follows hf hmore
  lost := by
    intro t' it' hit' hstate hnew
    rw [State.tree_map hitems (toPlanned_after effects)] at hit' ⊢
    obtain ⟨it, hit, rfl⟩ := mem_map.mp hit'
    rw [toPlanned_after] at hnew
    by_cases heq : t' = t
    · subst heq
      exact hlost it hit hstate hnew
    · -- the rows of another tree are as they were
      have hsame : ∀ it ∈ s.tree t', (after effects it).state = it.state := by
        intro it hit
        obtain ⟨hmem, htree⟩ := State.mem_tree.mp hit
        exact congrArg Core.state (hout it hmem fun h => heq (htree.symm.trans h)).1
      rw [hsame it hit] at hstate
      exact (h.lost t' it hit hstate hnew).map (toPlanned_after effects) hsame
  kept := hkept

include hlaid

theorem Inv.nodup :
    ((s.items.map (·.toPlanned)).map (·.storageId)).Nodup := h.planned ▸ hlaid.ids

theorem Inv.eq {a b : Item I D P} (ha : a ∈ s.items) (hb : b ∈ s.items)
    (hid : a.storageId = b.storageId) : a = b :=
  eq_of_storageId (h.nodup hlaid) ha hb hid

theorem Inv.order (t : I) : ∀ a ∈ s.tree t, ∀ b ∈ s.tree t, a.topoIndex = b.topoIndex → a = b := by
  intro a ha b hb hindex
  obtain ⟨ha, hta⟩ := State.mem_tree.mp ha
  obtain ⟨hb, htb⟩ := State.mem_tree.mp hb
  have heq : a.toPlanned = b.toPlanned :=
    hlaid.order _ (h.planned ▸ mem_map_of_mem ha) _ (h.planned ▸ mem_map_of_mem hb)
      (hta.trans htb.symm) hindex
  exact h.eq hlaid ha hb (by rw [heq])

theorem after_of_within {t : I} (hwithin : ∀ e ∈ effects, e.Within ((s.tree t).map (·.storageId)))
    (hit : it ∈ s.items) (htree : it.treeId ≠ t) : after effects it = it := by
  have hne : it.storageId ∉ (s.tree t).map (·.storageId) := by
    intro hmem
    obtain ⟨other, hother, hid⟩ := mem_map.mp hmem
    obtain ⟨hother, hotree⟩ := State.mem_tree.mp hother
    rw [h.eq hlaid hother hit hid] at hotree
    exact htree hotree
  refine after_of_misses fun e he => ?_
  have hin := hwithin e he
  cases e with
  | set | settle => exact fun hid => hne (hid ▸ hin)
  | _ => trivial

end

/-! ## What effects do to the ledger -/

section Effects

variable [DecidableEq D]

namespace State

variable (s : State I D P) (effects : List (Effect I D P))

@[simp] theorem items_perform : (s.perform effects).items = s.items.map (after effects) := by
  induction effects generalizing s with
  | nil => exact (map_id _).symm
  | cons e effects ih =>
    have hitems : (s.apply e).items = s.items.map e.onItem := by
      cases e with
      | set | settle => rfl
      | _ => exact (map_id _).symm
    show ((s.apply e).perform effects).items = _
    rw [ih, hitems, map_map]
    rfl

variable {s effects} in
theorem mem_items_perform {it' : Item I D P} :
    it' ∈ (s.perform effects).items ↔ ∃ it ∈ s.items, after effects it = it' := by
  rw [items_perform, mem_map]

@[simp] theorem jobs_perform : (s.perform effects).jobs = s.jobs ++ placed effects := by
  induction effects generalizing s with
  | nil => exact (append_nil _).symm
  | cons e effects ih =>
    have hjobs : (s.apply e).jobs = s.jobs ++ placed [e] := by
      cases e with
      | place job => rfl
      | _ => exact (append_nil _).symm
    show ((s.apply e).perform effects).jobs = _
    rw [ih, hjobs, append_assoc, ← placed_append]
    rfl

@[simp] theorem observed_perform :
    (s.perform effects).finished = s.finished ∧ (s.perform effects).reached = s.reached := by
  refine foldlRecOn
    (motive := fun now : State I D P => now.finished = s.finished ∧ now.reached = s.reached)
    effects _ ⟨rfl, rfl⟩ fun now hnow e _ => ?_
  cases e <;> exact hnow

theorem snapshot_perform_quiet {effects : List (Effect I D P)} (h : ∀ e ∈ effects, e.Quiet) :
    (s.perform effects).snapshot = s.snapshot := by
  refine foldlRecOn (motive := fun now : State I D P => now.snapshot = s.snapshot) effects _
    rfl fun now hnow e he => ?_
  have hquiet := h e he
  cases e with
  | settle | load => cases hquiet
  | _ => exact hnow

end State

theorem State.follows_close (s : State I D P) (effects : List (Effect I D P)) (mode : Mode)
    (env : Env I) :
    Follows s (s.close (s.perform effects) mode env.jobStatus) env (placed effects) := by
  have hobserved := s.observed_perform effects
  constructor
  · exact s.jobs_perform _
  · intro v hv
    show v ∈ (s.perform effects).finished ++ _
    rw [hobserved.1]
    exact mem_append_left _ hv
  · intro v hv hfinished
    exact mem_append_right _ (mem_filter.mpr ⟨mem_range.mpr hv, hfinished⟩)
  · intro id hid
    show id ∈ (s.perform effects).reached ++ _
    rw [hobserved.2]
    exact mem_append_left _ hid

namespace State

theorem plan_apply (e : Effect I D P) :
    (s.apply e).items.map (·.toPlanned) = s.items.map (·.toPlanned) :=
  plan_map (s.items_perform [e]) (toPlanned_after [e])

theorem Behind.perform {x : I} {effects : List (Effect I D P)} (hfor : ∀ e ∈ effects, e.For x)
    (hids : ((s.items.map (·.toPlanned)).map (·.storageId)).Nodup) (h : s.Behind (· ≠ x)) :
    (s.perform effects).Behind (· ≠ x) := by
  induction effects generalizing s with
  | nil => exact h
  | cons e effects ih =>
    refine ih (fun e' he' => hfor e' (.tail _ he')) (by rwa [plan_apply]) ?_
    have he := hfor e (.head _)
    have hsame : ∀ s' : State I D P, s'.snapshot = s.snapshot → s'.items = s.items →
        s'.Behind (· ≠ x) := fun s' hkept hitems kept heq => by
      rw [hitems]
      exact h kept (hkept ▸ heq)
    cases e with
    | set id change =>
      -- the row that is written is that of the disk
      cases (show id = x from he)
      intro kept hkept
      obtain ⟨hplan, hold⟩ := h kept hkept
      refine ⟨by rw [plan_apply]; exact hplan, fun k hk it' hit' hid hne => ?_⟩
      obtain ⟨it, hit, rfl⟩ := mem_map.mp hit'
      rw [toPlanned_onItem] at hid hne
      rw [show (Effect.set x change).onItem it = it from if_neg hne]
      exact hold k hk it hit hid hne
    | settle id state =>
      intro kept' hkept'
      obtain ⟨kept, hkept, rfl⟩ := Option.map_eq_some_iff.mp hkept'
      obtain ⟨hplan, hold⟩ := h kept hkept
      constructor
      · rw [plan_apply, ← hplan, map_map]
        exact map_congr_left fun k _ => toPlanned_onItem _ k
      · intro k' hk' it' hit' hid hne
        obtain ⟨k, hk, rfl⟩ := mem_map.mp hk'
        obtain ⟨it, hit, rfl⟩ := mem_map.mp hit'
        rw [toPlanned_onItem, toPlanned_onItem] at hid
        rw [toPlanned_onItem] at hne
        by_cases heq : it.storageId = id
        · intro _
          rw [show (Effect.settle id state).onItem it = it.ended state from if_pos heq]
          exact ItemState.terminal_of_givenUp he
        · rw [show (Effect.settle id state).onItem it = it from if_neg heq,
            show (Effect.settle id state).onItem k = k from if_neg (hid ▸ heq)]
          exact hold k hk it hit hid hne
    | load =>
      cases hkept : s.snapshot with
      | none => exact behind_self (s := s.apply .load) rfl (by simp [apply, hkept]) hids _
      | some kept => exact hsame _ (by simp [apply, hkept]) rfl
    | _ => exact hsame _ rfl rfl

theorem Behind.perform_quiet {effects : List (Effect I D P)} (h : s.Behind fun _ => True)
    (hquiet : ∀ e ∈ effects, e.Quiet)
    (hstate : ∀ it ∈ s.items, it.state.terminal → (after effects it).state.terminal) :
    (s.perform effects).Behind fun _ => True := by
  intro kept hkept
  rw [s.snapshot_perform_quiet hquiet] at hkept
  obtain ⟨hplan, hold⟩ := h kept hkept
  refine ⟨?_, fun k hk it' hit' hid _ hterminal => ?_⟩
  · rw [plan_map (s.items_perform effects) (toPlanned_after effects)]
    exact hplan
  · obtain ⟨it, hit, rfl⟩ := mem_items_perform.mp hit'
    rw [toPlanned_after] at hid
    exact hstate it hit (hold k hk it hit hid trivial hterminal)

end State

include h hlaid

theorem Inv.nodup_perform (effects : List (Effect I D P)) :
    (((s.perform effects).items.map (·.toPlanned)).map (·.storageId)).Nodup := by
  rw [State.plan_map (s.items_perform effects) (toPlanned_after effects)]
  exact h.nodup hlaid

theorem Inv.idle (hwaits : ∀ e ∈ effects, e.Waits) (t : I) :
    Inv plan old (s.close (s.perform effects) mode env.jobStatus) := by
  have hf := s.follows_close effects mode env
  have hcore := core_after_waits hwaits
  have hstate : ∀ it, (after effects it).state = it.state := fun it =>
    congrArg Core.state (hcore it)
  have hnone : ∀ (id : I), ∀ job ∈ placed effects, ¬ job.Touches id :=
    fun id job hjob => absurd (hwaits _ (mem_placed.mp hjob)) not_false
  refine h.of_tree (t := t) hf (s.items_perform effects) ?_ ?_ ?_ ?_
  · exact fun it _ _ => ⟨hcore it, hnone _⟩
  · intro it hit
    rw [hcore]
    exact (h.disk it (State.mem_tree.mp hit).1).follows hf (hnone _)
  · intro it hit hlost hnew
    rw [hstate] at hlost
    exact (h.lost t it hit hlost hnew).map (toPlanned_after effects) fun it _ => hstate it
  · refine (h.kept.perform_quiet (fun e he => (hwaits e he).quiet) fun it _ hterminal => ?_).close
      (h.nodup_perform hlaid effects) mode env.jobStatus
    rw [hstate]
    exact hterminal

theorem Inv.skipped (hskips : ∀ e ∈ effects, e.Skips)
    (hwithin : ∀ e ∈ effects, e.Within ((s.tree t).map (·.storageId)))
    (hall : ∀ it ∈ s.tree t, ∃ e ∈ effects, e.Stops it.storageId) :
    Inv plan old (s.close (s.perform effects) mode env.jobStatus) := by
  have hspares : ∀ (id : I), ∀ e ∈ effects, e.Spares id := fun id e he => (hskips e he).spares id
  have hnone : ∀ (id : I), ∀ job ∈ placed effects, ¬ job.Touches id := by
    intro id job hjob
    obtain ⟨_, _, rfl⟩ := hskips _ (mem_placed.mp hjob)
    exact not_false
  have hgiven : ∀ it ∈ s.tree t, (after effects it).state.givenUp := by
    intro it hit
    obtain ⟨e, he, hstops⟩ := hall it hit
    exact givenUp_of_stops (hspares _) he hstops
  refine h.of_tree (t := t) (s.follows_close effects mode env) (s.items_perform effects) ?_ ?_ ?_ ?_
  · intro it hit htree
    rw [after_of_within h hlaid hwithin hit htree]
    exact ⟨rfl, hnone _⟩
  · exact fun it hit => .of_givenUp (hgiven it hit)
  · refine fun it hit _ _ => .inl (forall_mem_map.mpr fun it hit => ?_)
    exact ItemState.terminal_of_givenUp (hgiven it hit)
  · refine (h.kept.perform_quiet (fun e he => (hskips e he).quiet) fun it _ hterminal => ?_).close
      (h.nodup_perform hlaid effects) mode env.jobStatus
    rcases after_of_spares (hspares it.storageId) with heq | hgiven
    · rwa [heq]
    · exact ItemState.terminal_of_givenUp hgiven

/-- A step that gives its disk up in a tree that goes nowhere. -/
theorem Inv.gaveUp (hx : x ∈ s.tree t) (hfor : ∀ e ∈ effects, e.For x.storageId)
    (hwithin : ∀ e ∈ effects, e.Within ((s.tree t).map (·.storageId)))
    (hgiven : (after effects x).state.givenUp) (hdoomed : Doomed ((s.tree t).map (after effects))) :
    Inv plan old (s.close (s.perform effects) mode env.jobStatus) := by
  have hf := s.follows_close effects mode env
  have hmem := (State.mem_tree.mp hx).1
  refine h.of_tree hf (s.items_perform effects) ?_ ?_ (fun _ _ _ _ => hdoomed) ?_
  · intro it hit htree
    rw [after_of_within h hlaid hwithin hit htree]
    refine ⟨rfl, not_touches_of_for hfor fun hid => htree ?_⟩
    rw [← h.eq hlaid hmem hit hid]
    exact (State.mem_tree.mp hx).2
  · intro it hit
    have hit' := (State.mem_tree.mp hit).1
    by_cases hid : x.storageId = it.storageId
    · rw [← h.eq hlaid hmem hit' hid]
      exact .of_givenUp hgiven
    · rcases after_of_spares fun e he => (hfor e he).spares hid with heq | hgiven
      · rw [heq]
        exact (h.disk it hit').follows hf (not_touches_of_for hfor hid)
      · exact .of_givenUp hgiven
  · -- the kept rows of the others stay behind, and the disk itself is ended
    have hkept : (s.perform effects).Behind (· ≠ x.storageId) :=
      State.Behind.perform hfor (h.nodup hlaid) fun kept hkept =>
        ⟨(h.kept kept hkept).1, fun k hk it hit hid _ =>
          (h.kept kept hkept).2 k hk it hit hid trivial⟩
    refine State.Behind.close (fun kept hk => ?_) (h.nodup_perform hlaid effects) mode env.jobStatus
    obtain ⟨hplan, hold⟩ := hkept kept hk
    refine ⟨hplan, fun k hk it' hit' hid _ hterminal => ?_⟩
    by_cases hne : it'.storageId = x.storageId
    · obtain ⟨it, hit, rfl⟩ := State.mem_items_perform.mp hit'
      rw [toPlanned_after] at hne
      rw [h.eq hlaid hit hmem hne]
      exact ItemState.terminal_of_givenUp hgiven
    · exact hold k hk it' hit' hid hne hterminal

end Effects

/-! ## What a step can do -/

variable [DecidableEq P]

inductive Outcome (c : Call I D P) (effects : List (Effect I D P)) : Prop where
  /-- The disks stay where they are. -/
  | idle (hwaits : ∀ e ∈ effects, e.Waits)
  | skipped (hskips : ∀ e ∈ effects, e.Skips)
      (hwithin : ∀ e ∈ effects, e.Within (c.tree.map (·.storageId)))
      (hall : ∀ it ∈ c.tree, ∃ e ∈ effects, e.Stops it.storageId)
  /-- A handler is run on a disk, and may raise. -/
  | handled {x : Item I D P} {action : Action} {done : List (Effect I D P)}
      (hdecide : treeNext c.tree c.env.statusOf = (some x, action))
      (hnext : Next c.tree c.env.statusOf (some x) action)
      (hhandler : c.handler x action = some done) (heffects : effects = c.guarded x done)

namespace Call

variable (c : Call I D P)

theorem skipTree_outcome (domains : List D) {state : ItemState} (hstate : state.givenUp) :
    Outcome c (domains.map .stop ++ c.skipTree state) := by
  obtain ⟨hskips, hwithin, hall⟩ := skips_all c.tree state hstate
  have hstop : ∀ e ∈ domains.map (Effect.stop (I := I) (P := P)),
      e.Skips ∧ e.Within (c.tree.map (·.storageId)) :=
    forall_mem_map.mpr fun _ _ => ⟨trivial, trivial⟩
  refine .skipped (forall_mem_append.mpr ⟨fun e he => (hstop e he).1, hskips⟩)
    (forall_mem_append.mpr ⟨fun e he => (hstop e he).2, hwithin⟩) fun it hit => ?_
  obtain ⟨e, he, hstops⟩ := hall it hit
  exact ⟨e, mem_append_right _ he, hstops⟩

theorem gateTree_outcome {effects : List (Effect I D P)} (h : c.gateTree = some effects) :
    Outcome c effects := by
  unfold gateTree at h
  dsimp only at h
  split at h
  · cases h
  split at h
  · cases h
    exact c.skipTree_outcome [] rfl
  split at h
  · cases h
  split at h
  · cases h
    exact c.skipTree_outcome [] rfl
  -- the domains that run are told to stop, for so many times
  cases h
  split
  · exact c.skipTree_outcome _ rfl
  · exact .idle (forall_mem_append.mpr ⟨forall_mem_map.mpr fun _ _ => trivial,
      forall_mem_map.mpr fun _ _ => ⟨_, rfl⟩⟩)

theorem cancelSkipTree_outcome : Outcome c c.cancelSkipTree := by
  -- one disk: it is put back, its copy discarded and its row skipped
  have hmem : ∀ e ∈ c.cancelSkipTree, ∃ it ∈ c.tree, e ∈ restoreStorageStatus it
      ∨ e = .place (.removeDestination it.storageId it.dstPath)
      ∨ e = .set it.storageId fun p => { p with state := .skipped } := by
    intro e he
    obtain ⟨it, hit, he⟩ := mem_flatMap.mp he
    simp only [append_assoc, mem_append, mem_singleton] at he
    exact ⟨it, hit, he.imp_right (.imp_left c.discardDestination_mem)⟩
  refine .skipped ?_ ?_ ?_
  · intro e he
    obtain ⟨it, -, he | rfl | rfl⟩ := hmem e he
    · rcases restoreStorageStatus_mem he with ⟨d, -, rfl⟩ | ⟨status, -, rfl⟩ <;> trivial
    · exact ⟨_, _, rfl⟩
    · exact ⟨_, rfl, rfl⟩
  · intro e he
    obtain ⟨it, hit, he | rfl | rfl⟩ := hmem e he
    · rcases restoreStorageStatus_mem he with ⟨d, -, rfl⟩ | ⟨status, -, rfl⟩
      · trivial
      · exact mem_map_of_mem hit
    · trivial
    · exact mem_map_of_mem hit
  · intro it hit
    refine ⟨_, mem_flatMap.mpr ⟨it, hit, ?_⟩, .skipped, rfl, .inr rfl⟩
    exact mem_append_right _ (mem_singleton_self _)

/-- **What a step can do.** -/
theorem stepTree_outcome : Outcome c c.stepTree := by
  have hidle : Outcome c [] := .idle nofun
  have hnext := treeNext_next c.tree c.env.statusOf
  unfold stepTree
  split
  · rename_i effects hgate
    exact c.gateTree_outcome hgate
  split
  · exact hidle
  · rename_i item action heq
    rw [heq] at hnext
    split_ifs
    · exact c.cancelSkipTree_outcome
    · cases hhandler : c.handler item action with
      | none => exact hidle
      | some done => exact .handled heq hnext hhandler rfl

end Call

variable {mode t env domainsOf}

theorem Inv.givenUp_of_blocked (hfailed : x.state = .failed) (damaged : Bool) :
    (after ((s.call mode t env domainsOf).terminalizeTreeFailure x damaged) x).state.givenUp := by
  rcases after_of_spares fun e he =>
    ((s.call mode t env domainsOf).terminalizeTreeFailure_abandons e he).spares x.storageId
    with heq | hgiven
  · rw [heq, hfailed]
    rfl
  · exact hgiven

section

include h

variable (mode t env domainsOf) in
theorem Inv.stops_of_open (hit : it ∈ s.tree t) (hopen : it.state.terminal = false)
    (hx : it.storageId = x.storageId → x.state.terminal = false) (damaged : Bool) :
    ∃ e ∈ (s.call mode t env domainsOf).terminalizeTreeFailure x damaged,
      e.Stops it.storageId := by
  obtain ⟨row, hrow, hid, hropen⟩ := State.exists_row h.kept mode hit hopen hx
  obtain ⟨state, hmem⟩ :=
    (s.call mode t env domainsOf).settle_mem_terminalize damaged hrow hropen
  rw [hid] at hmem
  exact ⟨_, hmem, state, Call.terminalizeTreeFailure_abandons _ _ hmem, .inl rfl⟩

theorem Inv.terminal_of_terminalize (hit : it ∈ s.tree t) (hne : x.storageId ≠ it.storageId)
    (hfor : ∀ e ∈ effects, e.For x.storageId)
    (hmem : ∀ e ∈ (s.call mode t env domainsOf).terminalizeTreeFailure x damaged, e ∈ effects) :
    (after effects it).state.terminal := by
  have hspares : ∀ e ∈ effects, e.Spares it.storageId := fun e he => (hfor e he).spares hne
  cases hterminal : it.state.terminal with
  | true =>
    rcases after_of_spares hspares with heq | hgiven
    · rwa [heq]
    · exact ItemState.terminal_of_givenUp hgiven
  | false =>
    obtain ⟨e, he, hstops⟩ := h.stops_of_open mode t env domainsOf hit hterminal
      (fun hid => absurd hid.symm hne) damaged
    exact ItemState.terminal_of_givenUp (givenUp_of_stops hspares (hmem e he) hstops)

/-- A handler writes to disks of its own tree only. -/
theorem Inv.within (hx : x ∈ s.tree t) (action : Action)
    (houtcome : Ends (s.call mode t env domainsOf) x damaged effects
      ∨ Takes (s.call mode t env domainsOf) x action effects) :
    ∀ e ∈ effects, e.Within ((s.tree t).map (·.storageId)) := by
  have hself : x.storageId ∈ (s.tree t).map (·.storageId) := mem_map_of_mem hx
  intro e he
  rcases houtcome with ⟨first, x', hhand, rfl, hfirst⟩ | ⟨hown, -⟩
  · have hid : x'.storageId = x.storageId := by rw [hhand.planned]
    rcases mem_append.mp he with he | he
    · have hprepares := hfirst e he
      cases e with
      | set => exact hprepares.1 ▸ hself
      | _ => cases hprepares
    · rcases Call.terminalize_mem _ he with rfl | he | ⟨-, rfl⟩ | ⟨row, hrow, -, he⟩
      · trivial
      · rcases Call.restoreStorageStatus_mem he with ⟨d, -, rfl⟩ | ⟨status, -, rfl⟩
        · trivial
        · exact hid ▸ hself
      · exact hid ▸ hself
      · -- the row of another disk, as `_items` has it
        obtain ⟨it, hit, heq⟩ := State.exists_of_mem_rows h.kept ⟨x, hx, hid.symm⟩ hrow
        have hin : row.storageId ∈ (s.tree t).map (·.storageId) := mem_map.mpr ⟨it, hit, heq⟩
        cases he with
        | restore he =>
          rcases Call.restoreStorageStatus_mem he with ⟨d, -, rfl⟩ | ⟨status, -, rfl⟩
          · trivial
          · exact hin
        | discard => trivial
        | settle => exact hin
  · exact (hown e he).within hself

theorem Inv.givenUp_of_ends (hx : x ∈ s.tree t) (hopen : x.state.terminal = false)
    (hends : Ends (s.call mode t env domainsOf) x damaged effects) :
    (after effects x).state.givenUp := by
  obtain ⟨first, x', hhand, rfl, hfirst⟩ := hends
  have hsame : (after first x).storageId = x.storageId := by rw [toPlanned_after]
  obtain ⟨e, he, hstops⟩ := h.stops_of_open mode t env domainsOf hx hopen
    (fun _ => hhand.opened hopen) damaged
  rw [← hsame] at hstops
  rw [after_append]
  exact givenUp_of_stops
    (fun e he => (Call.terminalizeTreeFailure_abandons _ e he).spares _) he hstops

include hlaid

theorem Inv.not_lost {t : I} {jobStatus : Option TaskId → Option JobStatus}
    (hnext : Next (s.tree t) jobStatus (some x) action) (hopen : x.state.terminal = false)
    (hit : it ∈ s.tree t) (hnew : it.storageId ∉ old) : ¬ it.state.lost :=
  fun hlost => hnext.not_doomed hopen (h.order hlaid t) (h.lost t it hit hlost hnew)

theorem Inv.terminal_of_ends (hx : x ∈ s.tree t) (hgiven : (after effects x).state.givenUp)
    (hends : Ends (s.call mode t env domainsOf) x damaged effects) :
    ∀ it ∈ s.tree t, (after effects it).state.terminal := by
  intro it hit
  have hfor := Call.Ends.for hends
  by_cases hne : x.storageId = it.storageId
  · rw [← h.eq hlaid (State.mem_tree.mp hx).1 (State.mem_tree.mp hit).1 hne]
    exact ItemState.terminal_of_givenUp hgiven
  · obtain ⟨first, x', hhand, rfl, hfirst⟩ := hends
    have hid : x'.storageId = x.storageId := by rw [hhand.planned]
    exact h.terminal_of_terminalize hit (x := x') (hid ▸ hne) (hid ▸ hfor)
      fun e he => mem_append_right _ he

end

/-! Three effects depend on the whole tree. Each is done by one step of a disk, and the decision
says what holds of the tree then. -/

def Effect.Critical : Effect I D P → Prop
  | .repoint .. | .place (.removeSource ..) | .place (.rebase ..) => True
  | _ => False

variable {c : Call I D P} {jobStatus : Option TaskId → Option JobStatus}

theorem Call.takes_of_critical (hfresh : ∀ x ∈ c.tree, x.state = .pending → x.moveTaskId = none)
    (he : e ∈ c.stepTree) (hcritical : e.Critical) :
    ∃ x action effects, Next c.tree c.env.statusOf (some x) action
      ∧ Takes c x action effects ∧ e ∈ effects := by
  cases c.stepTree_outcome with
  | idle hwaits =>
    have hwait := hwaits e he
    cases e with
    | place | repoint => cases hwait
    | _ => cases hcritical
  | skipped hskips =>
    have hskip := hskips e he
    cases e with
    | place job =>
      obtain ⟨_, _, rfl⟩ := hskip
      cases hcritical
    | repoint => cases hskip
    | _ => cases hcritical
  | @handled x action done hdecide hnext hhandler heffects =>
    have hin : e ∈ done := (mem_of_guarded (heffects ▸ he)).resolve_right fun h => by
      subst h
      cases hcritical
    refine ⟨x, action, done, hnext, ?_, hin⟩
    rcases handler_outcome hnext (hfresh x hnext.mem) hhandler with hends | htakes
    · -- a tree that is given up is neither moved nor removed
      obtain ⟨first, x', -, rfl, hfirst⟩ := hends
      rcases mem_append.mp hin with hin | hin
      · have hprepares := hfirst e hin
        cases e with
        | set => cases hcritical
        | _ => cases hprepares
      · have habandons := c.terminalizeTreeFailure_abandons e hin
        cases e with
        | place job =>
          obtain ⟨_, _, rfl⟩ := habandons
          cases hcritical
        | repoint => cases habandons
        | _ => cases hcritical
    · exact htakes

theorem Inv.parent_reached (h : Inv plan old s) (hlaid : Laid plan) {t : I} {env : Env I}
    {p : Item I D P} {action : Action} (hnext : Next (s.tree t) env.statusOf (some x) action)
    (hopen : x.state.terminal = false) (hp : p ∈ s.tree t)
    (hparent : x.parentStorageId = some p.storageId) (hnew : p.storageId ∉ old) :
    p.storageId ∈ s.reached := by
  obtain ⟨hxmem, hxtree⟩ := State.mem_tree.mp hnext.mem
  obtain ⟨hpmem, hptree⟩ := State.mem_tree.mp hp
  have hxplan : x.toPlanned ∈ plan := h.planned ▸ mem_map_of_mem hxmem
  have hpplan : p.toPlanned ∈ plan := h.planned ▸ mem_map_of_mem hpmem
  have hlt := hlaid.parents _ hxplan _ hpplan (hxtree.trans hptree.symm) hparent
  have hphase := hnext.before p hp hlt
  have hinv := h.disk p hpmem
  cases hs : p.state with
  | rebased => exact hinv.reached (.inl hs)
  | dbUpdated => exact hinv.reached (.inr (.inl hs))
  | released => exact hinv.reached (.inr (.inr hs))
  | repairing => exact absurd hparent (hinv.leaf hs _ hxplan (hxtree.trans hptree.symm))
  | skipped | quarantined => exact absurd (by rw [hs]; rfl) (h.not_lost hlaid hnext hopen hp hnew)
  | pending | moving | moved | failed =>
    rw [hs] at hphase
    cases hphase

/-! ## One step -/

variable [DecidableEq D]

section

include h hlaid

/-- A disk does what was decided for it. -/
theorem Inv.takes {domainsOf : I → List D} (hnext : Next (s.tree t) env.statusOf (some x) action)
    (hopen : x.state.terminal = false)
    (htakes : Takes (s.call mode t env domainsOf) x action effects) :
    Inv plan old (s.close (s.perform effects) mode env.jobStatus) := by
  obtain ⟨hown, htrans⟩ := htakes
  have hf := s.follows_close effects mode env
  obtain ⟨hmem, htree⟩ := State.mem_tree.mp hnext.mem
  have hother : ∀ it : Item I D P, x.storageId ≠ it.storageId → after effects it = it :=
    fun it hne => after_of_own hown hne.symm
  have hfor : ∀ e ∈ effects, e.For x.storageId := fun e he => (hown e he).for
  refine h.of_tree (t := t) hf (s.items_perform effects) ?_ ?_ ?_ ?_
  · intro it hit hne
    have hid : x.storageId ≠ it.storageId := fun hid => hne
      (h.eq hlaid hmem hit hid ▸ htree)
    rw [hother it hid]
    exact ⟨rfl, not_touches_of_for hfor hid⟩
  · intro it hit
    have hit' := (State.mem_tree.mp hit).1
    by_cases hid : x.storageId = it.storageId
    · cases h.eq hlaid hmem hit' hid
      refine (h.disk x hmem).trans htrans hf rfl ?_ ?_
      · -- the plan has no other disks of the tree than the ledger
        intro hchild child hin hsame
        rw [← h.planned] at hin
        obtain ⟨it, hit, rfl⟩ := mem_map.mp hin
        exact hchild it (State.mem_tree.mpr ⟨hit, hsame.trans htree⟩)
      · intro hstate
        refine mem_append_right _ (mem_map.mpr ⟨after effects x, ?_, ?_⟩)
        · refine mem_filter.mpr ⟨?_, decide_eq_true hstate⟩
          rw [s.items_perform]
          exact mem_map_of_mem hmem
        · rw [toPlanned_after]
    · rw [hother it hid]
      exact (h.disk it hit').follows hf (not_touches_of_for hfor hid)
  · intro it hit hlost hnew
    have hit' := (State.mem_tree.mp hit).1
    by_cases hid : x.storageId = it.storageId
    · cases h.eq hlaid hmem hit' hid
      rw [show (after effects x).state.lost = false from htrans.not_lost hopen] at hlost
      cases hlost
    · rw [hother it hid] at hlost
      exact absurd hlost (h.not_lost hlaid hnext hopen hit hnew)
  · refine (h.kept.perform_quiet (fun e he => (hown e he).quiet) fun it hit hterminal => ?_).close
      (h.nodup_perform hlaid effects) mode env.jobStatus
    have hne : x.storageId ≠ it.storageId := by
      intro hid
      rw [← h.eq hlaid hmem hit hid, hopen] at hterminal
      cases hterminal
    rw [hother it hne]
    exact hterminal

theorem Inv.ends (hx : x ∈ s.tree t) (hgiven : (after effects x).state.givenUp)
    (hends : Ends (s.call mode t env domainsOf) x damaged effects) :
    Inv plan old (s.close (s.perform effects) mode env.jobStatus) := by
  have hover := h.terminal_of_ends hlaid hx hgiven hends
  exact h.gaveUp mode t env hlaid hx (Call.Ends.for hends)
    (h.within hx .fail (.inl hends)) hgiven
    (.inl (forall_mem_map.mpr hover))

theorem Inv.raised (hnext : Next (s.tree t) env.statusOf (some x) action)
    (hfor : ∀ e ∈ effects, e.For x.storageId)
    (hwithin : ∀ e ∈ effects, e.Within ((s.tree t).map (·.storageId))) (n : Nat) :
    Inv plan old (s.close (s.perform (effects.take n ++
      [.set x.storageId fun p => { p with state := .failed }])) mode env.jobStatus) := by
  have hx := hnext.mem
  have hfor' : ∀ e ∈ effects.take n ++ [.set x.storageId fun p => { p with state := .failed }],
      e.For x.storageId := forall_mem_append.mpr
    ⟨fun e he => hfor e (mem_of_mem_take he), forall_mem_singleton.mpr rfl⟩
  have hfailed := congrArg (·.state) (after_raised effects x n)
  refine h.gaveUp mode t env hlaid hx hfor' ?_ (by rw [hfailed]; rfl) (.inr ?_)
  · exact forall_mem_append.mpr ⟨fun e he => hwithin e (mem_of_mem_take he),
      forall_mem_singleton.mpr (mem_map_of_mem hx)⟩
  · refine ⟨_, mem_map_of_mem hx, hfailed, forall_mem_map.mpr fun it hit hlt => ?_⟩
    rw [toPlanned_after, toPlanned_after] at hlt
    have hne : x.storageId ≠ it.storageId := by
      intro hid
      rw [h.eq hlaid (State.mem_tree.mp hx).1 (State.mem_tree.mp hit).1 hid]
        at hlt
      exact lt_irrefl _ hlt
    rcases after_of_spares fun e he => (hfor' e he).spares hne with heq | hgiven
    · rw [heq]
      exact .inl (hnext.before it hit hlt)
    · generalize (after _ it).state = state at hgiven ⊢
      cases state <;> first | exact .inl rfl | exact .inr rfl | cases hgiven

/-- **A step keeps the invariant.** -/
theorem Inv.step : Inv plan old (s.step mode t env domainsOf) := by
  unfold State.step
  generalize hstep : (s.call mode t env domainsOf).stepTree = effects
  have houtcome := (s.call mode t env domainsOf).stepTree_outcome
  rw [hstep] at houtcome
  cases houtcome with
  | idle hwaits => exact h.idle mode env hlaid hwaits t
  | skipped hskips hwithin hall => exact h.skipped mode t env hlaid hskips hwithin hall
  | @handled x action done hdecide hnext hhandler heffects =>
    have hx : x ∈ s.tree t := hnext.mem
    have hresult := Call.handler_outcome hnext (h.disk x (State.mem_tree.mp hx).1).fresh hhandler
    rw [heffects, Call.guarded]
    split
    · rcases hnext.blocked_or_open with ⟨rfl, hfailed⟩ | hopen
      · cases hhandler
        exact h.ends hlaid hx
          (givenUp_of_blocked hfailed _) (Call.ends_terminalize (.refl x))
      · rcases hresult with hends | htakes
        · exact h.ends hlaid hx
            (h.givenUp_of_ends hx hopen hends) hends
        · exact h.takes hlaid hnext hopen htakes
    · exact h.raised hlaid hnext (Call.handler_for hresult)
        (h.within hx action hresult) _

end

/-! ## Whole runs -/

/-- Whatever happens keeps the invariant, also outside of a step. -/
theorem Inv.next (h : Inv plan old s) (hlaid : Laid plan) {e : Event I D P}
    (hnext : machine.next s e = some s') : Inv plan old s' := by
  cases e with
  | step mode t env domainsOf =>
    cases hnext
    exact h.step hlaid
  | skip t =>
    simp only [machine] at hnext
    split_ifs at hnext
    cases hnext
    obtain ⟨hskips, hwithin, hall⟩ := skips_all (s.tree t) .skipped rfl
    exact h.skipped .tick t { jobStatus := fun _ => none } hlaid hskips hwithin hall
  | load =>
    cases hnext
    refine h.of_same rfl rfl rfl rfl ?_
    cases hkept : s.snapshot with
    | none =>
      exact State.behind_self (s := { s with snapshot := some s.items }) rfl rfl (h.nodup hlaid) _
    | some kept =>
      intro kept' heq
      cases heq
      exact h.kept kept hkept
  | forget =>
    cases hnext
    exact h.of_same rfl rfl rfl rfl fun kept hkept => by cases hkept
  | outside status path domains =>
    cases hnext
    exact h.of_same rfl rfl rfl rfl h.kept

theorem State.Start.inv_run (h : s.Start) {events : List (Event I D P)}
    (hrun : machine.run s events = some s') : Inv (s.items.map (·.toPlanned)) s.lost s' :=
  machine.run_preserves (Inv (s.items.map (·.toPlanned)) s.lost)
    (fun _ _ _ hinv hnext => hinv.next h.laid hnext) h.inv hrun

/-- **Verify all, commit all, release all.** After any run of an attempt, and whatever the next
step of a tree finds: a row is repointed only if every disk of the tree that is neither in place nor
ended has passed its gate since it was last touched, a source is removed only if every disk that is
not ended is committed, and a disk is rebased only after its parent in the tree, unless the parent
was lost before the attempt. -/
theorem verify_commit_release {events : List (Event I D P)} (hstart : s.Start)
    (hrun : machine.run s events = some s') (mode : Mode) (t : I) (env : Env I)
    (domainsOf : I → List D) :
    let effects := (s'.call mode t env domainsOf).stepTree
    (∀ id path, .repoint id path ∈ effects →
      (∃ x ∈ s'.tree t, x.storageId = id ∧ x.dstPath = path)
        ∧ ∀ it ∈ s'.tree t, it.inPlace = false → it.state.terminal = false →
          s'.Passed it.storageId)
    ∧ (∀ id path, .place (.removeSource id path) ∈ effects →
      (∃ x ∈ s'.tree t, x.storageId = id ∧ x.srcPath = path)
        ∧ ∀ it ∈ s'.tree t, it.state.terminal = false → it.state = .dbUpdated)
    ∧ ∀ id path backing, .place (.rebase id path backing) ∈ effects →
      ∃ x ∈ s'.tree t, x.storageId = id
        ∧ ∀ p ∈ s'.tree t, x.parentStorageId = some p.storageId → p.storageId ∉ s.lost →
          p.storageId ∈ s'.reached := by
  have hinv := hstart.inv_run hrun
  have hfresh : ∀ x ∈ s'.tree t, x.state = .pending → x.moveTaskId = none :=
    fun x hx => (hinv.disk x (State.mem_tree.mp hx).1).fresh
  refine ⟨fun id path he => ?_, fun id path he => ?_, fun id path backing he => ?_⟩
  · obtain ⟨x, action, effects, hnext, htakes, hin⟩ := Call.takes_of_critical hfresh he trivial
    obtain ⟨rfl, rfl, rfl⟩ := htakes.1 _ hin
    refine ⟨⟨x, hnext.mem, rfl, rfl⟩, fun it hit hplace hopen => ?_⟩
    have hdisk := hinv.disk it (State.mem_tree.mp hit).1
    rcases hnext.commits hit hopen with ⟨hstate, hpassed⟩ | hstate
    · exact hdisk.gate hstate (hpassed hplace)
    · exact hdisk.committed hstate (by simpa [Item.inPlace] using hplace)
  · obtain ⟨x, action, effects, hnext, htakes, hin⟩ := Call.takes_of_critical hfresh he trivial
    obtain ⟨hstate, -, rfl, rfl⟩ := htakes.2.placed (mem_placed.mpr hin)
    exact ⟨⟨x, hnext.mem, rfl, rfl⟩, hnext.releases hstate⟩
  · obtain ⟨x, action, effects, hnext, htakes, hin⟩ := Call.takes_of_critical hfresh he trivial
    obtain ⟨hstate, -, rfl, -⟩ := htakes.2.placed (mem_placed.mpr hin)
    have hopen : x.state.terminal = false := by
      rw [hstate]
      rfl
    exact ⟨x, hnext.mem, rfl, fun p hp hparent =>
      hinv.parent_reached hstart.laid hnext hopen hp hparent⟩

/-- **A lost disk stops its tree.** After any run of an attempt, no step takes a tree further that
has lost a disk in it, whatever the jobs report. -/
theorem treeNext_of_lost {events : List (Event I D P)} (hstart : s.Start)
    (hrun : machine.run s events = some s') {t : I} {it : Item I D P} (hit : it ∈ s'.tree t)
    (hlost : it.state.lost) (hnew : it.storageId ∉ s.lost)
    (jobStatus : Option TaskId → Option JobStatus) :
    (treeNext (s'.tree t) jobStatus).2 = .done ∨ (treeNext (s'.tree t) jobStatus).2 = .blocked := by
  have hinv := hstart.inv_run hrun
  have hnext := treeNext_next (s'.tree t) jobStatus
  generalize treeNext (s'.tree t) jobStatus = next at hnext ⊢
  obtain ⟨_ | x, action⟩ := next
  · cases hnext
    exact .inl rfl
  · rcases hnext.blocked_or_open with ⟨hblocked, -⟩ | hopen
    · exact .inr hblocked
    · exact absurd hlost (hinv.not_lost hstart.laid hnext hopen hit hnew)

end Machine

/-! ## A tree of two disks -/

/-- A root and a disk derived from it, which move from the paths `0` and `1` to `10` and `11`. -/
def twoDisks : State Nat Unit Nat where
  items := [
    { storageId := 0, treeId := 0, topoIndex := 0, parentStorageId := none, srcPath := 0,
      dstPath := 10, parentDstPath := none },
    { storageId := 1, treeId := 0, topoIndex := 1, parentStorageId := some 0, srcPath := 1,
      dstPath := 11, parentDstPath := some 10 }]
  status _ := some .ready
  path id := id
  domains _ := .stopped

theorem twoDisks_start : twoDisks.Start where
  laid := by
    refine ⟨by decide, ?_, ?_⟩ <;> decide
  snapshot := rfl
  jobs := rfl
  finished := rfl
  reached := rfl
  fresh := by decide

theorem twoDisks_lost_nil (id : Nat) : id ∉ twoDisks.lost := by
  rintro ⟨it, hit, -, hlost⟩
  have hnone : ∀ it ∈ twoDisks.items, it.state.lost = false := by decide
  rw [hnone it hit] at hlost
  cases hlost

def allFinished : Env Nat where
  jobStatus _ := some .finished

def driveOn : Event Nat Unit Nat := .step .drive 0 allFinished fun _ => []

/-- After seven steps the child is rebased, after thirteen the first row is repointed, and after
fifteen the first source removed. -/
theorem twoDisks_verify_commit_release :
    ∃ s₁ s₂ s₃ : State Nat Unit Nat,
      machine.run twoDisks (.replicate 7 driveOn) = some s₁
        ∧ machine.run twoDisks (.replicate 13 driveOn) = some s₂
        ∧ machine.run twoDisks (.replicate 15 driveOn) = some s₃
        ∧ (∃ x ∈ s₁.tree 0, x.storageId = 1
          ∧ ∀ p ∈ s₁.tree 0, x.parentStorageId = some p.storageId → p.storageId ∈ s₁.reached)
        ∧ s₂.Passed 1
        ∧ ∀ it ∈ s₃.tree 0, it.state.terminal = false → it.state = .dbUpdated := by
  obtain ⟨s₁, h₁, hrebase⟩ : ∃ s₁, machine.run twoDisks (.replicate 7 driveOn) = some s₁
      ∧ .rebase 1 11 (some 10) ∈ placed (s₁.call .drive 0 allFinished fun _ => []).stepTree :=
    ⟨_, rfl, by decide⟩
  obtain ⟨s₂, h₂, hrepoint, it, hit, hid, hplace, hopen⟩ :
      ∃ s₂, machine.run twoDisks (.replicate 13 driveOn) = some s₂
        ∧ .repoint 0 10 ∈ (s₂.call .drive 0 allFinished fun _ => []).stepTree
        ∧ ∃ it ∈ s₂.tree 0, it.storageId = 1 ∧ it.inPlace = false ∧ it.state.terminal = false :=
    ⟨_, rfl, .head _, by decide⟩
  obtain ⟨s₃, h₃, hremove⟩ : ∃ s₃, machine.run twoDisks (.replicate 15 driveOn) = some s₃
      ∧ .removeSource 0 0 ∈ placed (s₃.call .drive 0 allFinished fun _ => []).stepTree :=
    ⟨_, rfl, by decide⟩
  refine ⟨s₁, s₂, s₃, h₁, h₂, h₃, ?_, ?_, ?_⟩
  · obtain ⟨x, hx, hid, hparent⟩ := (verify_commit_release twoDisks_start h₁ .drive 0 allFinished
      _).2.2 _ _ _ (mem_placed.mp hrebase)
    exact ⟨x, hx, hid, fun p hp hp' => hparent p hp hp' (twoDisks_lost_nil _)⟩
  · rw [← hid]
    exact ((verify_commit_release twoDisks_start h₂ .drive 0 allFinished _).1 _ _ hrepoint).2
      it hit hplace hopen
  · exact ((verify_commit_release twoDisks_start h₃ .drive 0 allFinished _).2.1 _ _
      (mem_placed.mp hremove)).2

/-- The root had been skipped when a re-scan found the child. -/
def skippedRoot : State Nat Unit Nat :=
  { twoDisks with
    items := twoDisks.items.map fun it =>
      if it.storageId = 0 then { it with state := .skipped } else it }

/-- The child is copied, and then rebased onto a file the root has never been copied to. -/
theorem skippedRoot_rebases : skippedRoot.Start ∧ ∃ s,
    machine.run skippedRoot (.replicate 3 driveOn) = some s
      ∧ s.items.map (·.state) = [.skipped, .moved]
      ∧ .rebase 1 11 (some 10) ∈ placed (s.call .drive 0 allFinished fun _ => []).stepTree
      ∧ s.jobs = [.preflight 1 11, .move 1 1 11] ∧ 0 ∉ s.reached := by
  refine ⟨⟨⟨by decide, ?_, ?_⟩, rfl, rfl, rfl, rfl, by decide⟩, _, rfl, ?_, ?_, rfl, ?_⟩
  all_goals decide

def driveFailed : Event Nat Unit Nat :=
  .step .drive 0 { jobStatus := fun _ => some .failed } fun _ => []

/-- The move of the root fails. -/
theorem twoDisks_lost :
    ∃ s, machine.run twoDisks [driveOn, driveOn, driveFailed] = some s
      ∧ ((treeNext (s.tree 0) fun _ => none).2 = .done
        ∨ (treeNext (s.tree 0) fun _ => none).2 = .blocked) := by
  have hrun : machine.run twoDisks [driveOn, driveOn, driveFailed] = some _ := rfl
  exact ⟨_, hrun, treeNext_of_lost twoDisks_start hrun (.head _) rfl (twoDisks_lost_nil _) _⟩

end IsardVDI.Migration.Saga
