import IsardVDI.Lib.Machine
import Mathlib

/-!
# `lib/storage/migration_run.py` — `advance`, `request_drive` and the wake set

A task result names the trees it may have moved on. `advance` writes them into the wake set of
the migration and tries to take the lease; if another caller has it, the call returns at once and
relies on the holder. `request_drive` writes them too, and leaves a request in a list which the
scheduler serves by an `advance` of its own.

Any number of callers run at the granularity of Redis commands. A pipeline is one command: it is
sent as a transaction. The lease does not expire, the loops have no cap, nothing raises. A pass
over the trees is one step, which says which members of the wake set it was started for.

* `Inv` — a lease has a holder, an unserved member is in the set or in a holder's hand, and
  somebody will look again.
-/

namespace IsardVDI.Migration.Wakes

/-! ## Members and events -/

/-- A member of the wake set: `_ALL_TREES`, or a tree. -/
inductive Wake (T : Type) where
  | allTrees
  | tree (id : T)
  deriving DecidableEq

def members {T : Type} : List T → List (Wake T)
  | [] => [.allTrees]
  | id :: ids => (id :: ids).map .tree

inductive Event (T : Type) where
  | sadd (wakes : List (Wake T))
  | request (wakes : List (Wake T))
  /-- A pass starts, for the members its drain has taken. -/
  | drive (hand : List (Wake T))
  /-- `EXISTS` at the end of a call of `advance`. -/
  | existsWake
  /-- A call of `advance` answers `gone` or `not_drivable`. -/
  | refused
  deriving DecidableEq

namespace Event

variable {T : Type}

def isSaddOrExists : Event T → Bool
  | .sadd _ | .existsWake => true
  | .request _ | .drive _ | .refused => false

end Event

section Unserved

variable {T : Type}

/-- In a history, newest event first: the member was written, and no pass that was started for it
came after. -/
def Unserved (w : Wake T) : List (Event T) → Prop
  | [] => False
  | .sadd wakes :: history => w ∈ wakes ∨ Unserved w history
  | .request wakes :: history => w ∈ wakes ∨ Unserved w history
  | .drive hand :: history => w ∉ hand ∧ Unserved w history
  | .existsWake :: history | .refused :: history => Unserved w history

/-- What came after the last `SADD` and the last `EXISTS` of a call of `advance`. -/
def sinceLastCheck (history : List (Event T)) : List (Event T) :=
  history.takeWhile fun event => !event.isSaddOrExists

instance decidableUnserved [DecidableEq T] (w : Wake T) :
    ∀ history, Decidable (Unserved w history)
  | [] => isFalse id
  | .sadd wakes :: history =>
    have := decidableUnserved w history
    inferInstanceAs (Decidable (w ∈ wakes ∨ Unserved w history))
  | .request wakes :: history =>
    have := decidableUnserved w history
    inferInstanceAs (Decidable (w ∈ wakes ∨ Unserved w history))
  | .drive hand :: history =>
    have := decidableUnserved w history
    inferInstanceAs (Decidable (w ∉ hand ∧ Unserved w history))
  | .existsWake :: history | .refused :: history => decidableUnserved w history

end Unserved

/-! ## The callers -/

/-- Where a call of `advance` stands. `planned` of `_drain` is `False` at the top of every turn:
it is set between a full pass and the take that follows it. -/
inductive Phase (T : Type) where
  /-- Not called yet. -/
  | idle
  /-- The status allows a drive; `SADD` comes next. -/
  | checked (treeIds : List T)
  /-- About to try the lease. -/
  | acquiring
  /-- The top of the loop of `_drain`, with the lease. -/
  | loop
  /-- A full pass comes next; the members it stands for are taken. -/
  | ticking (hand : List (Wake T))
  /-- `_take_wakes` of the per-tree drive comes next. -/
  | taking
  | driving (hand : List (Wake T))
  | releasing
  /-- The lease is released; `EXISTS` comes next. -/
  | checking
  | returned
  deriving DecidableEq

namespace Phase

variable {T : Type}

def holds : Phase T → Bool
  | .loop | .ticking _ | .taking | .driving _ | .releasing => true
  | .idle | .checked _ | .acquiring | .checking | .returned => false

/-- The call will look at the wake set again, or somebody else has the lease when it does not. -/
def attends : Phase T → Bool
  | .acquiring | .loop | .ticking _ | .taking | .driving _ | .releasing | .checking => true
  | .idle | .checked _ | .returned => false

def hand : Phase T → List (Wake T)
  | .ticking hand | .driving hand => hand
  | .idle | .checked _ | .acquiring | .loop | .taking | .releasing | .checking | .returned => []

variable {phase : Phase T}

/-- The call is past the check of the status and has not returned. -/
def running (phase : Phase T) : Prop := phase ≠ .idle ∧ phase ≠ .returned

theorem running_of_attends (h : phase.attends = true) : phase.running := by
  constructor <;> rintro rfl <;> cases h

theorem attends_of_holds (h : phase.holds = true) : phase.attends = true := by
  cases phase <;> first | rfl | cases h

theorem attends_of_mem_hand {w : Wake T} (h : w ∈ phase.hand) : phase.attends = true := by
  cases phase <;> first | rfl | cases h

end Phase

inductive Driver (A : Type) where
  /-- In `BLPOP`. -/
  | waiting
  /-- One request is popped; the rest of the list is taken next. -/
  | popped
  /-- In the call of `advance`. -/
  | serving (caller : A)
  deriving DecidableEq

structure State (A T : Type) where
  wake : List (Wake T)
  lease : Option A
  phase : A → Phase T
  requests : Nat
  driver : Driver A
  history : List (Event T)

def State.init {A T : Type} : State A T := ⟨[], none, fun _ => .idle, 0, .waiting, []⟩

inductive Action (A T : Type) where
  | begin (c : A) (treeIds : List T)
  | refuse (c : A)
  | sadd (c : A)
  | acquire (c : A)
  /-- `needs_full_pass` is true: `_take_wakes`, then `tick`. -/
  | fullPass (c : A)
  | tick (c : A) (progress : Bool)
  | noFullPass (c : A)
  | takeWakes (c : A)
  | driveTrees (c : A)
  | release (c : A)
  | existsWake (c : A)
  | requestDrive (treeIds : List T)
  | pop
  | takeRequests (c : A)
  | served

section Machine

variable {A T : Type}

section Code

variable [DecidableEq A] [DecidableEq T] (s : State A T)

def State.setPhase (c : A) (phase : Phase T) : State A T :=
  { s with phase := Function.update s.phase c phase }

/-- `SADD`. -/
def State.add (wakes : List (Wake T)) : State A T :=
  { s with wake := wakes ∪ s.wake }

def State.log (event : Event T) : State A T :=
  { s with history := event :: s.history }

def next : Action A T → Option (State A T)
  | .begin c treeIds =>
    match s.phase c with
    | .idle => some (s.setPhase c (.checked treeIds))
    | _ => none
  | .refuse c =>
    match s.phase c with
    | .idle => some ((s.log .refused).setPhase c .returned)
    | _ => none
  | .sadd c =>
    match s.phase c with
    | .checked treeIds =>
      some (((s.add (members treeIds)).log (.sadd (members treeIds))).setPhase c .acquiring)
    | _ => none
  | .acquire c =>
    match s.phase c with
    | .acquiring =>
      match s.lease with
      | none => some ({ s with lease := some c }.setPhase c .loop)
      | some _ => some (s.setPhase c .returned)
    | _ => none
  | .fullPass c =>
    match s.phase c with
    | .loop => some ({ s with wake := [] }.setPhase c (.ticking s.wake))
    | _ => none
  | .tick c progress =>
    match s.phase c with
    | .ticking hand =>
      some ((s.log (.drive hand)).setPhase c (if progress then .loop else .taking))
    | _ => none
  | .noFullPass c =>
    match s.phase c with
    | .loop => some (s.setPhase c .taking)
    | _ => none
  | .takeWakes c =>
    match s.phase c with
    | .taking =>
      match s.wake with
      | [] => some (s.setPhase c .releasing)
      | wakes => some ({ s with wake := [] }.setPhase c (.driving wakes))
    | _ => none
  | .driveTrees c =>
    match s.phase c with
    | .driving hand => some ((s.log (.drive hand)).setPhase c .loop)
    | _ => none
  | .release c =>
    match s.phase c with
    | .releasing => some ({ s with lease := none }.setPhase c .checking)
    | _ => none
  | .existsWake c =>
    match s.phase c with
    | .checking =>
      some ((s.log .existsWake).setPhase c (if s.wake = [] then .returned else .acquiring))
    | _ => none
  | .requestDrive treeIds =>
    some { (s.add (members treeIds)).log (.request (members treeIds)) with
      requests := s.requests + 1 }
  | .pop =>
    match s.driver with
    | .waiting => if s.requests = 0 then none
        else some { s with requests := s.requests - 1, driver := .popped }
    | _ => none
  | .takeRequests c =>
    match s.driver, s.phase c with
    | .popped, .idle => some { s with requests := 0, driver := .serving c }
    | _, _ => none
  | .served =>
    match s.driver with
    | .serving c =>
      match s.phase c with
      | .returned => some { s with driver := .waiting }
      | _ => none
    | _ => none

def machine : Machine (State A T) (Action A T) := ⟨next⟩

end Code

variable (s : State A T)

/-- Every call of `advance` that was made has returned. -/
def State.Quiet : Prop := ∀ c, s.phase c = .idle ∨ s.phase c = .returned

/-! ## What a step keeps

`Owed` lists who still answers for what is unserved: a call of `advance` that wrote or is about
to, or a request that the driver has not turned into a call. -/

/-- Somebody will look at the wake set, or a call was refused since the last look. -/
def State.Owed : Prop :=
  (∃ c, (s.phase c).running) ∨ 0 < s.requests ∨ s.driver = .popped
    ∨ (∃ c, s.driver = .serving c ∧ s.phase c = .idle) ∨ .refused ∈ sinceLastCheck s.history

structure Inv (s : State A T) : Prop where
  lease : ∀ c, s.lease = some c ↔ (s.phase c).holds = true
  kept : ∀ w, Unserved w s.history → w ∈ s.wake ∨ ∃ c, w ∈ (s.phase c).hand
  attended : ∀ w, Unserved w s.history →
    Unserved w (sinceLastCheck s.history) ∨ ∃ c, (s.phase c).attends = true
  owed : ∀ w, Unserved w s.history → s.Owed

theorem Inv.init : Inv (State.init : State A T) where
  lease := by simp [State.init, Phase.holds]
  kept := fun _ h => h.elim
  attended := fun _ h => h.elim
  owed := fun _ h => h.elim

variable {c : A} {phase : Phase T} {s : State A T} {f : A → Phase T}

/-- Where a call will look again for whatever is unserved, that is all that is owed. -/
theorem Inv.of_attends (hlease : ∀ c, s.lease = some c ↔ (s.phase c).holds = true)
    (hkept : ∀ w, Unserved w s.history → w ∈ s.wake ∨ ∃ c, w ∈ (s.phase c).hand)
    (hattends : ∀ w, Unserved w s.history → ∃ c, (s.phase c).attends = true) : Inv s :=
  ⟨hlease, hkept, fun w hw => .inr (hattends w hw), fun w hw =>
    .inl ((hattends w hw).imp fun _ => Phase.running_of_attends)⟩

theorem Inv.request [DecidableEq T] (h : Inv s) (treeIds : List T) :
    Inv { (s.add (members treeIds)).log (.request (members treeIds)) with
      requests := s.requests + 1 } where
  lease := h.lease
  kept := by
    intro w hw
    rcases hw with hnew | hold
    · exact .inl (List.mem_union_iff.mpr (.inl hnew))
    · exact (h.kept w hold).imp_left fun hwake => List.mem_union_iff.mpr (.inr hwake)
  attended := by
    intro w hw
    rcases hw with hnew | hold
    · exact .inl (.inl hnew)
    · exact (h.attended w hold).imp_left .inr
  owed := fun _ _ => .inr (.inl (Nat.succ_pos _))

variable [DecidableEq A]

theorem exists_update (p : Phase T → Prop) (h : ∃ c, p (f c)) (hc : p (f c) → p phase) :
    ∃ c', p (Function.update f c phase c') := by
  obtain ⟨c', hp⟩ := h
  by_cases heq : c' = c
  · exact ⟨c, by simpa using hc (heq ▸ hp)⟩
  · exact ⟨c', by simpa [heq] using hp⟩

theorem hand_update {w : Wake T} (h : ∃ c, w ∈ (f c).hand) (hc : (f c).hand = []) :
    ∃ c', w ∈ (Function.update f c phase c').hand := by
  refine exists_update (w ∈ ·.hand) h fun hmem => ?_
  rw [hc] at hmem
  cases hmem

theorem lease_setPhase (h : ∀ c, s.lease = some c ↔ (s.phase c).holds = true)
    (hc : phase.holds = (s.phase c).holds) (c' : A) :
    (s.setPhase c phase).lease = some c' ↔ ((s.setPhase c phase).phase c').holds = true := by
  by_cases heq : c' = c
  · subst heq
    simpa [State.setPhase, hc] using h c'
  · simpa [State.setPhase, heq] using h c'

theorem attends_setPhase (h : phase.attends = true) :
    ∃ c', ((s.setPhase c phase).phase c').attends = true :=
  ⟨c, by simpa [State.setPhase] using h⟩

section

variable (h : Inv s)

include h

/-- Whoever moves on with an empty hand drops no member. -/
theorem Inv.kept_update (hempty : (s.phase c).hand = []) (phase : Phase T) (w : Wake T)
    (hw : Unserved w s.history) :
    w ∈ s.wake ∨ ∃ c', w ∈ (Function.update s.phase c phase c').hand :=
  (h.kept w hw).imp_right fun hmem => hand_update hmem hempty

theorem Inv.begin (hc : s.phase c = .idle) (treeIds : List T) :
    Inv (s.setPhase c (.checked treeIds)) where
  lease := lease_setPhase h.lease (congrArg Phase.holds hc).symm
  kept := h.kept_update (congrArg Phase.hand hc) _
  attended := fun w hw => (h.attended w hw).imp_right fun hat =>
    exists_update (·.attends = true) hat fun hin => by
      cases (congrArg Phase.attends hc).symm.trans hin
  owed := fun _ _ => .inl ⟨c, by simp [State.setPhase, Phase.running]⟩

theorem Inv.move {before : Phase T} (hc : s.phase c = before) (hholds : phase.holds = before.holds)
    (hempty : before.hand = []) (hattends : phase.attends = true) : Inv (s.setPhase c phase) := by
  subst hc
  exact .of_attends (lease_setPhase h.lease hholds)
    (h.kept_update hempty phase) fun _ _ => attends_setPhase hattends

theorem Inv.acquire (hc : s.phase c = .acquiring) (hfree : s.lease = none) :
    Inv ({ s with lease := some c }.setPhase c .loop) := by
  refine .of_attends (fun c' => ?_) (h.kept_update (congrArg Phase.hand hc) _)
    fun _ _ => attends_setPhase rfl
  by_cases heq : c' = c
  · subst heq
    simp [State.setPhase, Phase.holds]
  · -- nobody else had it
    have hlease := h.lease c'
    simpa [State.setPhase, heq, Ne.symm heq, hfree] using hlease

theorem Inv.busy {holder : A} (hc : s.phase c = .acquiring) (hlease : s.lease = some holder) :
    Inv (s.setPhase c .returned) := by
  have hholds : (s.phase holder).holds = true := (h.lease holder).mp hlease
  have hne : holder ≠ c := by
    rintro rfl
    rw [hc] at hholds
    cases hholds
  refine .of_attends (lease_setPhase h.lease (congrArg Phase.holds hc).symm)
    (h.kept_update (congrArg Phase.hand hc) _) fun _ _ => ⟨holder, ?_⟩
  simpa [State.setPhase, hne] using Phase.attends_of_holds hholds

theorem Inv.take (hholds : phase.holds = (s.phase c).holds) (hempty : (s.phase c).hand = [])
    (hhand : phase.hand = s.wake) (hattends : phase.attends = true) :
    Inv ({ s with wake := [] }.setPhase c phase) := by
  refine .of_attends (lease_setPhase (s := { s with wake := [] }) h.lease hholds)
    (fun w hw => .inr ?_) fun _ _ => attends_setPhase hattends
  rcases h.kept w hw with hwake | hhand'
  · exact ⟨c, by simpa [State.setPhase, hhand] using hwake⟩
  · exact hand_update hhand' hempty

theorem Inv.drive {hand : List (Wake T)} (hhand : (s.phase c).hand = hand)
    (hholds : phase.holds = (s.phase c).holds) (hattends : phase.attends = true) :
    Inv ((s.log (.drive hand)).setPhase c phase) := by
  refine .of_attends (lease_setPhase (s := s.log _) h.lease hholds) (fun w hw => ?_)
    fun _ _ => attends_setPhase hattends
  refine (h.kept w hw.2).imp_right fun hmem => exists_update (w ∈ ·.hand) hmem fun hin => ?_
  exact absurd (hhand ▸ hin) hw.1

theorem Inv.release (hc : s.phase c = .releasing) :
    Inv ({ s with lease := none }.setPhase c .checking) := by
  refine .of_attends (fun c' => ?_) (h.kept_update (congrArg Phase.hand hc) _)
    fun _ _ => attends_setPhase rfl
  by_cases heq : c' = c
  · subst heq
    simp [State.setPhase, Phase.holds]
  · -- the holder is the only one
    have hlease : s.lease = some c := (h.lease c).mpr (by rw [hc]; rfl)
    have hnot : ¬ (s.phase c').holds = true := fun hholds =>
      heq (Option.some.inj (hlease.symm.trans ((h.lease c').mpr hholds))).symm
    simpa [State.setPhase, heq] using hnot

/-- `EXISTS`: a member that is in nobody's hand is found. -/
theorem Inv.check (hc : s.phase c = .checking) :
    Inv ((s.log .existsWake).setPhase c (if s.wake = [] then .returned else .acquiring)) := by
  have hkept := h.kept_update (congrArg Phase.hand hc)
    (if s.wake = [] then .returned else .acquiring)
  refine .of_attends (lease_setPhase (s := s.log _) h.lease ?_) hkept fun w hw => ?_
  · rw [show (s.log _).phase c = .checking from hc]
    split <;> rfl
  · rcases hkept w hw with hmem | ⟨c', hmem⟩
    · exact attends_setPhase (by rw [if_neg (List.ne_nil_of_mem hmem)]; rfl)
    · exact ⟨c', Phase.attends_of_mem_hand hmem⟩

theorem Inv.refuse (hc : s.phase c = .idle) : Inv ((s.log .refused).setPhase c .returned) where
  lease := lease_setPhase (s := s.log .refused) h.lease (congrArg Phase.holds hc).symm
  kept := h.kept_update (congrArg Phase.hand hc) _
  attended := by
    intro w hw
    refine (h.attended w hw).imp_right fun hat => exists_update (·.attends = true) hat fun hin => ?_
    cases (congrArg Phase.attends hc).symm.trans hin
  owed := fun _ _ => .inr (.inr (.inr (.inr (.head _))))

variable [DecidableEq T]

theorem Inv.sadd {treeIds : List T} (hc : s.phase c = .checked treeIds) :
    Inv (((s.add (members treeIds)).log (.sadd (members treeIds))).setPhase c .acquiring) := by
  refine .of_attends (lease_setPhase (s := (s.add _).log _) h.lease (congrArg Phase.holds hc).symm)
    (fun w hw => ?_) fun _ _ => attends_setPhase rfl
  rcases hw with hnew | hold
  · exact .inl (List.mem_union_iff.mpr (.inl hnew))
  · rcases h.kept w hold with hwake | hhand
    · exact .inl (List.mem_union_iff.mpr (.inr hwake))
    · exact .inr (hand_update hhand (congrArg Phase.hand hc))

theorem Inv.next {s' : State A T} {a : Action A T} (hnext : machine.next s a = some s') :
    Inv s' := by
  simp only [machine, Wakes.next] at hnext
  cases a with
  | begin c treeIds =>
    cases hc : s.phase c <;> simp only [hc] at hnext <;> cases hnext
    exact h.begin hc treeIds
  | refuse c =>
    cases hc : s.phase c <;> simp only [hc] at hnext <;> cases hnext
    exact h.refuse hc
  | sadd c =>
    cases hc : s.phase c <;> simp only [hc] at hnext <;> cases hnext
    exact h.sadd hc
  | acquire c =>
    cases hc : s.phase c <;> simp only [hc] at hnext <;> try cases hnext
    cases hlease : s.lease <;> simp only [hlease] at hnext <;> cases hnext
    · exact h.acquire hc hlease
    · exact h.busy hc hlease
  | fullPass c =>
    cases hc : s.phase c <;> simp only [hc] at hnext <;> cases hnext
    refine h.take ?_ ?_ rfl rfl <;> rw [hc] <;> rfl
  | tick c progress =>
    cases hc : s.phase c <;> simp only [hc] at hnext <;> cases hnext
    cases progress <;> refine h.drive ?_ ?_ rfl <;> rw [hc] <;> rfl
  | noFullPass c =>
    cases hc : s.phase c <;> simp only [hc] at hnext <;> cases hnext
    exact h.move hc rfl rfl rfl
  | takeWakes c =>
    cases hc : s.phase c <;> simp only [hc] at hnext <;> try cases hnext
    cases hwake : s.wake with
    | nil =>
      simp only [hwake] at hnext
      cases hnext
      exact h.move hc rfl rfl rfl
    | cons w wakes =>
      simp only [hwake] at hnext
      cases hnext
      refine h.take ?_ ?_ hwake.symm rfl <;> rw [hc] <;> rfl
  | driveTrees c =>
    cases hc : s.phase c <;> simp only [hc] at hnext <;> cases hnext
    refine h.drive ?_ ?_ rfl <;> rw [hc] <;> rfl
  | release c =>
    cases hc : s.phase c <;> simp only [hc] at hnext <;> cases hnext
    exact h.release hc
  | existsWake c =>
    cases hc : s.phase c <;> simp only [hc] at hnext <;> cases hnext
    exact h.check hc
  | requestDrive treeIds =>
    cases hnext
    exact h.request treeIds
  | pop =>
    cases hd : s.driver <;> simp only [hd] at hnext <;> try cases hnext
    split at hnext <;> cases hnext
    exact ⟨h.lease, h.kept, h.attended, fun _ _ => .inr (.inr (.inl rfl))⟩
  | takeRequests c =>
    cases hd : s.driver <;> cases hc : s.phase c <;> simp only [hd, hc] at hnext <;> cases hnext
    exact ⟨h.lease, h.kept, h.attended, fun _ _ => .inr (.inr (.inr (.inl ⟨c, rfl, hc⟩)))⟩
  | served =>
    cases hd : s.driver <;> simp only [hd] at hnext <;> try cases hnext
    rename_i c
    cases hc : s.phase c <;> simp only [hc] at hnext <;> cases hnext
    refine ⟨h.lease, h.kept, h.attended, fun w hw => ?_⟩
    -- the call the driver served has returned, so it was not the one that was owed
    rcases h.owed w hw with hrun | hreq | hpop | ⟨c', hserving, hidle⟩ | hrefused
    · exact .inl hrun
    · exact .inr (.inl hreq)
    · rw [hd] at hpop
      cases hpop
    · rw [hd] at hserving
      cases hserving
      rw [hc] at hidle
      cases hidle
    · exact .inr (.inr (.inr (.inr hrefused)))

end

variable [DecidableEq T]

theorem Inv.run {as : List (Action A T)} (hrun : machine.run State.init as = some s) : Inv s :=
  machine.run_preserves Inv (fun _ _ _ h hnext => h.next hnext) Inv.init hrun

/-! ## No wake of `advance` is lost -/

/-- **When all calls of `advance` have returned**, what is unserved was written by `request_drive`
after the last `SADD` and the last `EXISTS` of a call of `advance`. The request it left is still
queued or in the hands of the driver, or a call was refused since. -/
theorem unserved_since_last_check {s : State A T} {as : List (Action A T)}
    (hrun : machine.run State.init as = some s) (hquiet : s.Quiet) {w : Wake T}
    (hw : Unserved w s.history) :
    Unserved w (sinceLastCheck s.history)
      ∧ (0 < s.requests ∨ s.driver = .popped ∨ (∃ c, s.driver = .serving c ∧ s.phase c = .idle)
        ∨ .refused ∈ sinceLastCheck s.history) := by
  have hinv := Inv.run hrun
  refine ⟨(hinv.attended w hw).resolve_right ?_, (hinv.owed w hw).resolve_left ?_⟩
  · rintro ⟨c, hattends⟩
    rcases hquiet c with hc | hc <;> rw [hc] at hattends <;> cases hattends
  · rintro ⟨c, hidle, hreturned⟩
    exact (hquiet c).elim hidle hreturned

end Machine

/-! ## A request behind the last call

The call of `advance` for tree 1 drains, releases and finds the wake set empty. Then tree 2 is
requested, and waits for the driver. -/

def lateRequest : List (Action Unit Nat) :=
  [.begin () [1], .sadd (), .acquire (), .fullPass (), .tick () false, .takeWakes (), .release (),
    .existsWake (), .requestDrive [2]]

theorem lateRequest_unserved :
    ∃ s : State Unit Nat, machine.run State.init lateRequest = some s ∧ s.Quiet
      ∧ Unserved (.tree 2) s.history := by
  refine ⟨_, rfl, fun _ => .inr rfl, ?_⟩
  decide

/-- The call of tree 2 finds the lease taken and returns. The holder drives the tree before it
lets go. Then `EXISTS` finds the request of tree 4. -/
def busyCaller : List (Action Bool Nat) :=
  [.begin true [1], .sadd true, .acquire true, .noFullPass true, .takeWakes true,
    .begin false [2], .sadd false, .acquire false, .driveTrees true, .noFullPass true,
    .takeWakes true, .driveTrees true, .noFullPass true, .takeWakes true, .requestDrive [4],
    .release true, .existsWake true, .acquire true, .fullPass true, .tick true false,
    .takeWakes true, .release true, .existsWake true, .requestDrive [3]]

theorem busyCaller_served :
    ∃ s : State Bool Nat, machine.run State.init busyCaller = some s
      ∧ ¬ Unserved (.tree 2) s.history ∧ ¬ Unserved (.tree 4) s.history
      ∧ Unserved (.tree 3) (sinceLastCheck s.history) := by
  have hrun : machine.run State.init busyCaller = some _ := rfl
  exact ⟨_, hrun, by decide, by decide, (unserved_since_last_check hrun
    (fun c => .inr (by cases c <;> rfl)) (by decide)).1⟩

end IsardVDI.Migration.Wakes
