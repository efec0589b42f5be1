import IsardVDI.Engine.VgpuDevice

/-!
# A vGPU held by one desktop

The pool of `VgpuPool`, seen from each device: an operation of a run whose calls do not cross is a
step of the device's protocol.

* **`view_next`** — each operation of such a run is a step of the protocol, for every device.
-/

namespace IsardVDI.Engine.Vgpu

open List Function

variable {n : Nat} {D U : Type}

/-! ## The pool, seen from a device -/

variable {rest : List (Binding U)} {event : Event n D U} {card : List U}

theorem mem_pinned [DecidableEq D] {cards : List (List U)} {pool : U → Marks D} {dom : D}
    {uuid : U} : uuid ∈ (pinned cards pool dom).flatten
    ↔ uuid ∈ cards.flatten ∧ (pool uuid).Of dom := by
  simp only [pinned, mem_flatten, mem_filter, mem_map]
  constructor
  · rintro ⟨_, ⟨⟨card, hcard, rfl⟩, -⟩, hmem⟩
    obtain ⟨hmem, hmark⟩ := mem_filter.mp hmem
    exact ⟨⟨card, hcard, hmem⟩, of_decide_eq_true hmark⟩
  · rintro ⟨⟨card, hcard, hmem⟩, hmark⟩
    have hin : uuid ∈ card.filter fun uuid => decide ((pool uuid).Of dom) :=
      mem_filter.mpr ⟨hmem, decide_eq_true hmark⟩
    exact ⟨_, ⟨⟨card, hcard, rfl⟩, decide_eq_true (ne_nil_of_mem hin)⟩, hin⟩

section Pool

variable [DecidableEq U]

def Task.role (uuid : U) : Task D U → Role D
  | .idle => .away
  | .reserve dom uuid' .bind => if uuid' = uuid then .binding dom else .away
  | .reserve _ _ _ => .away
  | .start dom uuid' point => if uuid' = uuid then .starting dom (point = .mark) else .away
  | .release dom rest => if uuid ∈ rest.map (·.uuid) then .releasing dom .pending else .away
  | .stop dom uuid' _ rest =>
    if uuid' = uuid then .releasing dom .stopping
    else if uuid ∈ rest.map (·.uuid) then .releasing dom .pending else .away
  | .sweep dom cards => if uuid ∈ cards.flatten then .releasing dom .sweeping else .away

def State.view (s : State n D U) (uuid : U) : View n D where
  marks := s.pool uuid
  held := s.held uuid
  bound dom := uuid ∈ (s.info dom).map (·.uuid)
  roles t := (s.tasks t).role uuid

namespace State

variable (s : State n D U) {uuid uuid' : U} {t : Fin n} {task : Task D U} {dom : D}

theorem view_setTask :
    (s.setTask t task).view uuid = (s.view uuid).setRole t (task.role uuid) := by
  ext t' <;> try rfl
  show (update s.tasks t task t').role uuid
    = update (s.view uuid).roles t (task.role uuid) t'
  rw [update_apply, update_apply]
  split_ifs <;> rfl

theorem view_write (change : Marks D → Marks D) :
    (s.write uuid change).view uuid = { s.view uuid with marks := change (s.pool uuid) } := by
  simp [view, write]

theorem view_write_of_ne (h : uuid ≠ uuid') (change : Marks D → Marks D) :
    (s.write uuid' change).view uuid = s.view uuid := by
  simp [view, write, h]

theorem view_take :
    (s.take dom uuid).view uuid
      = { s.view uuid with marks := ⟨some dom, none⟩, held := dom :: s.held uuid } := by
  simp [view, take, write]

theorem view_take_of_ne (h : uuid ≠ uuid') : (s.take dom uuid').view uuid = s.view uuid := by
  simp [view, take, write, h]

theorem view_free :
    (s.free card).view uuid
      = { s.view uuid with marks := if uuid ∈ card then ⟨none, none⟩ else s.pool uuid } := rfl

end State

theorem roles_view {s : State n D U} {t : Fin n} {task : Task D U} {uuid : U}
    (h : s.tasks t = task) : (s.view uuid).roles t = task.role uuid :=
  congrArg (Task.role uuid) h

theorem owned_empty (uuid : U) : ((empty : State n D U).view uuid).Owned where
  sole d d' hd := by simp [View.Involves, State.view, empty, Task.role] at hd
  marks d d' hd := by simp [View.Involves, State.view, empty, Task.role] at hd
  single d d' hd := by simp [Marks.Of, State.view, empty] at hd
  live := nofun
  starting := nofun
  binding := nofun
  bound := nofun
  past := nofun

/-! ## Calls that do not cross -/

/-- A start, a stop or a release that has the device still to do. -/
def Role.Concerns : Role D → Prop
  | .starting _ _ | .releasing _ _ => True
  | _ => False

instance : ∀ role : Role D, Decidable role.Concerns
  | .away => isFalse nofun
  | .binding _ => isFalse nofun
  | .starting _ _ => isTrue trivial
  | .releasing _ _ => isTrue trivial

def Task.StartOf (dom : D) (uuid : U) : Task D U → Prop
  | .start dom' uuid' _ => dom' = dom ∧ uuid' = uuid
  | _ => False

theorem startOf_of_role {task : Task D U} {dom : D} {uuid : U} {cleared : Bool}
    (h : task.role uuid = .starting dom cleared) : task.StartOf dom uuid := by
  unfold Task.role at h
  split at h
  case h_4 dom' uuid' point =>
    split_ifs at h with hsame
    cases h
    exact ⟨rfl, hsame⟩
  all_goals first | cases h | (split_ifs at h)

variable (cards : List (List U))

/-- The next operation of a thread does not cross another call: a device is free for a swap only
while no start, stop or release has it to do; a stop begins while the desktop has no start of the
device on; and a sweep reads the pool while no reservation of its desktop is on. -/
def Task.Careful (s : State n D U) : Task D U → Prop
  | .reserve _ uuid .swap => (s.pool uuid).Free → ∀ t', ¬((s.tasks t').role uuid).Concerns
  | .release dom (b :: _) => ∀ t', ¬(s.tasks t').StartOf dom b.uuid
  | .release dom [] => ∀ uuid ∈ cards.flatten, (s.pool uuid).Of dom → dom ∉ s.held uuid
  | _ => True

/-- **Calls that do not cross.** Also, a start begins while the reservation of its desktop is
on. -/
def Event.Careful (s : State n D U) : Event n D U → Prop
  | .start _ dom uuid => dom ∈ s.held uuid
  | .step t _ => (s.tasks t).Careful cards s
  | _ => True

/-- A reservation that succeeds finds no other desktop holding the device; a stop, and the sweep
after it, clear marks of their desktop only. -/
def Task.Safe (s : State n D U) : Task D U → Prop
  | .reserve dom uuid .swap => (s.pool uuid).Free → ∀ other ∈ s.held uuid, other = dom
  | .stop dom uuid .unreserve _ => ∀ other ∈ (s.pool uuid).reserved, other = dom
  | .stop dom uuid .unmark _ => ∀ other ∈ (s.pool uuid).started, other = dom
  | .sweep dom (card :: _) => ∀ uuid ∈ card, ∀ other, (s.pool uuid).Of other → other = dom
  | _ => True

def Event.Safe (s : State n D U) : Event n D U → Prop
  | .step t _ => (s.tasks t).Safe s
  | _ => True

theorem safe_of_owned {s : State n D U} (h : ∀ uuid, (s.view uuid).Owned)
    (hcareful : event.Careful cards s) : event.Safe s := by
  cases event with
  | step t found =>
    have hcareful : (s.tasks t).Careful cards s := hcareful
    show (s.tasks t).Safe s
    -- a desktop that is past holding the device finds its own marks only
    have hown {dom : D} {uuid : U} {phase : Phase}
        (hrole : (s.view uuid).roles t = .releasing dom phase) {other : D}
        (hmark : (s.pool uuid).Of other) : other = dom :=
      (h uuid).marks dom other (.inr ⟨t, phase, hrole⟩) hmark
    cases htask : s.tasks t with
    | reserve dom uuid point =>
      cases point with
      | swap =>
        rw [htask] at hcareful
        intro hfree other hother
        refine absurd hother ((h uuid).not_held hfree (fun t' d cleared ht' => ?_) other)
        exact hcareful hfree t' (by rw [show (s.tasks t').role uuid = _ from ht']; trivial)
      | _ => trivial
    | stop dom uuid point rest =>
      have hrole : (s.view uuid).roles t = .releasing dom .stopping := by
        simp [roles_view htask, Task.role]
      cases point with
      | unreserve => exact fun other hother => hown hrole (.inr hother)
      | unmark => exact fun other hother => hown hrole (.inl hother)
      | _ => trivial
    | sweep dom rest =>
      cases rest with
      | nil => trivial
      | cons card rest =>
        intro uuid hmem other hmark
        have hrole : (s.view uuid).roles t = .releasing dom .sweeping := by
          simp [roles_view htask, Task.role, hmem]
        exact hown hrole hmark
    | _ => trivial
  | _ => trivial

variable [DecidableEq D]

instance (dom : D) (uuid : U) : ∀ task : Task D U, Decidable (task.StartOf dom uuid)
  | .start _ _ _ => inferInstanceAs (Decidable (_ ∧ _))
  | .idle | .reserve _ _ _ | .release _ _ | .stop _ _ _ _ | .sweep _ _ => isFalse nofun

instance (s : State n D U) : ∀ task : Task D U, Decidable (task.Careful cards s)
  | .reserve _ _ .swap => inferInstanceAs (Decidable (_ → ∀ _, ¬_))
  | .release _ (_ :: _) => inferInstanceAs (Decidable (∀ _, ¬_))
  | .release _ [] => inferInstanceAs (Decidable (∀ _ ∈ cards.flatten, _ → _))
  | .idle | .reserve _ _ .status | .reserve _ _ .bind | .start _ _ _ | .stop _ _ _ _ | .sweep _ _ =>
    isTrue trivial

instance (s : State n D U) : ∀ event : Event n D U, Decidable (event.Careful cards s)
  | .start _ _ _ => inferInstanceAs (Decidable (_ ∈ _))
  | .step _ _ => inferInstanceAs (Decidable (Task.Careful _ _ _))
  | .reserve _ _ _ | .release _ _ => isTrue trivial

namespace State

variable (s : State n D U) {uuid uuid' : U} {dom : D}

theorem view_beginStop :
    (s.beginStop dom uuid).view uuid
      = { s.view uuid with held := (s.held uuid).filter (· ≠ dom) } := by
  simp [view, beginStop]

theorem view_beginStop_of_ne (h : uuid ≠ uuid') :
    (s.beginStop dom uuid').view uuid = s.view uuid := by
  simp [view, beginStop, h]

theorem view_rebind {change : List (Binding U) → List (Binding U)} {bound : D → Prop}
    (hself : uuid ∈ (change (s.info dom)).map (·.uuid) ↔ bound dom)
    (hother : ∀ d, d ≠ dom → (uuid ∈ (s.info d).map (·.uuid) ↔ bound d)) :
    (s.rebind dom change).view uuid = { s.view uuid with bound := bound } := by
  ext d <;> try rfl
  show uuid ∈ (update s.info dom (change (s.info dom)) d).map (·.uuid) ↔ bound d
  by_cases heq : d = dom
  · subst heq
    rw [update_self]
    exact hself
  · rw [update_of_ne heq]
    exact hother d heq

end State

/-! ## The pool follows the protocol -/

section Simulation

open View Relation

variable {cards} {s s' : State n D U} {t : Fin n} {task : Task D U} {dom : D} {uuid uuid' : U}

/-- The device goes from the one state to the other by steps of its protocol, or none. -/
def Follows (uuid : U) (s s' : State n D U) : Prop :=
  ReflTransGen Step (s.view uuid) (s'.view uuid)

theorem follows_setTask : Follows uuid s (s'.setTask t task)
    ↔ ReflTransGen Step (s.view uuid) ((s'.view uuid).setRole t (task.role uuid)) := by
  rw [Follows, State.view_setTask]

theorem follows_same {view : View n D} (hview : s'.view uuid = view)
    (hrole : view.roles t = task.role uuid) :
    Follows uuid s (s'.setTask t task) ↔ ReflTransGen Step (s.view uuid) view := by
  rw [follows_setTask, hview, setRole_self hrole]

theorem view_goOn {next : Task D U} (hview : s'.view uuid = s.view uuid) (htask : s.tasks t = task)
    (hrole : task.role uuid = next.role uuid) : Follows uuid s (s'.setTask t next) :=
  (follows_same hview ((roles_view htask).trans hrole)).mpr .refl

theorem view_reserve (htask : s.tasks t = .reserve dom uuid' .swap)
    (hcareful : ∀ t', ¬((s.tasks t').role uuid').Concerns) (hfree : (s.pool uuid').Free) :
    Follows uuid s ((s.take dom uuid').setTask t (.reserve dom uuid' .bind)) := by
  by_cases heq : uuid = uuid'
  · subst heq
    rw [follows_setTask, State.view_take, Task.role, if_pos rfl]
    refine .single (.reserve t dom hfree (fun t' d cleared ht' => ?_) fun t' d phase ht' => ?_)
    · exact hcareful t' (by rw [show (s.tasks t').role uuid = _ from ht']; trivial)
    · exact hcareful t' (by rw [show (s.tasks t').role uuid = _ from ht']; trivial)
  · exact view_goOn (s.view_take_of_ne heq) htask (by simp [Task.role, Ne.symm heq])

theorem view_bind (htask : s.tasks t = .reserve dom uuid' .bind) :
    Follows uuid s ((s.rebind dom (appendBinding uuid')).setTask t .idle) := by
  by_cases heq : uuid = uuid'
  · subst heq
    have hview : (s.rebind dom (appendBinding uuid)).view uuid
        = { s.view uuid with bound := fun d => d = dom ∨ (s.view uuid).bound d } := by
      refine s.view_rebind ?_ fun d hd => ?_
      · simp [mem_appendBinding]
      · simp [hd, State.view]
    rw [follows_setTask, hview]
    exact .single (.bind t dom (by simp [roles_view htask, Task.role]))
  · have hview : (s.rebind dom (appendBinding uuid')).view uuid = s.view uuid :=
      s.view_rebind (mem_appendBinding.trans (or_iff_right heq)) fun _ _ => Iff.rfl
    exact view_goOn hview htask (by simp [Task.role, Ne.symm heq])

theorem view_begin (htask : s.tasks t = .idle) (hheld : dom ∈ s.held uuid') :
    Follows uuid s (s.setTask t (.start dom uuid' .status)) := by
  by_cases heq : uuid = uuid'
  · subst heq
    rw [follows_setTask, Task.role, if_pos rfl]
    exact .single (.begin t dom (roles_view htask) hheld)
  · exact view_goOn rfl htask (by simp [Task.role, Ne.symm heq])

theorem view_start_done {point : StartPoint} (htask : s.tasks t = .start dom uuid' point)
    (hpoint : point ≠ .mark) (hview : s'.view uuid = s.view uuid) :
    Follows uuid s (s'.setTask t .idle) := by
  rw [follows_setTask, hview]
  refine .single (.leave t ?_)
  rw [roles_view htask, Task.role]
  split_ifs
  · simp [MayLeave, hpoint]
  · trivial

theorem view_start_write {point next : StartPoint} {change : Marks D → Marks D}
    (htask : s.tasks t = .start dom uuid' point)
    (hstep : (s.view uuid').roles t = .starting dom (point = .mark) → Step (s.view uuid')
      { (s.view uuid').setRole t (.starting dom (next = .mark)) with
        marks := change (s.pool uuid') }) :
    Follows uuid s ((s.write uuid' change).setTask t (.start dom uuid' next)) := by
  by_cases heq : uuid = uuid'
  · subst heq
    rw [follows_setTask, State.view_write, Task.role, if_pos rfl]
    exact .single (hstep (by simp [roles_view htask, Task.role]))
  · exact view_goOn (s.view_write_of_ne heq _) htask (by simp [Task.role, Ne.symm heq])

theorem view_snapshot (htask : s.tasks t = .idle) :
    Follows uuid s (s.setTask t (.release dom (bindingsToStop (s.info dom)))) := by
  rw [follows_setTask, Task.role]
  split_ifs with hmem
  · obtain ⟨b, hb, heq⟩ := mem_map.mp hmem
    have hbound : uuid ∈ (s.info dom).map (·.uuid) :=
      mem_map.mpr ⟨b, (mem_filter.mp hb).1, heq⟩
    exact .single (.snapshot t dom (roles_view htask) hbound)
  · exact .single (.leave t (by rw [roles_view htask]; trivial))

theorem view_beginStop {b : Binding U} (point : StopPoint)
    (htask : s.tasks t = .release dom (b :: rest))
    (hcareful : ∀ t', ¬(s.tasks t').StartOf dom b.uuid) :
    Follows uuid s ((s.beginStop dom b.uuid).setTask t (.stop dom b.uuid point rest)) := by
  by_cases heq : uuid = b.uuid
  · subst heq
    rw [follows_setTask, State.view_beginStop, Task.role, if_pos rfl]
    refine .single (.stop t dom (by simp [roles_view htask, Task.role]) fun t' cleared ht' => ?_)
    exact hcareful t' (startOf_of_role ht')
  · exact view_goOn (s.view_beginStop_of_ne heq) htask (by simp [Task.role, heq, Ne.symm heq])

variable {point : StopPoint}

theorem view_stop_write {point' : StopPoint} (htask : s.tasks t = .stop dom uuid' point rest)
    {change : Marks D → Marks D} (hchange : ∀ marks d, (change marks).Of d → marks.Of d) :
    Follows uuid s ((s.write uuid' change).setTask t (.stop dom uuid' point' rest)) := by
  by_cases heq : uuid = uuid'
  · subst heq
    rw [follows_same (s.view_write change) (by simp [roles_view htask, Task.role])]
    exact .single (.clear t dom .stopping _ (by simp [roles_view htask, Task.role]) nofun
      fun d => hchange _ d)
  · exact view_goOn (s.view_write_of_ne heq _) htask (by simp [Task.role, Ne.symm heq])

theorem view_unbind (htask : s.tasks t = .stop dom uuid' point rest) :
    Follows uuid s ((s.rebind dom (dropBinding uuid')).setTask t (.release dom rest)) := by
  by_cases heq : uuid = uuid'
  · subst heq
    have hview : (s.rebind dom (dropBinding uuid)).view uuid
        = { s.view uuid with bound := fun d => d ≠ dom ∧ (s.view uuid).bound d } := by
      refine s.view_rebind ?_ fun d hd => ?_
      · simp [mem_dropBinding]
      · simp [hd, State.view]
    rw [follows_setTask, hview]
    refine .single (.unbind t dom _ (by simp [roles_view htask, Task.role]) ?_)
    -- the device may be in the rest of the snapshot once more
    rw [Task.role]
    split_ifs
    · exact .inr rfl
    · exact .inl rfl
  · have hview : (s.rebind dom (dropBinding uuid')).view uuid = s.view uuid :=
      s.view_rebind (mem_dropBinding.trans (and_iff_right heq)) fun _ _ => Iff.rfl
    exact view_goOn hview htask (by simp [Task.role, Ne.symm heq])

theorem view_sweep (htask : s.tasks t = .release dom [])
    (hcareful : ∀ uuid ∈ cards.flatten, (s.pool uuid).Of dom → dom ∉ s.held uuid) :
    Follows uuid s (s.setTask t (.sweep dom (pinned cards s.pool dom))) := by
  have hrole : (s.view uuid).roles t = .away := by simp [roles_view htask, Task.role]
  rw [follows_setTask, Task.role]
  split_ifs with hmem
  · obtain ⟨hcard, hmark⟩ := mem_pinned.mp hmem
    exact .single (.sweep t dom hrole hmark (hcareful uuid hcard hmark))
  · rw [setRole_self hrole]

theorem view_free {rest : List (List U)} (htask : s.tasks t = .sweep dom (card :: rest)) :
    Follows uuid s ((s.free card).setTask t (.sweep dom rest)) := by
  rw [follows_setTask, State.view_free]
  by_cases hcard : uuid ∈ card
  · have hrole : (s.view uuid).roles t = .releasing dom .sweeping := by
      simp [roles_view htask, Task.role, hcard]
    have hclear : Step (s.view uuid) { s.view uuid with marks := ⟨none, none⟩ } :=
      .clear t dom .sweeping _ hrole nofun (by simp [Marks.Of])
    -- it may be on a later card too; else the sweep is done with it
    rw [if_pos hcard, Task.role]
    split_ifs
    · have hsame : View.setRole { s.view uuid with marks := ⟨none, none⟩ } t
          (.releasing dom .sweeping) = { s.view uuid with marks := ⟨none, none⟩ } :=
        setRole_self hrole
      rw [hsame]
      exact .single hclear
    · exact .tail (.single hclear) (.leave t (by rw [hrole]; trivial))
  · rw [if_neg hcard]
    have hrole : (s.view uuid).roles t = (Task.sweep dom rest).role uuid := by
      simp [roles_view htask, Task.role, hcard]
    exact (setRole_self hrole).symm ▸ .refl

/-- **Simulation.** Every operation of a run whose calls do not cross is, for every device, a step
of its protocol or none. -/
theorem view_advance {found : Bool} (hcareful : (Event.step t found).Careful cards s)
    (hnext : s.advance cards t found = some s') : Follows uuid s s' := by
  unfold State.advance at hnext
  change (s.tasks t).Careful cards s at hcareful
  cases htask : s.tasks t <;> rw [htask] at hnext hcareful
  case idle => cases hnext
  case reserve dom uuid' point =>
    cases point with
    | status =>
      cases hnext
      exact view_goOn rfl htask (by cases found <;> rfl)
    | swap =>
      simp only at hnext
      split_ifs at hnext with hfree
      · cases hnext
        exact view_reserve htask (hcareful hfree) hfree
      · cases hnext
        exact view_goOn rfl htask rfl
    | bind =>
      cases hnext
      exact view_bind htask
  case start dom uuid' point =>
    cases point with
    | status =>
      cases hnext
      cases found with
      | true => exact view_goOn rfl htask rfl
      | false => exact view_start_done htask nofun rfl
    | unreserve =>
      cases hnext
      exact view_start_write htask (.unreserve t dom)
    | mark =>
      cases hnext
      exact view_start_write htask (.mark t dom)
    | bind =>
      cases hnext
      exact view_start_done htask nofun
        (s.view_rebind mem_startBinding fun d _ => Iff.rfl)
  case release dom rest =>
    cases rest with
    | nil =>
      cases hnext
      exact view_sweep htask hcareful
    | cons b rest =>
      cases hnext
      exact view_beginStop _ htask hcareful
  case stop dom uuid' point rest =>
    cases point with
    | unreserve =>
      cases hnext
      exact view_stop_write htask fun marks d hd => hd.imp_right nofun
    | unmark =>
      cases hnext
      exact view_stop_write htask fun marks d hd => .inr (hd.resolve_left nofun)
    | unbind | force =>
      cases hnext
      exact view_unbind htask
  case sweep dom rest =>
    cases rest with
    | nil =>
      cases hnext
      exact view_goOn rfl htask rfl
    | cons card rest =>
      cases hnext
      exact view_free htask

theorem view_next (hcareful : event.Careful cards s) (hnext : (pool cards).next s event = some s') :
    Follows uuid s s' := by
  cases event with
  | reserve t dom uuid' =>
    simp only [pool] at hnext
    split_ifs at hnext with hidle
    cases hnext
    exact view_goOn rfl hidle rfl
  | start t dom uuid' =>
    simp only [pool] at hnext
    split_ifs at hnext with hidle
    cases hnext
    exact view_begin hidle hcareful
  | release t dom =>
    simp only [pool] at hnext
    split_ifs at hnext with hidle
    cases hnext
    exact view_snapshot hidle
  | step t found => exact view_advance hcareful hnext

end Simulation

/-! ## Whole runs -/

/-- **One desktop.** For any number of threads, desktops, devices and cards, in every interleaving
of reservations, starts and releases whose calls do not cross: a reservation succeeds only when
every other desktop that reserved the device has begun to stop it, and the stop of a desktop clears
no mark of another. -/
theorem held_by_one (cards : List (List U)) (events : List (Event n D U))
    (hcareful : (pool cards).Meets (fun s event => event.Careful cards s) empty events) :
    (pool cards).Meets (fun s event => event.Safe s) empty events :=
  (pool cards).meets_of_invariant _ _ (fun s => ∀ uuid, (s.view uuid).Owned)
    (fun _ _ _ h hP hnext uuid => (h uuid).steps (view_next hP hnext))
    (fun _ _ h hP => safe_of_owned cards h hP) owned_empty hcareful

end Pool

def steps (t : Fin 2) (k : Nat) : List (Event 2 Nat Unit) :=
  List.replicate k (.step t true)

/-- Desktop 0 reserves the device, starts, and is released by two threads; then desktop 1
reserves it. -/
def oneAfterAnother (t t' : Fin 2) : List (Event 2 Nat Unit) :=
  .reserve t 0 () :: steps t 3 ++ .start t 0 () :: steps t 4 ++ .release t 0 :: .release t' 0
    :: steps t 6 ++ steps t' 6 ++ .reserve t' 1 () :: steps t' 3

theorem oneAfterAnother_safe :
    (pool [[()]]).Meets (fun s event => event.Careful [[()]] s) empty (oneAfterAnother 0 1)
      ∧ ((pool [[()]]).run empty (oneAfterAnother 0 1)).map (fun s => (s.pool (), s.held ()))
        = some (⟨some 1, none⟩, [1])
      ∧ (pool [[()]]).Meets (fun s event => event.Safe s) empty (oneAfterAnother 0 1) := by
  have hcareful : (pool [[()]]).Meets (fun s event => event.Careful [[()]] s) empty
      (oneAfterAnother 0 1) := by decide +kernel
  exact ⟨hcareful, by decide +kernel, held_by_one [[()]] (oneAfterAnother 0 1) hcareful⟩

/-- Desktop 0 is between the two writes of its start when desktop 1 swaps. -/
theorem reserved_during_start :
    ∃ s, (pool [[()]]).run empty (.reserve 0 0 () :: steps 0 3 ++ .start 0 0 () :: steps 0 2
        ++ .reserve 1 1 () :: steps 1 1) = some s
      ∧ s.tasks 1 = .reserve 1 () .swap ∧ (s.pool ()).Free ∧ 0 ∈ s.held ()
      ∧ ∃ s', (pool [[()]]).next s (.step 1 true) = some s' ∧ s'.pool () = ⟨some 1, none⟩ :=
  ⟨_, rfl, by decide, by decide, by decide, _, rfl, by decide⟩

end IsardVDI.Engine.Vgpu
