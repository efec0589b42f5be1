import IsardVDI.Engine.VgpuPool

/-!
# The broom and the vGPUs of a desktop

`_settle_absent` and `_destroy_idle_paused`: for a row of the listing, `update_domain_status`
writes `Stopped` if the row still has the status it was listed with, and
`update_vgpu_info_if_stopped` then releases the domain's vGPUs, whether or not that write did
anything. Everything is interleaved with other calls on the pool of `VgpuPool` and with status
writes of others.
-/

namespace IsardVDI.Engine.Broom

open Vgpu
open Function
open Option

/-- The statuses of a domain that a broom pass and a start write or read. -/
inductive Status
  | starting
  | startingPaused
  | started
  | paused
  | stopping
  | shuttingDown
  | stopped
  | failed
deriving DecidableEq

/-- A call for a row of the listing. With the write, what it did and the domain's bindings and
the pool then. -/
inductive Call (D U : Type)
  | idle
  | listed (dom : D) (expectedStatus : Status)
  | written (dom : D) (replaced : Bool) (info : List U) (marks : U → Marks D)
  | releasing (dom : D) (replaced : Bool) (info : List U) (marks : U → Marks D)

structure State (n : Nat) (D U : Type) where
  vgpus : Vgpu.State n D U
  /-- `none`: no row -/
  status : D → Option Status
  calls : Fin n → Call D U

variable {n : Nat} {D U : Type} [DecidableEq D] [DecidableEq U]

/-- `update_domain_status("Stopped", ..., expected_status=...)`: the row after the conditional
replace, and whether it was replaced. -/
def stopIf (expectedStatus : Status) : Option Status → Option Status × Bool
  | none => (none, false)
  | some status => if status = expectedStatus then (some .stopped, true) else (some status, false)

def uuids (info : List (Binding U)) : List U :=
  info.map (·.uuid)

inductive Event (n : Nat) (D U : Type)
  /-- a status write of anyone else: a start, a stop, the domain's events -/
  | setStatus (dom : D) (status : Option Status)
  /-- anyone's operation on the pool, and the next one of a release of the broom -/
  | pool (event : Vgpu.Event n D U)
  | list (t : Fin n) (dom : D)
  /-- the call ends without a write: the checks in libvirt -/
  | skip (t : Fin n)
  | write (t : Fin n)
  | release (t : Fin n)
  | done (t : Fin n)

def State.setCall (s : State n D U) (t : Fin n) (call : Call D U) : State n D U :=
  { s with calls := update s.calls t call }

def threadOf : Vgpu.Event n D U → Fin n
  | .reserve t _ _ | .start t _ _ | .release t _ | .step t _ => t

def State.poolNext (cards : List (List U)) (s : State n D U) (event : Vgpu.Event n D U) :
    Option (State n D U) :=
  ((Vgpu.pool cards).next s.vgpus event).map ({ s with vgpus := · })

section Machine

variable (cards : List (List U))

def broom : Machine (State n D U) (Event n D U) where
  next s
    | .setStatus dom status => some { s with status := update s.status dom status }
    | .pool (.step t found) => s.poolNext cards (.step t found)
    -- a call begins on a thread that the broom does not use
    | .pool event =>
      match s.calls (threadOf event) with
      | .idle => s.poolNext cards event
      | _ => none
    | .list t dom =>
      match s.calls t, s.status dom with
      | .idle, some status =>
        if s.vgpus.tasks t = .idle then some (s.setCall t (.listed dom status)) else none
      | _, _ => none
    | .skip t =>
      match s.calls t with
      | .listed _ _ => some (s.setCall t .idle)
      | _ => none
    | .write t =>
      match s.calls t with
      | .listed dom expectedStatus =>
        let (status, replaced) := stopIf expectedStatus (s.status dom)
        some ({ s with status := update s.status dom status }.setCall t
          (.written dom replaced (uuids (s.vgpus.info dom)) s.vgpus.pool))
      | _ => none
    | .release t =>
      match s.calls t with
      | .written dom replaced info marks =>
        (s.poolNext cards (.release t dom)).map (·.setCall t (.releasing dom replaced info marks))
      | _ => none
    | .done t =>
      match s.calls t with
      | .releasing _ _ _ _ =>
        if s.vgpus.tasks t = .idle then some (s.setCall t .idle) else none
      | _ => none

end Machine

/-! ## What the broom may clear -/

/-- What the next operation of the broom's release clears, a binding or a mark of a domain, is of
the domain whose row the call's write replaced, and was there at that write. -/
def Task.Safe (vgpus : Vgpu.State n D U) (dom : D) (replaced : Bool) (info : List U)
    (marks : U → Marks D) : Task D U → Prop
  | .stop dom' uuid .unreserve _ =>
    (vgpus.pool uuid).reserved = some dom' → dom' = dom ∧ replaced ∧ (marks uuid).Of dom
  | .stop dom' uuid .unmark _ =>
    (vgpus.pool uuid).started = some dom' → dom' = dom ∧ replaced ∧ (marks uuid).Of dom
  | .stop dom' uuid .unbind _ | .stop dom' uuid .force _ =>
    uuid ∈ uuids (vgpus.info dom') → dom' = dom ∧ replaced ∧ uuid ∈ info
  | .sweep dom' (card :: _) =>
    ∀ uuid ∈ card, (vgpus.pool uuid).Of dom' → dom' = dom ∧ replaced ∧ (marks uuid).Of dom
  | _ => True

def Event.Safe (s : State n D U) : Event n D U → Prop
  | .pool (.step t _) =>
    match s.calls t with
    | .releasing dom replaced info marks =>
      Task.Safe s.vgpus dom replaced info marks (s.vgpus.tasks t)
    | _ => True
  | _ => True

def Call.Releases (dom : D) : Call D U → Prop
  | .written dom' _ _ _ | .releasing dom' _ _ _ => dom' = dom
  | _ => False

def Task.gives (vgpus : Vgpu.State n D U) : Task D U → Option D
  | .reserve dom uuid .swap => if (vgpus.pool uuid).Free then some dom else none
  | .reserve dom _ .bind | .start dom _ .mark => some dom
  | _ => none

/-- **No start across a release.** The row has the status it was listed with when the broom writes
it, or the domain has no vGPU; and from that write to the end of the release no start of the domain
reserves, binds or marks a device. -/
def Event.Careful (s : State n D U) : Event n D U → Prop
  | .write t =>
    match s.calls t with
    | .listed dom expectedStatus =>
      s.status dom = some expectedStatus
        ∨ s.vgpus.info dom = [] ∧ ∀ uuid, ¬(s.vgpus.pool uuid).Of dom
    | _ => True
  | .pool (.step t _) =>
    ∀ dom ∈ Task.gives s.vgpus (s.vgpus.tasks t), ∀ t', ¬(s.calls t').Releases dom
  | _ => True

instance (dom : D) : ∀ call : Call D U, Decidable (call.Releases dom)
  | .written dom' _ _ _ | .releasing dom' _ _ _ => inferInstanceAs (Decidable (dom' = dom))
  | .idle | .listed _ _ => isFalse nofun

instance [Fintype U] (s : State n D U) : ∀ event : Event n D U, Decidable (event.Careful s)
  | .write t =>
    match h : s.calls t with
    | .listed dom expectedStatus =>
      decidable_of_iff (s.status dom = some expectedStatus
        ∨ s.vgpus.info dom = [] ∧ ∀ uuid, ¬(s.vgpus.pool uuid).Of dom)
        (by simp only [Event.Careful, h])
    | .idle => isTrue (by simp [Event.Careful, h])
    | .written _ _ _ _ => isTrue (by simp [Event.Careful, h])
    | .releasing _ _ _ _ => isTrue (by simp [Event.Careful, h])
  | .pool (.step t _) =>
    inferInstanceAs (Decidable (∀ _ ∈ Task.gives s.vgpus (s.vgpus.tasks t), _))
  | .pool (.reserve _ _ _) | .pool (.start _ _ _) | .pool (.release _ _) => isTrue trivial
  | .setStatus _ _ | .list _ _ | .skip _ | .release _ | .done _ => isTrue trivial

/-! ## Single operations -/

section Advance

variable {cards : List (List U)} {v v' : Vgpu.State n D U} {t t' : Fin n} {found : Bool}
  {dom : D} {uuid : U}

omit [DecidableEq U] in
theorem mem_uuids_rebind {dom' : D} {change : List (Binding U) → List (Binding U)}
    (hmem : uuid ∈ uuids ((v.rebind dom' change).info dom)) :
    dom' = dom ∧ uuid ∈ uuids (change (v.info dom')) ∨ uuid ∈ uuids (v.info dom) := by
  change uuid ∈ uuids (update v.info dom' (change (v.info dom')) dom) at hmem
  by_cases heq : dom = dom'
  · subst heq
    rw [update_self] at hmem
    exact .inl ⟨rfl, hmem⟩
  · rw [update_of_ne heq] at hmem
    exact .inr hmem

omit [DecidableEq D] in
theorem of_update {pool : U → Marks D} {uuid' : U} {marks : Marks D}
    (hmark : (update pool uuid' marks uuid).Of dom) :
    uuid' = uuid ∧ marks.Of dom ∨ (pool uuid).Of dom := by
  by_cases heq : uuid = uuid'
  · subst heq
    rw [update_self] at hmark
    exact .inl ⟨rfl, hmark⟩
  · rw [update_of_ne heq] at hmark
    exact .inr hmark

section

variable (h : v.advance cards t found = some v')

include h

theorem mem_info_advance (hmem : uuid ∈ uuids (v'.info dom)) :
    uuid ∈ uuids (v.info dom) ∨ Task.gives v (v.tasks t) = some dom := by
  unfold Vgpu.State.advance at h
  split at h
  -- the cases with a write to `vgpu_info`: the last one of a reservation,
  case h_4 dom' uuid' htask =>
    cases h
    rw [htask]
    rcases mem_uuids_rebind hmem with ⟨rfl, -⟩ | hold
    · exact .inr rfl
    · exact .inl hold
  -- that of a start, which only changes flags,
  case h_8 dom' uuid' htask =>
    cases h
    rcases mem_uuids_rebind hmem with ⟨rfl, hstarted⟩ | hold
    · exact .inl (mem_startBinding.mp hstarted)
    · exact .inl hold
  -- and that of a stop, with the device in the pool or not
  case h_13 | h_14 =>
    cases h
    rcases mem_uuids_rebind hmem with ⟨rfl, hleft⟩ | hold
    · exact .inl (mem_dropBinding.mp hleft).2
    · exact .inl hold
  case h_1 => cases h
  case h_3 => split_ifs at h <;> cases h <;> exact .inl hmem
  all_goals
    cases h
    exact .inl hmem

theorem of_pool_advance (hmark : (v'.pool uuid).Of dom) :
    (v.pool uuid).Of dom ∨ Task.gives v (v.tasks t) = some dom := by
  unfold Vgpu.State.advance at h
  split at h
  case h_1 => cases h
  -- the swap
  case h_3 dom' uuid' htask =>
    split_ifs at h with hfree
    · cases h
      rw [htask, Task.gives, if_pos hfree]
      rcases of_update hmark with ⟨rfl, hnew⟩ | hold
      · have hself : dom' = dom := by simpa [Marks.Of] using hnew
        exact .inr (congrArg some hself)
      · exact .inl hold
    · cases h
      exact .inl hmark
  -- the first write of a start, and of a stop
  case h_6 | h_11 =>
    cases h
    rcases of_update hmark with ⟨rfl, hleft⟩ | hold
    · exact .inl (hleft.imp_right nofun)
    · exact .inl hold
  -- the second one of a start gives a mark
  case h_7 dom' uuid' htask =>
    cases h
    rw [htask]
    rcases of_update hmark with ⟨rfl, hnew⟩ | hold
    · rcases hnew with hself | hreserved
      · exact .inr hself
      · exact .inl (.inr hreserved)
    · exact .inl hold
  case h_12 =>
    cases h
    rcases of_update hmark with ⟨rfl, hleft⟩ | hold
    · exact .inl (.inr (hleft.resolve_left nofun))
    · exact .inl hold
  -- a card of a sweep
  case h_15 dom' card rest htask =>
    cases h
    change (if uuid ∈ card then ⟨none, none⟩ else v.pool uuid : Marks D).Of dom at hmark
    split_ifs at hmark
    · simp [Marks.Of] at hmark
    · exact .inl hmark
  all_goals
    cases h
    exact .inl hmark

theorem tasks_advance_of_ne (hne : t' ≠ t) : v'.tasks t' = v.tasks t' := by
  unfold Vgpu.State.advance at h
  split at h
  case h_1 => cases h
  case h_3 => split_ifs at h <;> cases h <;> exact update_of_ne hne ..
  all_goals
    cases h
    exact update_of_ne hne ..

end

/-- A thread at the end of its calls, or at the release of the domain. -/
def Task.ReleaseOf (dom : D) : Task D U → Prop
  | .idle => True
  | .release dom' _ | .stop dom' _ _ _ | .sweep dom' _ => dom' = dom
  | _ => False

theorem releaseOf_advance (h : v.advance cards t found = some v')
    (hrelease : Task.ReleaseOf dom (v.tasks t)) : Task.ReleaseOf dom (v'.tasks t) := by
  have hself (w : Vgpu.State n D U) (task : Task D U) : (w.setTask t task).tasks t = task :=
    update_self ..
  unfold Vgpu.State.advance at h
  split at h
  case h_1 => cases h
  all_goals
    rename_i htask
    rw [htask] at hrelease
  -- a release goes from one binding to the next, and on to its sweep
  case h_9 | h_10 | h_11 | h_12 | h_13 | h_14 | h_15 =>
    cases h
    rw [hself]
    exact hrelease
  case h_16 =>
    cases h
    rw [hself]
    trivial
  all_goals exact absurd hrelease nofun

end Advance

/-! ## Whole runs -/

/-- Since the write of a call, the domain has come by nothing; and if the write did not replace the
row it had nothing. -/
structure Keeps (vgpus : Vgpu.State n D U) (dom : D) (replaced : Bool) (info : List U)
    (marks : U → Marks D) : Prop where
  bound : ∀ uuid ∈ uuids (vgpus.info dom), uuid ∈ info
  marked : ∀ uuid, (vgpus.pool uuid).Of dom → (marks uuid).Of dom
  stopped : replaced ∨ info = [] ∧ ∀ uuid, ¬(marks uuid).Of dom

/-- What holds of a call, with the pool and the task of its thread. -/
def Call.Ok (vgpus : Vgpu.State n D U) (task : Task D U) : Call D U → Prop
  | .written dom replaced info marks => Keeps vgpus dom replaced info marks
  | .releasing dom replaced info marks =>
    Keeps vgpus dom replaced info marks ∧ Task.ReleaseOf dom task
  | _ => True

def Inv (s : State n D U) : Prop :=
  ∀ t, (s.calls t).Ok s.vgpus (s.vgpus.tasks t)

section Inv

variable {cards : List (List U)} {s s' : State n D U} {v v' : Vgpu.State n D U} {t : Fin n}
  {dom : D} {replaced : Bool} {info : List U} {marks : U → Marks D} {call : Call D U}

section

omit [DecidableEq D] [DecidableEq U]

theorem Call.Ok.mono {task task' : Task D U} (h : call.Ok v task)
    (hkeeps : ∀ dom replaced info marks, call.Releases dom → Keeps v dom replaced info marks →
      Keeps v' dom replaced info marks)
    (hrelease : ∀ dom, Task.ReleaseOf dom task → Task.ReleaseOf dom task') : call.Ok v' task' := by
  cases call with
  | idle | listed => trivial
  | written => exact hkeeps _ _ _ _ rfl h
  | releasing => exact ⟨hkeeps _ _ _ _ rfl h.1, hrelease _ h.2⟩

theorem Inv.setCall (h : Inv s) (hcall : call.Ok s.vgpus (s.vgpus.tasks t)) :
    Inv (s.setCall t call) := by
  intro t'
  show (update s.calls t call t').Ok _ _
  rw [update_apply]
  split_ifs with heq
  · exact heq ▸ hcall
  · exact h t'

variable (h : Keeps v dom replaced info marks)

include h

theorem Keeps.of_bound {uuid : U} (hmem : uuid ∈ uuids (v.info dom)) : replaced ∧ uuid ∈ info := by
  have hin := h.bound uuid hmem
  refine ⟨?_, hin⟩
  rcases h.stopped with hreplaced | ⟨hempty, -⟩
  · exact hreplaced
  · rw [hempty] at hin
    cases hin

theorem Keeps.of_marked {uuid : U} (hmark : (v.pool uuid).Of dom) :
    replaced ∧ (marks uuid).Of dom := by
  have hwas := h.marked uuid hmark
  refine ⟨?_, hwas⟩
  rcases h.stopped with hreplaced | ⟨-, hnone⟩
  · exact hreplaced
  · exact absurd hwas (hnone uuid)

theorem Keeps.same (hinfo : v'.info = v.info) (hpool : v'.pool = v.pool) :
    Keeps v' dom replaced info marks where
  bound uuid hmem := h.bound uuid (hinfo ▸ hmem)
  marked uuid hmark := h.marked uuid (hpool ▸ hmark)
  stopped := h.stopped

end

theorem Keeps.advance (h : Keeps v dom replaced info marks) {found : Bool}
    (hnext : v.advance cards t found = some v')
    (hgives : Task.gives v (v.tasks t) ≠ some dom) : Keeps v' dom replaced info marks where
  bound uuid hmem := h.bound uuid ((mem_info_advance hnext hmem).resolve_right hgives)
  marked uuid hmark := h.marked uuid ((of_pool_advance hnext hmark).resolve_right hgives)
  stopped := h.stopped

variable (h : Inv s)

include h

theorem Inv.step {found : Bool} (hcareful : (Event.pool (.step t found)).Careful s)
    (hnext : s.vgpus.advance cards t found = some v') : Inv { s with vgpus := v' } := by
  intro t'
  refine (h t').mono (fun dom _ _ _ hcall hkeeps => ?_) fun dom hrelease => ?_
  · exact hkeeps.advance hnext fun hgives => hcareful dom hgives t' hcall
  · by_cases heq : t' = t
    · subst heq
      exact releaseOf_advance hnext hrelease
    · show Task.ReleaseOf dom (v'.tasks t')
      rw [tasks_advance_of_ne hnext heq]
      exact hrelease

section

omit [DecidableEq D] [DecidableEq U]

theorem Inv.begin (hidle : s.calls t = .idle) (task : Task D U) :
    Inv { s with vgpus := s.vgpus.setTask t task } := by
  intro t'
  show (s.calls t').Ok _ (update s.vgpus.tasks t task t')
  by_cases heq : t' = t
  · rw [heq, hidle]
    trivial
  · rw [update_of_ne heq]
    exact (h t').mono (fun _ _ _ _ _ hkeeps => hkeeps.same rfl rfl) fun _ hrelease => hrelease

theorem Inv.safe (event : Event n D U) : event.Safe s := by
  unfold Event.Safe
  split
  · next t found =>
    split
    · next dom replaced info marks hcall =>
      have hok := h t
      rw [hcall] at hok
      obtain ⟨hkeeps, hrelease⟩ := hok
      cases htask : s.vgpus.tasks t with
      | stop dom' uuid point rest =>
        rw [htask] at hrelease
        obtain rfl : dom' = dom := hrelease
        cases point with
        | unreserve => exact fun hmark => ⟨rfl, hkeeps.of_marked (.inr hmark)⟩
        | unmark => exact fun hmark => ⟨rfl, hkeeps.of_marked (.inl hmark)⟩
        | unbind | force => exact fun hmem => ⟨rfl, hkeeps.of_bound hmem⟩
      | sweep dom' cards =>
        rw [htask] at hrelease
        obtain rfl : dom' = dom := hrelease
        cases cards with
        | nil => trivial
        | cons card rest => exact fun uuid _ hmark => ⟨rfl, hkeeps.of_marked hmark⟩
      | _ => trivial
    · trivial
  · trivial

end

theorem Inv.pool {event : Vgpu.Event n D U} (hcareful : (Event.pool event).Careful s)
    (hnext : (broom cards).next s (.pool event) = some s') : Inv s' := by
  cases event with
  | step t found =>
    obtain ⟨v', hv', rfl⟩ := map_eq_some_iff.mp hnext
    exact h.step hcareful hv'
  | _ =>
    simp only [broom, threadOf] at hnext
    split at hnext
    · next hidle =>
      obtain ⟨v', hv', rfl⟩ := map_eq_some_iff.mp hnext
      simp only [Vgpu.pool] at hv'
      split_ifs at hv'
      cases hv'
      exact h.begin hidle _
    · cases hnext

theorem Inv.write (hcareful : (Event.write t).Careful s)
    (hnext : (broom cards).next s (.write t) = some s') : Inv s' := by
  simp only [broom] at hnext
  unfold Event.Careful at hcareful
  cases hcall : s.calls t with
  | listed dom expectedStatus =>
    rw [hcall] at hnext
    simp only [hcall] at hcareful
    cases hnext
    -- the write sees what the domain has
    have hkeeps : Keeps s.vgpus dom (stopIf expectedStatus (s.status dom)).2
        (uuids (s.vgpus.info dom)) s.vgpus.pool := by
      refine ⟨fun uuid hmem => hmem, fun uuid hmark => hmark, ?_⟩
      rcases hcareful with hstatus | ⟨hempty, hnone⟩
      · left
        simp [hstatus, stopIf]
      · exact .inr ⟨by rw [hempty]; rfl, hnone⟩
    exact Inv.setCall (s := { s with status := _ }) h hkeeps
  | _ =>
    rw [hcall] at hnext
    cases hnext

theorem Inv.release (hnext : (broom cards).next s (.release t) = some s') : Inv s' := by
  simp only [broom] at hnext
  cases hcall : s.calls t with
  | written dom replaced info marks =>
    rw [hcall] at hnext
    obtain ⟨_, hrelease, rfl⟩ := map_eq_some_iff.mp hnext
    obtain ⟨v', hv', rfl⟩ := map_eq_some_iff.mp hrelease
    simp only [Vgpu.pool] at hv'
    split_ifs at hv'
    cases hv'
    have hkeeps := h t
    rw [hcall] at hkeeps
    intro t'
    show (update s.calls t _ t').Ok _ (update s.vgpus.tasks t _ t')
    by_cases heq : t' = t
    · rw [heq, update_self, update_self]
      exact ⟨Keeps.same hkeeps rfl rfl, rfl⟩
    · rw [update_of_ne heq, update_of_ne heq]
      exact (h t').mono (fun _ _ _ _ _ hkeeps => hkeeps.same rfl rfl) fun _ hrelease => hrelease
  | _ =>
    rw [hcall] at hnext
    cases hnext

theorem Inv.next {event : Event n D U} (hcareful : event.Careful s)
    (hnext : (broom cards).next s event = some s') : Inv s' := by
  cases event with
  | setStatus dom status =>
    cases hnext
    exact h
  | pool event => exact h.pool hcareful hnext
  | list t dom =>
    simp only [broom] at hnext
    split at hnext
    · split_ifs at hnext
      cases hnext
      exact h.setCall trivial
    · cases hnext
  | skip t =>
    simp only [broom] at hnext
    split at hnext
    · cases hnext
      exact h.setCall trivial
    · cases hnext
  | write t => exact h.write hcareful hnext
  | release t => exact h.release hnext
  | done t =>
    simp only [broom] at hnext
    split at hnext
    · split_ifs at hnext
      cases hnext
      exact h.setCall trivial
    · cases hnext

end Inv

/-- One domain with the given status and nothing on, and one device. -/
def oneDesktop (status : Status) : State 2 Unit Unit where
  vgpus := empty
  status _ := some status
  calls _ := .idle

def steps (t : Fin 2) (k : Nat) : List (Event 2 Unit Unit) :=
  List.replicate k (.pool (.step t true))

/-- The domain has a device and is absent from libvirt: it is stopped and its device released, and
it is started again. -/
def settled (t t' : Fin 2) : List (Event 2 Unit Unit) :=
  .pool (.reserve t () ()) :: steps t 3 ++ .list t' () :: .write t' :: .release t' :: steps t' 6
    ++ .done t' :: .setStatus () (some .starting) :: .pool (.reserve t () ()) :: steps t 3

end IsardVDI.Engine.Broom
