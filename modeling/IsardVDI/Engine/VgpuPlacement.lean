import Mathlib.Data.List.Nodup

/-!
# Placing a desktop's vGPUs

The GPU path of `start_domain_from_xml`: every requested profile is reserved in turn, each with up
to five attempts, on hosts that the balancer answers; the desktop is then sent to the first of the
pinned hosts. The balancer answers a host of the forced list it is given, with a device of that
host; a reservation wins if the device is free.
-/

namespace IsardVDI.Engine.Placement

open List

structure Device (H : Type) where
  host : H
  uuid : Nat
deriving DecidableEq

/-- An answer of `get_next_hypervisor`, and how the attempt goes on. -/
structure Answer (H : Type) where
  /-- `none` is `False` -/
  host : Option H
  nvidia : Bool
  device : Device H
  /-- the device is in the pool and of no other desktop when the swap runs -/
  free : Bool
  /-- `recreate_xml_if_gpu` raises no `ValueError` -/
  injects : Bool

structure Balancer (H : Type) where
  answer : Nat → List H → Answer H
  allowed : ∀ k forced, ∀ host ∈ (answer k forced).host,
    (forced ≠ [] → host ∈ forced) ∧ (answer k forced).device.host = host

/-- The variables of the loop, the devices marked for the domain in the pool, and all those its
reservations have won. -/
structure Loop (H : Type) where
  calls : Nat
  pinnedHyp : Option (List H)
  reserved : List (Device H)
  marked : List (Device H)
  won : List (Device H)

section Model

variable {H : Type} [DecidableEq H] (forcedHyp : List H) (balancer : Balancer H)

variable (loop : Loop H)

/-- `update_vgpu_uuid_domain_action(..., "domain_stopped", ...)` -/
def Loop.stop (device : Device H) : Loop H :=
  { loop with marked := loop.marked.filter (· ≠ device) }

def Loop.rollback : Loop H :=
  loop.reserved.foldl Loop.stop loop

inductive Turn (H : Type)
  | placed (loop : Loop H)
  | unplaced (loop : Loop H)
  | broken (loop : Loop H)

def Loop.pin (host : H) : Option (List H) :=
  match loop.pinnedHyp with
  | none => some [host]
  | some hosts => if host ∈ hosts then some hosts else none

def Loop.win (answer : Answer H) : Turn H :=
  let loop := { loop with
    marked := answer.device :: loop.marked
    won := answer.device :: loop.won }
  if answer.injects then .placed { loop with reserved := loop.reserved ++ [answer.device] }
  else .broken (loop.stop answer.device).rollback

/-- Up to `k` attempts for a profile; the forced list of the call is `pinned_hyp`, if it has one.
A lost swap is retried. -/
def attempt (loop : Loop H) : Nat → Turn H
  | 0 => .unplaced loop
  | k + 1 =>
    let answer := balancer.answer loop.calls (loop.pinnedHyp.getD forcedHyp)
    let loop := { loop with calls := loop.calls + 1 }
    match answer.host with
    | none => .unplaced loop
    | some host =>
      if answer.nvidia then
        -- a host that is not pinned ends the attempts
        match loop.pin host with
        | none => .unplaced loop
        | some hosts =>
          let loop := { loop with pinnedHyp := some hosts }
          -- a device of the domain itself is not free either
          if answer.free ∧ answer.device ∉ loop.marked then loop.win answer
          else attempt loop k
      else .unplaced loop

def maxAttempts : Nat := 5

inductive Result (H : Type)
  | target (nextHyp : Option H) (loop : Loop H)
  /-- `False`, after the rollback: a profile could not be placed, or the XML could not be made -/
  | failed (loop : Loop H)

/-- The loop over the profiles, of which their number counts here. -/
def placeAll (loop : Loop H) : Nat → Result H
  | 0 => .target (loop.pinnedHyp.bind List.head?) loop
  | profiles + 1 =>
    match attempt forcedHyp balancer loop maxAttempts with
    | .placed loop => placeAll loop profiles
    | .unplaced loop => .failed loop.rollback
    | .broken loop => .failed loop

/-- The variables before the loop. An empty list is no list. -/
def Loop.start (marked : List (Device H)) : Loop H where
  calls := 0
  pinnedHyp := if forcedHyp = [] then none else some forcedHyp
  reserved := []
  marked := marked
  won := []

def startDomain (marked : List (Device H)) (profiles : Nat) : Result H :=
  placeAll forcedHyp balancer (.start forcedHyp marked) profiles

end Model

/-- One device for each profile, all on the target host; or no reservation is left. -/
def Correct {H : Type} (marked : List (Device H)) (profiles : Nat) : Result H → Prop
  | .target nextHyp loop =>
    loop.reserved.length = profiles ∧ loop.reserved.Nodup
      ∧ (∀ device ∈ loop.reserved, nextHyp = some device.host ∧ device ∈ loop.marked)
      ∧ ∀ device ∈ loop.marked, device ∈ marked ∨ device ∈ loop.reserved
  | .failed loop => ∀ device ∈ loop.won, device ∉ loop.marked

section Proofs

variable {H : Type} [DecidableEq H] (forcedHyp : List H) (balancer : Balancer H)
  {marked : List (Device H)} {loop : Loop H}

/-! ## The rollback -/

theorem mem_rollback {device : Device H} :
    device ∈ loop.rollback.marked ↔ device ∈ loop.marked ∧ device ∉ loop.reserved := by
  have hfold (devices : List (Device H)) (loop : Loop H) :
      device ∈ (devices.foldl Loop.stop loop).marked
        ↔ device ∈ loop.marked ∧ device ∉ devices := by
    induction devices generalizing loop with
    | nil => simp
    | cons d devices ih =>
      rw [foldl_cons, ih, Loop.stop, mem_filter]
      simp [and_assoc]
  exact hfold loop.reserved loop

theorem won_rollback : loop.rollback.won = loop.won := by
  have hfold (devices : List (Device H)) (loop : Loop H) :
      (devices.foldl Loop.stop loop).won = loop.won := by
    induction devices generalizing loop with
    | nil => rfl
    | cons d devices ih => exact ih _
  exact hfold loop.reserved loop

/-! ## The loop -/

/-- **The invariant.** What is won is reserved, and on the one pinned host. -/
structure Placed (marked : List (Device H)) (loop : Loop H) : Prop where
  won : ∀ device, device ∈ loop.won ↔ device ∈ loop.reserved
  nodup : loop.reserved.Nodup
  marked : ∀ device, device ∈ loop.marked ↔ device ∈ marked ∨ device ∈ loop.reserved
  hosts : ∀ device ∈ loop.reserved, ∃ hosts ∈ loop.pinnedHyp, hosts.head? = some device.host
  pinned : ∀ hosts ∈ loop.pinnedHyp, ∀ h ∈ hosts, hosts.head? = some h

theorem Placed.rollback (h : Placed marked loop) :
    ∀ device ∈ loop.rollback.won, device ∉ loop.rollback.marked := by
  intro device hwon hmarked
  rw [won_rollback, h.won] at hwon
  exact (mem_rollback.mp hmarked).2 hwon

omit [DecidableEq H] in
theorem Placed.call (h : Placed marked loop) (calls : Nat) :
    Placed marked { loop with calls := calls } :=
  ⟨h.won, h.nodup, h.marked, h.hosts, h.pinned⟩

variable {host : H} {hosts : List H}

theorem Placed.pin (h : Placed marked loop) (hpin : loop.pin host = some hosts) :
    Placed marked { loop with pinnedHyp := some hosts } ∧ host ∈ hosts := by
  unfold Loop.pin at hpin
  cases hpinned : loop.pinnedHyp with
  | none =>
    rw [hpinned] at hpin
    cases hpin
    refine ⟨⟨h.won, h.nodup, h.marked, fun device hdevice => ?_, fun hosts hhosts h' hh' => ?_⟩,
      mem_singleton_self host⟩
    · -- nothing is reserved before the first answer
      obtain ⟨hosts, hhosts, -⟩ := h.hosts device hdevice
      rw [hpinned] at hhosts
      cases hhosts
    · cases hhosts
      rw [mem_singleton.mp hh']
      rfl
  | some pinned =>
    rw [hpinned] at hpin
    simp only at hpin
    split_ifs at hpin with hmem
    cases hpin
    refine ⟨?_, hmem⟩
    rw [← hpinned]
    exact h

def Turn.Good (marked : List (Device H)) (reserved : Nat) : Turn H → Prop
  | .placed loop => Placed marked loop ∧ loop.reserved.length = reserved + 1
  | .unplaced loop => Placed marked loop
  | .broken loop => ∀ device ∈ loop.won, device ∉ loop.marked

theorem Placed.win (h : Placed marked loop) {answer : Answer H}
    (hpinned : loop.pinnedHyp = some hosts) (hhost : answer.device.host ∈ hosts)
    (hfree : answer.device ∉ loop.marked) : (loop.win answer).Good marked loop.reserved.length := by
  have hnew : answer.device ∉ loop.reserved := fun hmem =>
    hfree ((h.marked _).mpr (.inr hmem))
  unfold Loop.win
  split_ifs
  · refine ⟨⟨fun device => ?_, ?_, fun device => ?_, fun device hdevice => ?_, h.pinned⟩, ?_⟩
    · simp [h.won device, or_comm]
    · rw [nodup_append]
      refine ⟨h.nodup, nodup_singleton _, fun a ha b hb heq => hnew ?_⟩
      rw [← mem_singleton.mp hb, ← heq]
      exact ha
    · have hmarked := h.marked device
      simp only [mem_cons, mem_append, not_mem_nil, or_false]
      tauto
    · rcases mem_append.mp hdevice with hold | hlast
      · exact h.hosts device hold
      · -- the host of the device is pinned, and so it is the first one
        rw [mem_singleton.mp hlast]
        exact ⟨hosts, hpinned, h.pinned hosts hpinned _ hhost⟩
    · simp
  · -- the device is stopped, and then all that were reserved before
    intro device hwon hmarked
    rw [won_rollback] at hwon
    obtain ⟨hmarked, hreserved⟩ := mem_rollback.mp hmarked
    rw [Loop.stop, mem_filter] at hmarked
    rcases mem_cons.mp hwon with rfl | hwon
    · simp at hmarked
    · exact hreserved ((h.won device).mp hwon)

theorem attempt_good (h : Placed marked loop) (k : Nat) :
    (attempt forcedHyp balancer loop k).Good marked loop.reserved.length := by
  induction k generalizing loop with
  | zero => exact h
  | succ k ih =>
    rw [attempt]
    split
    · exact h.call _
    · next host hhost =>
      have hdevice := (balancer.allowed _ _ host hhost).2
      split_ifs with hnvidia
      · split
        · exact h.call _
        · next hosts hpin =>
          obtain ⟨hpinned, hmem⟩ := (h.call _).pin hpin
          simp only
          split_ifs with hfree
          · exact hpinned.win rfl (hdevice ▸ hmem) hfree.2
          · exact ih hpinned
      · exact h.call _

theorem placeAll_correct (h : Placed marked loop) (profiles : Nat) :
    Correct marked (loop.reserved.length + profiles)
      (placeAll forcedHyp balancer loop profiles) := by
  induction profiles generalizing loop with
  | zero =>
    refine ⟨rfl, h.nodup, fun device hdevice => ⟨?_, (h.marked device).mpr (.inr hdevice)⟩,
      fun device => (h.marked device).mp⟩
    obtain ⟨hosts, hhosts, hhead⟩ := h.hosts device hdevice
    rw [Option.mem_def.mp hhosts]
    exact hhead
  | succ profiles ih =>
    rw [placeAll]
    have hgood := attempt_good forcedHyp balancer h maxAttempts
    split
    · next next hturn =>
      rw [hturn] at hgood
      have hcorrect := ih hgood.1
      rw [hgood.2] at hcorrect
      rw [show loop.reserved.length + (profiles + 1) = loop.reserved.length + 1 + profiles by omega]
      exact hcorrect
    · next next hturn =>
      rw [hturn] at hgood
      exact Placed.rollback hgood
    · next next hturn =>
      rw [hturn] at hgood
      exact hgood

/-! ## A balancer that answers another host -/

def onlyHost (host : H) : Balancer H where
  answer k forced :=
    { host := if forced = [] ∨ host ∈ forced then some host else none
      nvidia := true
      device := ⟨host, k⟩
      free := true
      injects := true }
  allowed k forced h hh := by
    split_ifs at hh with hin
    · cases hh
      exact ⟨fun hne => hin.resolve_left hne, rfl⟩
    · cases hh

structure OnHost (host : H) (loop : Loop H) : Prop where
  pinned : ∃ hosts ∈ loop.pinnedHyp, host ∈ hosts
  reserved : ∀ device ∈ loop.reserved, device.host = host
  marked : ∀ device ∈ loop.marked, device.uuid < loop.calls

theorem attempt_onlyHost (h : OnHost host loop) :
    ∃ loop', attempt forcedHyp (onlyHost host) loop maxAttempts = .placed loop'
      ∧ OnHost host loop' ∧ loop'.pinnedHyp = loop.pinnedHyp
      ∧ loop'.reserved.length = loop.reserved.length + 1 := by
  obtain ⟨hosts, hpinned, hmem⟩ := h.pinned
  have hnew : (⟨host, loop.calls⟩ : Device H) ∉ loop.marked :=
    fun hin => Nat.lt_irrefl _ (h.marked _ hin)
  have hpinned : loop.pinnedHyp = some hosts := hpinned
  refine ⟨{ calls := loop.calls + 1, pinnedHyp := some hosts,
            reserved := loop.reserved ++ [⟨host, loop.calls⟩],
            marked := ⟨host, loop.calls⟩ :: loop.marked,
            won := ⟨host, loop.calls⟩ :: loop.won }, ?_, ⟨⟨hosts, rfl, hmem⟩, ?_, ?_⟩,
    hpinned.symm, by simp⟩
  · simp [maxAttempts, attempt, onlyHost, Loop.pin, Loop.win, hpinned, hmem, hnew]
  · intro device hdevice
    rcases mem_append.mp hdevice with hold | hlast
    · exact h.reserved device hold
    · rw [mem_singleton.mp hlast]
  · intro device hdevice
    rcases mem_cons.mp hdevice with rfl | hold
    · exact Nat.lt_succ_self _
    · exact Nat.lt_succ_of_lt (h.marked device hold)

theorem placeAll_onlyHost (h : OnHost host loop) (profiles : Nat) :
    ∃ loop', placeAll forcedHyp (onlyHost host) loop profiles
        = .target (loop.pinnedHyp.bind List.head?) loop'
      ∧ OnHost host loop' ∧ loop'.reserved.length = loop.reserved.length + profiles := by
  induction profiles generalizing loop with
  | zero => exact ⟨loop, rfl, h, rfl⟩
  | succ profiles ih =>
    obtain ⟨next, hturn, hnext, hpinned, hlength⟩ := attempt_onlyHost forcedHyp h
    obtain ⟨loop', hplace, hloop', hlength'⟩ := ih hnext
    refine ⟨loop', ?_, hloop', by omega⟩
    rw [placeAll, hturn, ← hpinned]
    exact hplace

end Proofs

/-- **The target host.** For every forced list and one or more profiles: whatever the balancer
answers, however the reservations and the injections go and whatever the domain has, the desktop is
sent to the host of all its devices, one for each profile, or keeps no reservation, exactly if the
list does not name two hosts. -/
theorem placed_on_target_iff {H : Type} [DecidableEq H] (forcedHyp : List H) (profiles : Nat) :
    (∀ (balancer : Balancer H) (marked : List (Device H)),
        Correct marked (profiles + 1) (startDomain forcedHyp balancer marked (profiles + 1)))
      ↔ ∀ h ∈ forcedHyp, ∀ h' ∈ forcedHyp, h = h' := by
  constructor
  · intro hcorrect
    -- a host that is not the first is the host of all the devices
    suffices hhead : ∀ h ∈ forcedHyp, forcedHyp.head? = some h by
      intro h hh h' hh'
      exact Option.some.inj ((hhead h hh).symm.trans (hhead h' hh'))
    intro host hhost
    have hpinned : (Loop.start forcedHyp []).pinnedHyp = some forcedHyp :=
      if_neg (ne_nil_of_mem hhost)
    have hstart : OnHost host (.start forcedHyp []) := ⟨⟨forcedHyp, hpinned, hhost⟩, nofun, nofun⟩
    obtain ⟨loop, hplace, honhost, hlength⟩ :=
      placeAll_onlyHost forcedHyp hstart (profiles + 1)
    have hresult := hcorrect (onlyHost host) []
    rw [startDomain, hplace, hpinned] at hresult
    obtain ⟨-, -, htarget, -⟩ := hresult
    obtain ⟨device, hdevice⟩ : ∃ device, device ∈ loop.reserved := by
      refine exists_mem_of_length_pos ?_
      rw [hlength]
      exact Nat.succ_pos _
    have hsent := (htarget device hdevice).1
    rw [honhost.reserved device hdevice] at hsent
    exact hsent
  · intro hsame balancer marked
    have hstart : Placed marked (.start forcedHyp marked) := by
      refine ⟨by simp [Loop.start], nodup_nil, by simp [Loop.start], nofun, ?_⟩
      intro hosts hhosts h hh
      unfold Loop.start at hhosts
      split_ifs at hhosts with hempty
      · cases hhosts
      · cases hhosts
        cases forcedHyp with
        | nil => cases hh
        | cons first rest => exact congrArg some (hsame first (.head _) h hh)
    have hcorrect := placeAll_correct forcedHyp balancer hstart (profiles + 1)
    rw [show (Loop.start forcedHyp marked).reserved.length = 0 from rfl, Nat.zero_add] at hcorrect
    exact hcorrect

/-- Two forced hosts and one profile: the device is on the second, and the desktop is sent to the
first. -/
theorem forced_to_two :
    ∃ loop, startDomain [0, 1] (onlyHost 1) [] 1 = .target (some 0) loop
      ∧ loop.reserved = [⟨1, 0⟩] ∧ ¬Correct [] 1 (startDomain [0, 1] (onlyHost 1) [] 1) := by
  refine ⟨_, rfl, rfl, fun h => ?_⟩
  have hsent := (h.2.2.1 ⟨1, 0⟩ (mem_singleton_self _)).1
  exact absurd hsent (by decide)

end IsardVDI.Engine.Placement
