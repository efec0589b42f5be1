import IsardVDI.Lib.Machine
import Mathlib

/-!
# change-handler — `streams/trim.py` and `_trim_to_frontier`

The result stream is trimmed by its own consumers: a janitor reads the group's
`last-delivered-id` (`XINFO GROUPS`), then the oldest pending entry (`XPENDING`), takes the
smaller of the two and trims every entry below it (`XTRIM … MINID`). The three commands are
separate round trips, and meanwhile producers append, consumers read, acknowledge and claim,
and other janitors trim.

The order of the two reads carries the proof. With no entry pending, the floor is the frontier
that was read *first*, and everything up to it had been delivered before the list of pending
entries was seen to be empty.
-/

namespace IsardVDI.ChangeHandler

open List Function

/-! ## Stream ids and their text form -/

/-- A stream id `<ms>-<seq>`. Redis orders ids numerically, on `ms` and then on `seq`. -/
abbrev StreamId := Nat ×ₗ Nat

/-- `0-0`, the `last-delivered-id` of a group that has read nothing. -/
def StreamId.zero : StreamId := toLex (0, 0)

variable (i : StreamId)

theorem StreamId.zero_le : StreamId.zero ≤ i := by
  rw [StreamId.zero, Prod.Lex.le_iff]
  rcases Nat.eq_zero_or_pos (ofLex i).1 with h | h
  · exact .inr ⟨h.symm, Nat.zero_le _⟩
  · exact .inl h

abbrev Text := List Char

/-- The id as Redis prints it. -/
def render (i : StreamId) : Text :=
  Nat.toDigits 10 (ofLex i).1 ++ '-' :: Nat.toDigits 10 (ofLex i).2

inductive PyError where
  | valueError
  deriving DecidableEq, Repr

def pyInt (text : Text) : Except PyError Nat :=
  if text ≠ [] ∧ text.all Char.isDigit then .ok (Nat.ofDigitChars 10 text 0)
  else .error .valueError

def partitionAt (sep : Char) (text : Text) : Text × Text :=
  let (before, rest) := text.span (· ≠ sep)
  (before, rest.tail)

/-- `_id_tuple`. A missing sequence number reads as 0. -/
def idTuple (entryId : Text) : Except PyError StreamId := do
  let (ms, seq) := partitionAt '-' entryId
  let msValue ← pyInt ms
  let seqValue ← if seq = [] then pure 0 else pyInt seq
  return toLex (msValue, seqValue)

def minStreamId (a b : Text) : Except PyError Text := do
  return if (← idTuple a) ≤ (← idTuple b) then a else b

def presentId : Option Text → Option Text
  | some text => if text ≠ [] ∧ text ≠ render StreamId.zero then some text else none
  | none => none

def computeTrimFloor (lastDeliveredId minPendingId : Option Text) :
    Except PyError (Option Text) :=
  match presentId minPendingId, presentId lastDeliveredId with
  | some mp, some ld => some <$> minStreamId mp ld
  | some mp, none => .ok (some mp)
  | none, ld => .ok ld

/-! ### The text functions compute on the numbers

Every id the janitor sees was printed by Redis, so `_id_tuple` reads back the number it came
from, and `compute_trim_floor` is the printed form of `trimFloor`. -/

variable (n : Nat)

theorem pyInt_toDigits : pyInt (Nat.toDigits 10 n) = .ok n := by
  have hdigits : (Nat.toDigits 10 n).all Char.isDigit = true := by
    rw [all_eq_true]
    intro c hc
    exact Nat.isDigit_of_mem_toDigits (by decide) (by decide) hc
  have hne : Nat.toDigits 10 n ≠ [] := Nat.toDigits_ne_nil
  rw [pyInt, if_pos ⟨hne, hdigits⟩, Nat.ofDigitChars_toDigits (by decide) (by decide)]

theorem partitionAt_append {before after : Text} {sep : Char} (h : sep ∉ before) :
    partitionAt sep (before ++ sep :: after) = (before, after) := by
  have hall : ∀ c ∈ before, decide (c ≠ sep) = true := by
    intro c hc
    have hne : c ≠ sep := fun heq => h (heq ▸ hc)
    exact decide_eq_true hne
  simp only [partitionAt, span_eq_takeWhile_dropWhile]
  rw [takeWhile_append_of_pos hall, dropWhile_append_of_pos hall]
  simp

theorem dash_not_mem_toDigits : '-' ∉ Nat.toDigits 10 n := by
  intro hmem
  have hdigit := Nat.isDigit_of_mem_toDigits (by decide) (by decide) hmem
  exact absurd hdigit (by decide)

theorem idTuple_render : idTuple (render i) = .ok i := by
  have hpart : partitionAt '-' (render i)
      = (Nat.toDigits 10 (ofLex i).1, Nat.toDigits 10 (ofLex i).2) :=
    partitionAt_append (dash_not_mem_toDigits _)
  have hne : Nat.toDigits 10 (ofLex i).2 ≠ [] := Nat.toDigits_ne_nil
  simp only [idTuple, hpart, if_neg hne, pyInt_toDigits]
  rfl

theorem render_injective {i j : StreamId} (h : render i = render j) : i = j := by
  have hij : idTuple (render i) = idTuple (render j) := by rw [h]
  rw [idTuple_render, idTuple_render] at hij
  exact Except.ok.inj hij

theorem minStreamId_render (j : StreamId) :
    minStreamId (render i) (render j) = .ok (render (min i j)) := by
  simp only [minStreamId, idTuple_render]
  by_cases hle : i ≤ j
  · rw [min_eq_left hle]
    exact congrArg Except.ok (if_pos hle)
  · rw [min_eq_right (le_of_not_ge hle)]
    exact congrArg Except.ok (if_neg hle)

def present : Option StreamId → Option StreamId
  | some i => if i = StreamId.zero then none else some i
  | none => none

theorem presentId_render (i : Option StreamId) :
    presentId (i.map render) = (present i).map render := by
  cases i with
  | none => rfl
  | some i =>
    have hne : render i ≠ [] := by simp [render]
    by_cases hz : i = StreamId.zero
    · simp [presentId, present, hz]
    · have hr : render i ≠ render StreamId.zero := fun heq => hz (render_injective heq)
      simp [presentId, present, hz, hne, hr]

/-- The floor in numbers: the smaller of the frontier and the oldest pending entry, as far as
they are there. -/
def trimFloor (lastDelivered : StreamId) (minPending : Option StreamId) : Option StreamId :=
  match present minPending, present (some lastDelivered) with
  | some mp, some ld => some (min mp ld)
  | some mp, none => some mp
  | none, ld => ld

/-- **`compute_trim_floor` on printed ids.** It never raises, and its answer is the printed
`trimFloor`. -/
theorem computeTrimFloor_render (ld : StreamId) (mp : Option StreamId) :
    computeTrimFloor (some (render ld)) (mp.map render)
      = .ok ((trimFloor ld mp).map render) := by
  have hld := presentId_render (some ld)
  simp only [Option.map_some] at hld
  simp only [computeTrimFloor, trimFloor, presentId_render, hld]
  cases present mp with
  | none => cases present (some ld) <;> rfl
  | some m =>
    cases present (some ld) with
    | none => rfl
    | some l => simp only [Option.map_some, minStreamId_render]; rfl

/-- `9-0` is before `100-0`, although its text is not. -/
example : computeTrimFloor (some ['1', '0', '0', '-', '0']) (some ['9', '-', '0'])
    = .ok (some ['9', '-', '0']) := by decide

/-! ## The stream, its group and the janitors -/

/-- An entry of the group's pending list, and the consumer it was delivered to. -/
structure Pending where
  id : StreamId
  consumer : Nat
  deriving DecidableEq

/-- Where a janitor stands in `_trim_to_frontier`. -/
inductive Janitor where
  | idle
  | sawGroups (lastDelivered : Text)
  | trimming (floor : Text)
  deriving DecidableEq

/-- The stream with its one consumer group. `delivered` and `acked` record what has happened;
no command reads them. -/
structure Stream where
  entries : List StreamId
  lastId : StreamId
  lastDelivered : StreamId
  pel : List Pending
  delivered : List StreamId
  acked : List StreamId
  janitor : Nat → Janitor

/-- `XGROUP CREATE … 0 MKSTREAM`. -/
def Stream.init : Stream :=
  ⟨[], StreamId.zero, StreamId.zero, [], [], [], fun _ => .idle⟩

inductive Command where
  /-- A producer appends, and its `MAXLEN` may drop the oldest entries. -/
  | xadd (id : StreamId) (dropped : Nat)
  /-- `XREADGROUP … >` of at most `count` entries. -/
  | xreadgroup (consumer count : Nat)
  | xack (id : StreamId)
  /-- `XAUTOCLAIM` of the pending entries `ids`. -/
  | xautoclaim (consumer : Nat) (ids : List StreamId)
  /-- The three commands of `_trim_to_frontier`. An approximate trim spares some of the
  entries below the floor. -/
  | xinfo (janitor : Nat)
  | xpending (janitor : Nat)
  | xtrim (janitor : Nat) (spared : List StreamId)

variable (s : Stream)

def Stream.undelivered (count : Nat) : List StreamId :=
  (s.entries.filter (s.lastDelivered < ·)).take count

def Stream.minPending : Option StreamId := (s.pel.map Pending.id).min?

def Stream.xadd (id : StreamId) (dropped : Nat) : Option Stream :=
  if s.lastId < id then
    some { s with entries := (s.entries ++ [id]).drop dropped, lastId := id }
  else none

def Stream.xreadgroup (consumer count : Nat) : Stream :=
  let batch := s.undelivered count
  { s with
    lastDelivered := batch.getLast?.getD s.lastDelivered
    pel := s.pel ++ batch.map (⟨·, consumer⟩)
    delivered := s.delivered ++ batch }

def Stream.xack (id : StreamId) : Stream :=
  if id ∈ s.pel.map Pending.id then
    { s with pel := s.pel.filter (·.id ≠ id), acked := id :: s.acked }
  else s

/-- The claimed entries change hands; one that is no longer in the stream leaves the list. -/
def Stream.xautoclaim (consumer : Nat) (ids : List StreamId) : Stream :=
  { s with
    pel := (s.pel.filter fun p => p.id ∉ ids ∨ p.id ∈ s.entries).map fun p =>
      if p.id ∈ ids then { p with consumer := consumer } else p }

def Stream.setJanitor (j : Nat) (pc : Janitor) : Stream :=
  { s with janitor := update s.janitor j pc }

/-- The janitor's second command and the floor it computes. Any error ends the pass, and so
does the answer that there is nothing to trim. -/
def Stream.xpending (j : Nat) (lastDelivered : Text) : Stream :=
  match computeTrimFloor (some lastDelivered) (s.minPending.map render) with
  | .ok (some floor) => s.setJanitor j (.trimming floor)
  | .ok none => s.setJanitor j .idle
  | .error _ => s.setJanitor j .idle

/-- `XTRIM … MINID floor`. Redis reads the floor as an id. -/
def Stream.xtrim (j : Nat) (floor : Text) (spared : List StreamId) : Stream :=
  match idTuple floor with
  | .ok bound =>
    { s.setJanitor j .idle with
      entries := s.entries.filter fun e => bound ≤ e ∨ e ∈ spared }
  | .error _ => s.setJanitor j .idle

def stream : Machine Stream Command where
  next s
    | .xadd id dropped => s.xadd id dropped
    | .xreadgroup consumer count => some (s.xreadgroup consumer count)
    | .xack id => some (s.xack id)
    | .xautoclaim consumer ids => some (s.xautoclaim consumer ids)
    | .xinfo j =>
      match s.janitor j with
      | .idle => some (s.setJanitor j (.sawGroups (render s.lastDelivered)))
      | _ => none
    | .xpending j =>
      match s.janitor j with
      | .sawGroups lastDelivered => some (s.xpending j lastDelivered)
      | _ => none
    | .xtrim j spared =>
      match s.janitor j with
      | .trimming floor => some (s.xtrim j floor spared)
      | _ => none

/-! ## The invariant -/

namespace Stream

/-- The entry has been delivered to the group and acknowledged. -/
def Settled (e : StreamId) : Prop :=
  e ∈ s.delivered ∧ e ∈ s.acked

def Bounded : Janitor → Prop
  | .idle => True
  | .sawGroups text => ∃ i, text = render i ∧ i ≤ s.lastDelivered
  | .trimming floor =>
    ∃ f, floor = render f ∧ f ≤ s.lastDelivered ∧ ∀ e ∈ s.entries, e < f → s.Settled e

structure Inv (s : Stream) : Prop where
  sorted : s.entries.Pairwise (· < ·)
  positive : ∀ e ∈ s.entries, StreamId.zero < e
  appended : ∀ e ∈ s.entries, e ≤ s.lastId
  frontier : s.lastDelivered ≤ s.lastId
  /-- Entries are delivered in the order of their ids. -/
  read : ∀ e ∈ s.entries, e ≤ s.lastDelivered → e ∈ s.delivered
  delivered_le : ∀ e ∈ s.delivered, e ≤ s.lastDelivered
  kept : ∀ e ∈ s.entries, e ∈ s.delivered → e ∈ s.acked ∨ e ∈ s.pel.map Pending.id
  pending : ∀ p ∈ s.pel, StreamId.zero < p.id ∧ p.id ≤ s.lastDelivered
  janitors : ∀ j, s.Bounded (s.janitor j)

theorem inv_init : Stream.init.Inv where
  sorted := List.Pairwise.nil
  positive := by simp [Stream.init]
  appended := by simp [Stream.init]
  frontier := le_refl _
  read := by simp [Stream.init]
  delivered_le := by simp [Stream.init]
  kept := by simp [Stream.init]
  pending := by simp [Stream.init]
  janitors := fun _ => trivial

variable {s s' : Stream} {e x m : StreamId} {pc : Janitor} {j count : Nat}

theorem Bounded.mono (h : s.Bounded pc)
    (hfrontier : s.lastDelivered ≤ s'.lastDelivered := by exact le_rfl)
    (hentries : ∀ e ∈ s'.entries, e ∈ s.entries ∨ s.lastDelivered < e := by exact fun _ => .inl)
    (hdelivered : s.delivered ⊆ s'.delivered := by exact fun _ => id)
    (hacked : s.acked ⊆ s'.acked := by exact fun _ => id) : s'.Bounded pc := by
  cases pc with
  | idle => trivial
  | sawGroups text =>
    obtain ⟨i, htext, hi⟩ := h
    exact ⟨i, htext, le_trans hi hfrontier⟩
  | trimming floor =>
    obtain ⟨f, hfloor, hf, hbelow⟩ := h
    refine ⟨f, hfloor, le_trans hf hfrontier, ?_⟩
    intro e he hlt
    rcases hentries e he with hold | hnew
    · obtain ⟨hd, ha⟩ := hbelow e hold hlt
      exact ⟨hdelivered hd, hacked ha⟩
    · -- a new entry is above the frontier, and the floor is not
      exact absurd (lt_trans hlt (lt_of_le_of_lt hf hnew)) (lt_irrefl e)

theorem Inv.setJanitor (h : s.Inv) (hpc : s.Bounded pc) : (s.setJanitor j pc).Inv := by
  refine { h with janitors := fun k => ?_ }
  by_cases hk : k = j
  · subst hk
    simpa [Stream.setJanitor] using hpc.mono
  · simpa [Stream.setJanitor, update_of_ne hk] using (h.janitors k).mono

/-! ### Producers and consumers -/

theorem Inv.of_entries_sublist {es : List StreamId} (h : s.Inv) (hsub : es.Sublist s.entries) :
    { s with entries := es }.Inv :=
  { h with
    sorted := h.sorted.sublist hsub
    positive := fun e he => h.positive e (hsub.subset he)
    appended := fun e he => h.appended e (hsub.subset he)
    read := fun e he => h.read e (hsub.subset he)
    kept := fun e he => h.kept e (hsub.subset he)
    janitors := fun j => (h.janitors j).mono le_rfl fun _ he => .inl (hsub.subset he) }

theorem Inv.append {entry : StreamId} (h : s.Inv) (hid : s.lastId < entry) :
    { s with entries := s.entries ++ [entry], lastId := entry }.Inv := by
  have hfresh : s.lastDelivered < entry := lt_of_le_of_lt h.frontier hid
  have hbefore : ∀ e ∈ s.entries, e < entry := fun e he => lt_of_le_of_lt (h.appended e he) hid
  refine { h with
    sorted := pairwise_append.mpr ⟨h.sorted, pairwise_singleton _ _, ?_⟩
    positive := forall_mem_append.mpr ⟨h.positive, ?_⟩
    appended := forall_mem_append.mpr ⟨fun e he => le_of_lt (hbefore e he), ?_⟩
    frontier := le_of_lt hfresh
    read := forall_mem_append.mpr ⟨h.read, ?_⟩
    kept := forall_mem_append.mpr ⟨h.kept, ?_⟩
    janitors := fun j => (h.janitors j).mono le_rfl (forall_mem_append.mpr ⟨fun _ => .inl, ?_⟩) }
    <;> simp only [forall_mem_singleton]
  · exact hbefore
  · exact lt_of_le_of_lt (StreamId.zero_le _) hid
  · exact le_rfl
  · exact fun hle => absurd hle (not_le_of_gt hfresh)
  · exact fun hd => absurd (h.delivered_le _ hd) (not_le_of_gt hfresh)
  · exact .inr hfresh

theorem Inv.xadd {entry : StreamId} {dropped : Nat} (h : s.Inv)
    (hstep : s.xadd entry dropped = some s') : s'.Inv := by
  simp only [Stream.xadd] at hstep
  split at hstep
  · rename_i hid
    cases hstep
    exact (h.append hid).of_entries_sublist (drop_sublist _ _)
  · cases hstep

theorem mem_take_of_le {l : List StreamId} (hl : l.Pairwise (· < ·)) {n : Nat} (he : e ∈ l)
    (hx : x ∈ l.take n) (hle : e ≤ x) : e ∈ l.take n := by
  rw [← take_append_drop n l, pairwise_append] at hl
  rw [← take_append_drop n l, mem_append] at he
  rcases he with htake | hdrop
  · exact htake
  · exact absurd (lt_of_lt_of_le (hl.2.2 x hx e hdrop) hle) (lt_irrefl x)

theorem getLastD_cases (batch : List StreamId) (old : StreamId) :
    (batch = [] ∧ batch.getLast?.getD old = old)
      ∨ batch.getLast?.getD old ∈ batch := by
  cases hlast : batch.getLast? with
  | none => exact .inl ⟨getLast?_eq_none_iff.mp hlast, rfl⟩
  | some x => exact .inr (mem_of_getLast? hlast)

theorem mem_undelivered (he : e ∈ s.undelivered count) :
    e ∈ s.entries ∧ s.lastDelivered < e := by
  have hfilter := mem_of_mem_take he
  simpa using hfilter

section

variable (h : s.Inv)

include h

theorem Inv.undelivered_le (he : e ∈ s.undelivered count) :
    e ≤ (s.undelivered count).getLast?.getD s.lastDelivered := by
  have hsorted : (s.undelivered count).Pairwise (· < ·) :=
    (h.sorted.sublist filter_sublist).sublist (take_sublist _ _)
  cases hlast : (s.undelivered count).getLast? with
  | none =>
    rw [getLast?_eq_none_iff.mp hlast] at he
    cases he
  | some x =>
    obtain ⟨init, hinit⟩ := getLast?_eq_some_iff.mp hlast
    rw [hinit, pairwise_append] at hsorted
    rw [hinit, mem_append, mem_singleton] at he
    rcases he with hin | rfl
    · exact le_of_lt (hsorted.2.2 e hin x (mem_singleton_self x))
    · exact le_refl _

variable (consumer : Nat)

theorem Inv.xreadgroup (count : Nat) : (s.xreadgroup consumer count).Inv := by
  have hsorted : (s.entries.filter (s.lastDelivered < ·)).Pairwise (· < ·) :=
    h.sorted.sublist filter_sublist
  have hlast := getLastD_cases (s.undelivered count) s.lastDelivered
  have hup : s.lastDelivered ≤ (s.undelivered count).getLast?.getD s.lastDelivered := by
    rcases hlast with ⟨-, heq⟩ | hmem
    · exact le_of_eq heq.symm
    · exact le_of_lt (Stream.mem_undelivered hmem).2
  refine { h with frontier := ?_, read := ?_, delivered_le := ?_, kept := ?_, pending := ?_,
                  janitors := ?_ }
  · rcases hlast with ⟨-, heq⟩ | hmem
    · exact le_of_eq_of_le heq h.frontier
    · exact h.appended _ (Stream.mem_undelivered hmem).1
  · intro e he hle
    refine mem_append.mpr ?_
    by_cases hold : e ≤ s.lastDelivered
    · exact .inl (h.read e he hold)
    · -- above the old frontier and not above the new one: an entry of the batch
      have hin : e ∈ s.entries.filter (s.lastDelivered < ·) := by
        simpa using ⟨he, lt_of_not_ge hold⟩
      rcases hlast with ⟨-, heq⟩ | hmem
      · exact absurd (le_of_le_of_eq hle heq) hold
      · exact .inr (mem_take_of_le hsorted hin hmem hle)
  · intro e he
    rcases mem_append.mp he with hold | hnew
    · exact le_trans (h.delivered_le e hold) hup
    · exact h.undelivered_le hnew
  · intro e he hd
    show e ∈ s.acked
      ∨ e ∈ (s.pel ++ (s.undelivered count).map fun e => Pending.mk e consumer).map Pending.id
    rw [map_append, mem_append]
    rcases mem_append.mp hd with hold | hnew
    · exact (h.kept e he hold).imp_right .inl
    · refine .inr (.inr ?_)
      simpa [comp_def] using hnew
  · intro p hp
    rcases mem_append.mp hp with hold | hnew
    · exact ⟨(h.pending p hold).1, le_trans (h.pending p hold).2 hup⟩
    · obtain ⟨e, he, rfl⟩ := mem_map.mp hnew
      exact ⟨h.positive e (Stream.mem_undelivered he).1, h.undelivered_le he⟩
  · intro j
    exact (h.janitors j).mono hup (fun _ => .inl) fun _ => mem_append_left _

theorem Inv.xack (entry : StreamId) : (s.xack entry).Inv := by
  unfold Stream.xack
  split
  case isFalse => exact h
  case isTrue hin =>
  refine { h with
    kept := ?_, pending := fun p hp => h.pending p (mem_of_mem_filter hp), janitors := ?_ }
  · intro e he hd
    by_cases heq : e = entry
    · exact .inl (mem_cons.mpr (.inl heq))
    · rcases h.kept e he hd with hacked | hpel
      · exact .inl (.tail _ hacked)
      · obtain ⟨p, hp, rfl⟩ := mem_map.mp hpel
        refine .inr (mem_map.mpr ⟨p, ?_, rfl⟩)
        simpa using ⟨hp, heq⟩
  · intro j
    exact (h.janitors j).mono le_rfl (fun _ => .inl) (fun _ => id) fun _ => .tail _

theorem Inv.xautoclaim (ids : List StreamId) : (s.xautoclaim consumer ids).Inv := by
  have hid : ∀ p : Pending,
      (if p.id ∈ ids then { p with consumer := consumer } else p).id = p.id := by
    intro p
    split <;> rfl
  refine { h with kept := ?_, pending := ?_, janitors := ?_ }
  · intro e he hd
    rcases h.kept e he hd with hacked | hpel
    · exact .inl hacked
    · obtain ⟨p, hp, rfl⟩ := mem_map.mp hpel
      refine .inr (mem_map.mpr ⟨_, mem_map.mpr ⟨p, ?_, rfl⟩, hid p⟩)
      simpa using ⟨hp, .inr he⟩
  · intro q hq
    obtain ⟨p, hp, rfl⟩ := mem_map.mp hq
    rw [hid]
    exact h.pending p (mem_of_mem_filter hp)
  · intro j
    exact (h.janitors j).mono

/-! ### The janitor's three commands -/

theorem Inv.settled (he : e ∈ s.entries) (hle : e ≤ s.lastDelivered)
    (hpel : e ∉ s.pel.map Pending.id) : s.Settled e :=
  ⟨h.read e he hle, (h.kept e he (h.read e he hle)).resolve_right hpel⟩

theorem Inv.settled_of_lt_pending (hm : s.minPending = some m) (he : e ∈ s.entries)
    (hlt : e < m) : s.Settled e := by
  obtain ⟨p, hp, rfl⟩ := mem_map.mp (min?_mem hm)
  refine h.settled he (le_of_lt (lt_of_lt_of_le hlt (h.pending p hp).2)) fun hpel => ?_
  exact absurd ((min?_eq_some_iff.mp hm).2 e hpel) (not_le_of_gt hlt)

theorem Inv.settled_of_no_pending (hm : s.minPending = none) (he : e ∈ s.entries)
    (hle : e ≤ s.lastDelivered) : s.Settled e := by
  refine h.settled he hle fun hpel => ?_
  rw [min?_eq_none_iff.mp hm] at hpel
  cases hpel

omit h in
theorem present_eq_some {i : Option StreamId} (h : present i = some x) : i = some x := by
  cases i with
  | none => cases h
  | some y =>
    simp only [present] at h
    split at h
    · cases h
    · exact h

theorem Inv.present_minPending : present s.minPending = s.minPending := by
  cases hm : s.minPending with
  | none => rfl
  | some m =>
    obtain ⟨p, hp, rfl⟩ := mem_map.mp (min?_mem hm)
    have hne : p.id ≠ StreamId.zero := ne_of_gt (h.pending p hp).1
    simp [present, hne]

/-- **The floor is sound when it is computed.** `ld` is a frontier read earlier. -/
theorem Inv.trimFloor_sound {ld f : StreamId} (hld : ld ≤ s.lastDelivered)
    (hf : trimFloor ld s.minPending = some f) :
    f ≤ s.lastDelivered ∧ ∀ e ∈ s.entries, e < f → s.Settled e := by
  simp only [trimFloor, h.present_minPending] at hf
  cases hm : s.minPending with
  | none =>
    rw [hm] at hf
    obtain rfl : ld = f := Option.some.inj (present_eq_some hf)
    refine ⟨hld, ?_⟩
    intro e he hlt
    exact h.settled_of_no_pending hm he (le_of_lt (lt_of_lt_of_le hlt hld))
  | some m =>
    have hmle : m ≤ s.lastDelivered := by
      obtain ⟨p, hp, rfl⟩ := mem_map.mp (min?_mem hm)
      exact (h.pending p hp).2
    rw [hm] at hf
    cases hpld : present (some ld) with
    | none =>
      rw [hpld] at hf
      obtain rfl : m = f := Option.some.inj hf
      exact ⟨hmle, fun e he hlt => h.settled_of_lt_pending hm he hlt⟩
    | some l =>
      rw [hpld] at hf
      obtain rfl : min m l = f := Option.some.inj hf
      refine ⟨le_trans (min_le_left _ _) hmle, ?_⟩
      intro e he hlt
      exact h.settled_of_lt_pending hm he (lt_of_lt_of_le hlt (min_le_left _ _))

theorem Inv.xpending {text : Text} (hpc : s.janitor j = .sawGroups text) :
    (s.xpending j text).Inv := by
  have hknown := h.janitors j
  rw [hpc] at hknown
  obtain ⟨ld, rfl, hld⟩ := hknown
  rw [Stream.xpending, computeTrimFloor_render]
  cases hf : trimFloor ld s.minPending with
  | none => exact h.setJanitor trivial
  | some f =>
    obtain ⟨hle, hbelow⟩ := h.trimFloor_sound hld hf
    exact h.setJanitor ⟨f, rfl, hle, hbelow⟩

theorem Inv.xtrim (j : Nat) (floor : Text) (spared : List StreamId) :
    (s.xtrim j floor spared).Inv := by
  have hidle : (s.setJanitor j .idle).Inv := h.setJanitor trivial
  unfold Stream.xtrim
  split
  · exact hidle.of_entries_sublist filter_sublist
  · exact hidle

/-! ## Runs -/

theorem Inv.next {c : Command} (hstep : stream.next s c = some s') : s'.Inv := by
  cases c with
  | xadd entry dropped => exact h.xadd hstep
  | xreadgroup consumer count =>
    cases hstep
    exact h.xreadgroup consumer count
  | xack entry =>
    cases hstep
    exact h.xack entry
  | xautoclaim consumer ids =>
    cases hstep
    exact h.xautoclaim consumer ids
  | xinfo j =>
    cases hpc : s.janitor j <;> simp only [stream, hpc] at hstep <;> cases hstep
    exact h.setJanitor ⟨s.lastDelivered, rfl, le_refl _⟩
  | xpending j =>
    cases hpc : s.janitor j <;> simp only [stream, hpc] at hstep <;> cases hstep
    exact h.xpending hpc
  | xtrim j spared =>
    cases hpc : s.janitor j <;> simp only [stream, hpc] at hstep <;> cases hstep
    exact h.xtrim j _ spared

end

theorem inv_of_run {cs : List Command} (hrun : stream.run Stream.init cs = some s) : s.Inv :=
  stream.run_preserves Stream.Inv (fun _ _ _ h hstep => h.next hstep) Stream.inv_init hrun

end Stream

/-- **Trimming never loses a result.** Whatever the consumers, the producers and the other
janitors do between the three commands of a pass, every entry its `XTRIM` removes had been
delivered to the group and acknowledged. -/
theorem xtrim_removes_settled {s s' : Stream} {cs : List Command} {j : Nat}
    {spared : List StreamId} (hrun : stream.run Stream.init cs = some s)
    (htrim : stream.next s (.xtrim j spared) = some s') :
    ∀ e ∈ s.entries, e ∉ s'.entries → e ∈ s.delivered ∧ e ∈ s.acked := by
  have hinv := Stream.inv_of_run hrun
  intro e he hgone
  cases hpc : s.janitor j <;> simp only [stream, hpc] at htrim <;> cases htrim
  have hknown := hinv.janitors j
  rw [hpc] at hknown
  obtain ⟨f, rfl, -, hbelow⟩ := hknown
  refine hbelow e he (lt_of_not_ge fun hge => hgone ?_)
  simp only [Stream.xtrim, idTuple_render]
  simpa [Stream.setJanitor] using ⟨he, .inl hge⟩

/-- Two results are read and the first is acknowledged between the janitor's reads; a third
arrives before the trim, which removes the first. -/
def trimPass : List Command :=
  [.xadd (toLex (9, 0)) 0, .xadd (toLex (10, 0)) 0, .xreadgroup 0 2, .xinfo 1,
    .xack (toLex (9, 0)), .xpending 1, .xadd (toLex (11, 0)) 0]

/-- The state before the trim: `10-0` is pending, and it is the floor. -/
def trimPassState : Stream where
  entries := [toLex (9, 0), toLex (10, 0), toLex (11, 0)]
  lastId := toLex (11, 0)
  lastDelivered := toLex (10, 0)
  pel := [⟨toLex (10, 0), 0⟩]
  delivered := [toLex (9, 0), toLex (10, 0)]
  acked := [toLex (9, 0)]
  janitor := update
    (update (fun _ => .idle) 1 (.sawGroups ['1', '0', '-', '0']))
    1 (.trimming ['1', '0', '-', '0'])

theorem trimPass_run : stream.run Stream.init trimPass = some trimPassState := by rfl

theorem trimPass_removes_settled :
    toLex (9, 0) ∈ trimPassState.entries
      ∧ toLex (9, 0) ∉ (trimPassState.xtrim 1 ['1', '0', '-', '0'] []).entries
      ∧ toLex (9, 0) ∈ trimPassState.delivered ∧ toLex (9, 0) ∈ trimPassState.acked := by
  have hgone : toLex (9, 0) ∉ (trimPassState.xtrim 1 ['1', '0', '-', '0'] []).entries := by
    decide
  refine ⟨by decide, hgone, ?_⟩
  exact xtrim_removes_settled (j := 1) trimPass_run rfl _ (by decide) hgone

end IsardVDI.ChangeHandler
