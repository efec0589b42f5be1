import IsardVDI.Engine.MemoryBacking
import IsardVDI.Lib.Machine

/-!
# Starts in flight and the placement of desktops

`_get_next_capabilities_virt` reads the rows of the hypervisors and then, under the lock of the
balancer, plans the desktop on each of them with the row's figures and the pending starts of the
host. The start it chooses is pending until the worker of the host has written figures that include
it and calls `release_pending_start`. Rows are read, figures written and starts released in any
order.
-/

namespace IsardVDI.Engine.Pending

open Memory
open List Function Option

/-- A row of `hypervisors`. The desktops whose memory its figures include are those that ran at
the sample. -/
structure Row (D : Type) where
  memStats : MemStats
  counted : List D
  hugepagesInfo : HugepagesInfo
  minFreeMemGb : Nat

/-- An entry of `_pending_ram`; some callers name no domain. -/
structure Entry (D : Type) where
  ramKb : Nat
  domain : Option D
  backing : Backing

/-- A placement between its first read and its locked section, with the rows it has read. -/
structure Reader (D H : Type) where
  domain : Option D
  memoryKb : Nat
  hypers : List (H × Row D)

/-- `n` is the number of threads. -/
structure State (n : Nat) (D H : Type) where
  rows : H → Row D
  pending : H → List (Entry D)
  readers : Fin n → Option (Reader D H)
  /-- the desktops placed on the host that have not stopped -/
  placed : H → List D
  running : H → List D
  /-- the desktops that ran on the host at one of its stats writes -/
  included : H → List D

variable {n : Nat} {D H : Type} [DecidableEq D] [DecidableEq H]

/-! ## The pending table -/

variable (entries : List (Entry D))

def drop (domain : D) : List (Entry D) :=
  entries.filter fun entry => entry.domain ≠ some domain

def record (entry : Entry D) : List (Entry D) :=
  (match entry.domain with
    | some domain => drop entries domain
    | none => entries) ++ [entry]

def pendingRamKb (backing : Backing) : Nat :=
  ((entries.filter (·.backing = backing)).map (·.ramKb)).sum

def IsPending (domain : D) : Prop :=
  ∃ entry ∈ entries, entry.domain = some domain

variable {entries : List (Entry D)}

theorem isPending_drop {domain other : D} (hne : domain ≠ other) (h : IsPending entries domain) :
    IsPending (drop entries other) domain := by
  obtain ⟨entry, hmem, hdomain⟩ := h
  have hkept : entry.domain ≠ some other := fun heq =>
    hne (Option.some.inj (hdomain.symm.trans heq))
  exact ⟨entry, mem_filter.mpr ⟨hmem, by simpa using hkept⟩, hdomain⟩

theorem isPending_record {entry : Entry D} {domain : D}
    (h : entry.domain = some domain ∨ IsPending entries domain) :
    IsPending (record entries entry) domain := by
  by_cases hself : entry.domain = some domain
  · exact ⟨entry, mem_append_right _ (.head _), hself⟩
  · have hold : IsPending entries domain := h.resolve_left hself
    suffices hkept : IsPending (match entry.domain with
        | some domain => drop entries domain
        | none => entries) domain by
      obtain ⟨entry', hmem, hdomain⟩ := hkept
      exact ⟨entry', mem_append_left _ hmem, hdomain⟩
    split
    case h_1 other hother =>
      exact isPending_drop (fun heq => hself (heq ▸ hother)) hold
    case h_2 => exact hold

/-! ## The placement -/

namespace State

variable (s : State n D H)

def setReader (t : Fin n) (reader : Option (Reader D H)) : State n D H :=
  { s with readers := update s.readers t reader }

def planBacking (memoryKb : Nat) (hyper : H × Row D) : Option Backing :=
  planMemoryBacking hyper.2.memStats hyper.2.hugepagesInfo hyper.2.minFreeMemGb memoryKb
    (pendingRamKb (s.pending hyper.1) .regular) (pendingRamKb (s.pending hyper.1) .hugepages)

def withRoom (reader : Reader D H) : List (H × Backing) :=
  reader.hypers.filterMap fun hyper =>
    (s.planBacking reader.memoryKb hyper).map fun backing => (hyper.1, backing)

def charge (hyp : H) (reader : Reader D H) (backing : Backing) : State n D H :=
  { s with
    pending := update s.pending hyp
      (record (s.pending hyp) ⟨reader.memoryKb, reader.domain, backing⟩)
    placed := update s.placed hyp (reader.domain.toList ++ s.placed hyp) }

/-- The locked section, with the answer of the balancer: one of the hosts with room, if any. -/
def place (t : Fin n) (answer : H) : Option (State n D H) :=
  match s.readers t with
  | none => none
  | some reader =>
    match (s.withRoom reader).lookup answer with
    | some backing => some ((s.charge answer reader backing).setReader t none)
    -- no hypervisor has memory for the desktop
    | none => if s.withRoom reader = [] then some (s.setReader t none) else none

def readRow (t : Fin n) (hyp : H) : Option (State n D H) :=
  match s.readers t with
  | none => none
  | some reader =>
    if hyp ∈ reader.hypers.map Prod.fst then none
    else some (s.setReader t (some { reader with hypers := reader.hypers ++ [(hyp, s.rows hyp)] }))

end State

inductive Event (n : Nat) (D H : Type)
  | query (t : Fin n) (domain : Option D) (memoryKb : Nat)
  | readRow (t : Fin n) (hyp : H)
  | place (t : Fin n) (answer : H)
  | boot (hyp : H) (domain : D)
  /-- the desktop stops, or its start fails -/
  | stop (hyp : H) (domain : D)
  /-- a stats write of the host's worker -/
  | stats (hyp : H) (memStats : MemStats) (counted : List D)
  /-- `release_pending_start` -/
  | release (hyp : H) (domain : D)

def placement : Machine (State n D H) (Event n D H) where
  next s
    | .query t domain memoryKb =>
      if (s.readers t).isSome then none else some (s.setReader t (some ⟨domain, memoryKb, []⟩))
    | .readRow t hyp => s.readRow t hyp
    | .place t answer => s.place t answer
    | .boot hyp domain =>
      if domain ∈ s.placed hyp then
        some { s with running := update s.running hyp (domain :: s.running hyp) }
      else none
    | .stop hyp domain =>
      some { s with
        running := update s.running hyp ((s.running hyp).filter (· ≠ domain))
        placed := update s.placed hyp ((s.placed hyp).filter (· ≠ domain)) }
    | .stats hyp memStats counted =>
      if ∀ domain ∈ s.running hyp, domain ∈ counted then
        some { s with
          rows := update s.rows hyp
            { s.rows hyp with memStats := memStats, counted := counted }
          included := update s.included hyp (s.included hyp ++ s.running hyp) }
      else none
    -- made after a stats write that includes a start of the desktop
    | .release hyp domain =>
      if domain ∈ s.included hyp then
        some { s with pending := update s.pending hyp (drop (s.pending hyp) domain) }
      else none

variable (rows : H → Row D)

def initial : State n D H where
  rows := rows
  pending _ := []
  readers _ := none
  placed _ := []
  running _ := []
  included _ := []

/-! ## Every start is counted -/

variable (s : State n D H)

/-- In the locked section, every desktop placed on a host whose row it uses is counted in that row
or pending on that host. -/
def Event.Safe : Event n D H → Prop
  | .place t _ =>
    ∀ reader ∈ s.readers t, ∀ hyper ∈ reader.hypers, ∀ domain ∈ s.placed hyper.1,
      domain ∈ hyper.2.counted ∨ IsPending (s.pending hyper.1) domain
  | _ => True

/-- The rows of the host that placements have read and not used yet count the desktop. -/
def State.AllRead (hyp : H) (domain : D) : Prop :=
  ∀ t, ∀ reader ∈ s.readers t, ∀ hyper ∈ reader.hypers, hyper.1 = hyp → domain ∈ hyper.2.counted

instance (s : State n D H) (hyp : H) (domain : D) : Decidable (s.AllRead hyp domain) :=
  inferInstanceAs (Decidable (∀ t, ∀ _ ∈ s.readers t, ∀ _ ∈ _, _ → _))

/-- The desktop runs and needs no pending entry. -/
def State.Shown (hyp : H) (domain : D) : Prop :=
  domain ∈ s.running hyp ∧ domain ∈ (s.rows hyp).counted ∧ s.AllRead hyp domain

instance (s : State n D H) (hyp : H) (domain : D) : Decidable (s.Shown hyp domain) :=
  inferInstanceAs (Decidable (_ ∧ _))

/-- **A start is released when all can see it.** The desktop's present start on the host, if there
is one, runs and is in the row, and in the rows that placements on their way have read. -/
def Event.Careful : Event n D H → Prop
  | .release hyp domain => domain ∈ s.placed hyp → s.Shown hyp domain
  | _ => True

instance (s : State n D H) : ∀ event : Event n D H, Decidable (event.Careful s)
  | .release _ _ => inferInstanceAs (Decidable (_ → _))
  | .query _ _ _ | .readRow _ _ | .place _ _ => isTrue trivial
  | .boot _ _ | .stop _ _ | .stats _ _ _ => isTrue trivial

def Inv : Prop :=
  ∀ hyp, ∀ domain ∈ s.placed hyp, IsPending (s.pending hyp) domain ∨ s.Shown hyp domain

omit [DecidableEq D] [DecidableEq H] in
theorem inv_initial : Inv (initial rows : State n D H) :=
  nofun

variable {reader : Reader D H} {backing : Backing}

namespace Inv

variable {s s' : State n D H} {t : Fin n} {hyp answer : H} {domain : D}

variable (h : Inv s)

include h

section

omit [DecidableEq D] [DecidableEq H]

theorem safe : (Event.place t answer).Safe s := by
  intro reader hreader hyper hmem domain hplaced
  rcases h hyper.1 domain hplaced with hpending | ⟨-, -, hread⟩
  · exact .inr hpending
  · exact .inl (hread t reader hreader hyper hmem rfl)

theorem setReader {reader : Option (Reader D H)}
    (hnew : ∀ r ∈ reader, ∀ hyper ∈ r.hypers, ∀ domain, s.Shown hyper.1 domain →
      domain ∈ hyper.2.counted) : Inv (s.setReader t reader) := by
  intro hyp domain hplaced
  rcases h hyp domain hplaced with hpending | hshown
  · exact .inl hpending
  · refine .inr ⟨hshown.1, hshown.2.1, fun t' r hr hyper hmem hhyp => ?_⟩
    change r ∈ update s.readers t reader t' at hr
    by_cases heq : t' = t
    · rw [heq, update_self] at hr
      exact hnew r hr hyper hmem domain (hhyp ▸ hshown)
    · rw [update_of_ne heq] at hr
      exact hshown.2.2 t' r hr hyper hmem hhyp

end

section

omit [DecidableEq D]

theorem readRow (hnext : s.readRow t hyp = some s') : Inv s' := by
  unfold State.readRow at hnext
  cases hreader : s.readers t with
  | none =>
    rw [hreader] at hnext
    cases hnext
  | some reader =>
    rw [hreader] at hnext
    obtain ⟨-, ⟨⟩⟩ := ite_none_left_eq_some.mp hnext
    apply h.setReader
    rintro r ⟨⟩ hyper hmem domain ⟨-, hrow, hread⟩
    -- the rows read before count what is shown, and so does the row as it is now
    rcases mem_append.mp hmem with hold | hlast
    · exact hread t reader hreader hyper hold rfl
    · rw [mem_singleton.mp hlast] at hrow ⊢
      exact hrow

theorem setRunning {running placed : List D} (hplaced : ∀ domain ∈ placed, domain ∈ s.placed hyp)
    (hrunning : ∀ domain ∈ placed, domain ∈ s.running hyp → domain ∈ running) :
    Inv { s with
      running := update s.running hyp running
      placed := update s.placed hyp placed } := by
  intro hyp' domain hmem
  change domain ∈ update s.placed hyp placed hyp' at hmem
  show IsPending (s.pending hyp') domain ∨ domain ∈ update s.running hyp running hyp'
    ∧ domain ∈ (s.rows hyp').counted ∧ s.AllRead hyp' domain
  by_cases heq : hyp' = hyp
  · subst heq
    rw [update_self] at hmem ⊢
    refine (h hyp' domain (hplaced domain hmem)).imp_right fun hshown => ?_
    exact ⟨hrunning domain hmem hshown.1, hshown.2⟩
  · rw [update_of_ne heq] at hmem ⊢
    exact h hyp' domain hmem

theorem boot :
    Inv { s with running := update s.running hyp (domain :: s.running hyp) } := by
  have hset : Inv { s with
      running := update s.running hyp (domain :: s.running hyp)
      placed := update s.placed hyp (s.placed hyp) } :=
    h.setRunning (fun _ hmem => hmem) fun _ _ hmem => .tail _ hmem
  rwa [update_eq_self] at hset

theorem stats {memStats : MemStats} {counted : List D} {included : H → List D}
    (hcounted : ∀ domain ∈ s.running hyp, domain ∈ counted) :
    Inv { s with
      rows := update s.rows hyp
        { s.rows hyp with memStats := memStats, counted := counted }
      included := included } := by
  intro hyp' domain hplaced
  refine (h hyp' domain hplaced).imp_right fun ⟨hrunning, hrow, hread⟩ => ⟨hrunning, ?_, hread⟩
  show domain ∈ (update s.rows hyp _ hyp').counted
  by_cases heq : hyp' = hyp
  · subst heq
    rw [update_self]
    exact hcounted domain hrunning
  · rw [update_of_ne heq]
    exact hrow

end

theorem charge : Inv (s.charge hyp reader backing) := by
  intro hyp' domain hplaced
  change domain ∈ update s.placed hyp _ hyp' at hplaced
  change IsPending (update s.pending hyp _ hyp') domain ∨ s.Shown hyp' domain
  by_cases heq : hyp' = hyp
  · subst heq
    rw [update_self] at hplaced ⊢
    -- the entry of the new start replaces one of the same desktop only
    rcases mem_append.mp hplaced with hnew | hold
    · exact .inl (isPending_record (.inl (mem_toList.mp hnew)))
    · exact (h hyp' domain hold).imp_left fun hpending => isPending_record (.inr hpending)
  · rw [update_of_ne heq] at hplaced ⊢
    exact h hyp' domain hplaced

theorem place (hnext : s.place t answer = some s') : Inv s' := by
  unfold State.place at hnext
  split at hnext
  case h_1 => cases hnext
  case h_2 reader hreader =>
    split at hnext
    case h_1 backing hlookup =>
      cases hnext
      exact h.charge.setReader nofun
    case h_2 hlookup =>
      obtain ⟨-, ⟨⟩⟩ := ite_none_right_eq_some.mp hnext
      exact h.setReader nofun

theorem stop :
    Inv { s with
      running := update s.running hyp ((s.running hyp).filter (· ≠ domain))
      placed := update s.placed hyp ((s.placed hyp).filter (· ≠ domain)) } := by
  apply h.setRunning
  · exact fun _ hmem => (mem_filter.mp hmem).1
  · exact fun _ hmem hrunning => mem_filter.mpr ⟨hrunning, (mem_filter.mp hmem).2⟩

theorem release (hcareful : (Event.release hyp domain).Careful s) :
    Inv { s with pending := update s.pending hyp (drop (s.pending hyp) domain) } := by
  intro hyp' domain' hplaced
  show IsPending (update s.pending hyp _ hyp') domain' ∨ s.Shown hyp' domain'
  by_cases heq : hyp' = hyp
  · subst heq
    rw [update_self]
    by_cases hself : domain' = domain
    · -- its entry is gone: the figures have to show it
      subst hself
      exact .inr (hcareful hplaced)
    · exact (h hyp' domain' hplaced).imp_left (isPending_drop hself)
  · rw [update_of_ne heq]
    exact h hyp' domain' hplaced

theorem next {event : Event n D H} (hcareful : event.Careful s)
    (hnext : placement.next s event = some s') : Inv s' := by
  cases event with
  | query t domain memoryKb =>
    obtain ⟨-, ⟨⟩⟩ := ite_none_left_eq_some.mp hnext
    exact h.setReader (by rintro r ⟨⟩ hyper ⟨⟩)
  | readRow t hyp => exact h.readRow hnext
  | place t answer => exact h.place hnext
  | boot hyp domain =>
    obtain ⟨-, ⟨⟩⟩ := ite_none_right_eq_some.mp hnext
    exact h.boot
  | stop hyp domain =>
    cases hnext
    exact h.stop
  | stats hyp memStats counted =>
    obtain ⟨hcounted, ⟨⟩⟩ := ite_none_right_eq_some.mp hnext
    exact h.stats hcounted
  | release hyp domain =>
    obtain ⟨-, ⟨⟩⟩ := ite_none_right_eq_some.mp hnext
    exact h.release hcareful

end Inv

/-! ## Every run -/

/-- **No start in flight is overlooked.** Where every start is released when all can see it, every
locked section counts, for each host it considers, the desktops placed there before that have not
stopped: in the row it uses or among the pending starts. -/
theorem starts_in_flight_counted {events : List (Event n D H)}
    (hcareful : placement.Meets (fun s event => event.Careful s) (initial rows) events) :
    placement.Meets (fun s event => event.Safe s) (initial rows) events := by
  refine placement.meets_of_invariant _ _ Inv (fun _ _ _ h hcareful hnext => h.next hcareful hnext)
    (fun s event h _ => ?_) (inv_initial rows) hcareful
  cases event with
  | place t answer => exact h.safe
  | query | readRow | boot | stop | stats | release => trivial

instance (entries : List (Entry D)) (domain : D) : Decidable (IsPending entries domain) :=
  inferInstanceAs (Decidable (∃ _ ∈ entries, _))

def figures (availableGb : Nat) : MemStats where
  available := some (availableGb * gibKb : Nat)
  total := (8 * gibKb : Nat)
  hugepagesTotal := 0
  hugepagesUsed := 0
  hugepagesFree := 0
  guests := none

def host : Unit → Row Nat := fun _ =>
  { memStats := figures 6
    counted := []
    hugepagesInfo := { mounted := false, mountSizes := none, total := fun _ => 0 }
    minFreeMemGb := 1 }

/-- Desktop 0 takes 4 GiB; the placement of desktop 1 reads the row after the stats write. -/
def readAfterWrite (t t' : Fin 2) : List (Event 2 Nat Unit) :=
  [.query t (some 0) (4 * gibKb), .readRow t (), .place t (), .boot () 0,
    .query t' (some 1) (4 * gibKb), .stats () (figures 2) [0], .readRow t' (), .release () 0,
    .place t' ()]

/-- Desktop 1 finds no room. -/
theorem readAfterWrite_counted :
    ∃ s, placement.run (initial host) (readAfterWrite 0 1) = some s ∧ s.placed () = [0]
      ∧ placement.Meets (fun s event => event.Safe s) (initial host) (readAfterWrite 0 1) := by
  have hcareful : placement.Meets (fun s event => event.Careful s) (initial host)
      (readAfterWrite 0 1) := by decide +kernel
  exact ⟨_, rfl, by decide +kernel, starts_in_flight_counted host hcareful⟩

/-- Desktop 1 reads the row before the stats write, and the start of desktop 0 is released before
its locked section. -/
def readBeforeWrite (t t' : Fin 2) : List (Event 2 Nat Unit) :=
  [.query t (some 0) (4 * gibKb), .readRow t (), .place t (), .boot () 0,
    .query t' (some 1) (4 * gibKb), .readRow t' (), .stats () (figures 2) [0], .release () 0]

/-- The section counts desktop 0 nowhere and places desktop 1, for which the host has no room. -/
theorem start_overlooked :
    ∃ s s', placement.run (initial host) (readBeforeWrite 0 1) = some s
      ∧ placement.next s (.place 1 ()) = some s' ∧ ¬(Event.place 1 ()).Safe s
      ∧ s.running () = [0] ∧ s'.placed () = [1, 0]
      ∧ s.planBacking (4 * gibKb) ((), s.rows ()) = none := by
  refine ⟨_, _, rfl, rfl, fun hsafe => ?_, by decide +kernel, by decide +kernel, by decide +kernel⟩
  rcases hsafe _ rfl _ (.head _) 0 (by decide +kernel) with hrow | hpending
  · exact absurd hrow (by decide +kernel)
  · exact absurd hpending (by decide +kernel)

/-! ## Between two samples

While the rows stay as they are, the starts in flight are all that changes, and each of them was
planned beside those before it. -/

inductive Step (D H : Type)
  | place (domain : Option D) (memoryKb : Nat) (hypers : List H) (answer : H)
  | release (hyp : H) (domain : D)

/-- Placements on any hosts that are online, each with any answer of the balancer, and releases. -/
def sampled : Machine (State n D H) (Step D H) where
  next s
    | .place domain memoryKb hypers answer =>
      let reader : Reader D H := ⟨domain, memoryKb, hypers.map fun hyp => (hyp, s.rows hyp)⟩
      match (s.withRoom reader).lookup answer with
      | some backing => some (s.charge answer reader backing)
      | none => if s.withRoom reader = [] then some s else none
    | .release hyp domain =>
      some { s with pending := update s.pending hyp (drop (s.pending hyp) domain) }

variable (entries : List (Entry D))

theorem pendingRamKb_drop_le (domain : D) (backing : Backing) :
    pendingRamKb (drop entries domain) backing ≤ pendingRamKb entries backing :=
  ((filter_sublist.filter _).map _).sum_le_sum fun _ _ => Nat.zero_le _

theorem pendingRamKb_record_le (entry : Entry D) (backing : Backing) :
    pendingRamKb (record entries entry) backing
      ≤ pendingRamKb entries backing + if entry.backing = backing then entry.ramKb else 0 := by
  have hlast (kept : List (Entry D)) : pendingRamKb (kept ++ [entry]) backing
      = pendingRamKb kept backing + if entry.backing = backing then entry.ramKb else 0 := by
    by_cases hbacking : entry.backing = backing <;> simp [pendingRamKb, hbacking]
  rw [record, hlast]
  refine Nat.add_le_add_right ?_ _
  split
  · exact pendingRamKb_drop_le entries _ backing
  · exact le_rfl

omit [DecidableEq D] in
theorem planBacking_of_lookup {s : State n D H} {hypers : List H}
    (hrows : reader.hypers = hypers.map fun hyp => (hyp, s.rows hyp)) {answer : H}
    (hlookup : (s.withRoom reader).lookup answer = some backing) :
    s.planBacking reader.memoryKb (answer, s.rows answer) = some backing := by
  obtain ⟨before, after, heq, -⟩ := lookup_eq_some_iff.mp hlookup
  have hmem : (answer, backing) ∈ s.withRoom reader := by
    rw [heq]
    exact mem_append_right _ (.head _)
  obtain ⟨hyper, hin, hplan⟩ := mem_filterMap.mp hmem
  rw [hrows] at hin
  obtain ⟨hyp, -, rfl⟩ := mem_map.mp hin
  obtain ⟨backing', hbacking, heq⟩ := map_eq_some_iff.mp hplan
  cases heq
  exact hbacking

/-- The starts in flight fit the room that the row shows. -/
structure Fits (rows : H → Row D) (hyp : H) (available : Int) (s : State n D H) : Prop where
  same : s.rows = rows
  regular : (pendingRamKb (s.pending hyp) .regular : Int)
    ≤ max 0 (available - (rows hyp).minFreeMemGb * gibKb)
  hugepages : pendingRamKb (s.pending hyp) .hugepages ≤ (rows hyp).memStats.hugepagesFree

theorem Fits.next {rows : H → Row D} {hyp : H} {available : Int} {s s' : State n D H}
    (havailable : (rows hyp).memStats.available = some available)
    (hdecides : (rows hyp).hugepagesInfo.mounted ∨ 0 < (rows hyp).minFreeMemGb)
    (h : Fits rows hyp available s) {step : Step D H} (hnext : sampled.next s step = some s') :
    Fits rows hyp available s' := by
  obtain ⟨rfl, hregular, hhugepages⟩ := h
  cases step with
  | release other domain =>
    cases hnext
    by_cases heq : hyp = other
    · subst heq
      have hle := pendingRamKb_drop_le (s.pending hyp) domain
      refine ⟨rfl, ?_, ?_⟩ <;> simp only [update_self]
      · exact (Int.ofNat_le.mpr (hle .regular)).trans hregular
      · exact (Int.ofNat_le.mpr (hle .hugepages)).trans hhugepages
    · refine ⟨rfl, ?_, ?_⟩ <;> simpa only [update_of_ne heq]
  | place domain memoryKb hypers answer =>
    simp only [sampled] at hnext
    split at hnext
    case h_2 =>
      split_ifs at hnext
      cases hnext
      exact ⟨rfl, hregular, hhugepages⟩
    case h_1 backing hlookup =>
      cases hnext
      by_cases heq : hyp = answer
      · subst heq
        have hplan := planBacking_of_lookup rfl hlookup
        have hle := pendingRamKb_record_le (s.pending hyp) ⟨memoryKb, domain, backing⟩
        have hregular' := hle .regular
        have hhugepages' := hle .hugepages
        refine ⟨rfl, ?_, ?_⟩ <;> simp only [State.charge, update_self]
        all_goals cases backing with
        | regular =>
          have hfits := regular_fits havailable hdecides hplan
          simp only [reduceCtorEq, if_true, if_false] at hregular' hhugepages' hfits
          omega
        | hugepages =>
          have hfits := hugepages_fit hplan
          simp only [reduceCtorEq, if_true, if_false] at hregular' hhugepages' hfits
          omega
      · refine ⟨rfl, ?_, ?_⟩ <;> simpa only [State.charge, update_of_ne heq]

/-- **No host is overcommitted between two samples.** -/
theorem sampled_fits {steps : List (Step D H)} {s : State n D H}
    (hrun : sampled.run (initial rows) steps = some s) {hyp : H} {available : Int}
    (havailable : (rows hyp).memStats.available = some available)
    (hfree : 0 ≤ (rows hyp).memStats.hugepagesFree)
    (hdecides : (rows hyp).hugepagesInfo.mounted ∨ 0 < (rows hyp).minFreeMemGb) :
    (pendingRamKb (s.pending hyp) .regular : Int)
        ≤ max 0 (available - (rows hyp).minFreeMemGb * gibKb)
      ∧ pendingRamKb (s.pending hyp) .hugepages ≤ (rows hyp).memStats.hugepagesFree := by
  have hstart : Fits rows hyp available (initial rows : State n D H) :=
    ⟨rfl, le_max_left _ _, hfree⟩
  have hfits := sampled.run_preserves (Fits rows hyp available)
    (fun _ _ _ h hnext => h.next havailable hdecides hnext) hstart hrun
  exact ⟨hfits.regular, hfits.hugepages⟩

/-- The host with four pages of 1 GiB, all free. -/
def pagedHost : Unit → Row Nat := fun _ =>
  { host () with
    memStats := { figures 6 with hugepagesFree := (4 * gibKb : Nat) }
    hugepagesInfo := ⟨true, none, fun | .oneG => 4 | .twoM => 0⟩ }

def fourStarts : List (Step Nat Unit) :=
  [.place (some 0) (4 * gibKb) [()] (), .place (some 1) (4 * gibKb) [()] (),
    .place (some 2) (4 * gibKb) [()] (), .release () 0, .place (some 3) (4 * gibKb) [()] ()]

/-- Desktop 1 takes the hugepages and desktop 2 finds no room. Desktop 3 does once the start of
desktop 0 is released. -/
theorem fourStarts_fit :
    ∃ s : State 0 Nat Unit, sampled.run (initial pagedHost) fourStarts = some s
      ∧ s.placed () = [3, 1, 0] ∧ pendingRamKb (s.pending ()) .hugepages = 4 * gibKb
      ∧ (pendingRamKb (s.pending ()) .regular : Int)
        ≤ max 0 (((6 * gibKb : Nat) : Int) - ((1 : Nat) : Int) * gibKb)
      ∧ (pendingRamKb (s.pending ()) .hugepages : Int) ≤ (4 * gibKb : Nat) := by
  obtain ⟨s, hrun, hplaced, hpages⟩ : ∃ s : State 0 Nat Unit,
      sampled.run (initial pagedHost) fourStarts = some s ∧ s.placed () = [3, 1, 0]
        ∧ pendingRamKb (s.pending ()) .hugepages = 4 * gibKb :=
    ⟨_, rfl, by decide +kernel, by decide +kernel⟩
  exact ⟨s, hrun, hplaced, hpages, sampled_fits pagedHost hrun rfl (by decide) (.inl rfl)⟩

end IsardVDI.Engine.Pending
