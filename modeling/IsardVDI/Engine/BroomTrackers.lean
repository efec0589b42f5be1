import Mathlib.Algebra.Order.Ring.Rat

/-!
# What the broom remembers of a domain

`broom_reconcile.py`: `AbsenceTracker` finds the rows that no hypervisor lists, and
`IdlePausedTracker` the domains that are paused since they were started. From one pass to the next
each keeps what a domain was seen as, with how often or since when.
-/

namespace IsardVDI.Engine.Reconcile

open List Option

/-- The statuses that are told apart. -/
inductive Status
  | unknown | started | paused
  | creatingDomain | creatingAndStarting | creatingDiskFromScratch | startingDomainDisposable
  | startingPaused | starting | stopping | shuttingDown | resetting | deleting | forceDeleting
  | other (name : String)
  deriving DecidableEq, Repr

def Status.settledWhenAbsent : Status → Bool
  | .unknown | .started | .paused => true
  | _ => false

def Status.neverReaped : Status → Bool
  | .unknown | .started | .paused | .other _ => false
  | _ => true

structure Row (D : Type) where
  id : D
  status : Option Status
  /-- A hypervisor, or a truth value. -/
  hypStarted : Option (Bool ⊕ String)

def Row.hypOf {D : Type} (row : Row D) : Option String :=
  match row.hypStarted with
  | some (.inr hypId) => if hypId = "" then none else some hypId
  | _ => none

structure DomainState where
  status : Option Status
  vcpuTime : Option ℚ

/-- What a pass reads. -/
structure Pass (D : Type) where
  rows : List (Row D)
  online : List String
  listings : List (String × List (D × DomainState))
  statuses : D → Option Status
  isHeld : D → Bool
  now : ℚ

/-! ## The trackers -/

/-- What a domain was seen as, and how often or since when. -/
abbrev Memory (D K V : Type) := D → Option (K × V)

abbrev Absence := Option Status × Option String

abbrev Pause := String × ℚ × Status

variable {D K V R : Type} [DecidableEq D] [DecidableEq K]

def Memory.value (old : Memory D K V) (fresh : V) (again : V → V) (d : D) (key : K) : V :=
  match old d with
  | some (key', value) => if key' = key then again value else fresh
  | none => fresh

/-- The loop of both trackers, over what they do not skip. The last sight of a domain is kept. -/
def track (old : Memory D K V) (fresh : V) (again : V → V) (isDue : V → Bool)
    (sights : List (D × K × R)) : Memory D K V × List R :=
  (fun d => (sights.reverse.find? (·.1 = d)).map fun (_, key, _) =>
      (key, old.value fresh again d key),
    (sights.filter fun (d, key, _) => isDue (old.value fresh again d key)).map (·.2.2))

def Pass.listed (p : Pass D) : List D := p.listings.flatMap fun (_, states) => states.map (·.1)

def Pass.absences (p : Pass D) : List (D × Absence × Row D) :=
  (p.rows.filter fun row => row.status.any Status.settledWhenAbsent ∧ row.id ∉ p.listed
    ∧ p.isHeld row.id = false ∧ row.hypOf.all (· ∈ p.listings.map (·.1))).map fun row =>
      (row.id, (row.status, row.hypOf), row)

/-- `AbsenceTracker.absent`. -/
def absent (passes : Nat) (p : Pass D) (seen : Memory D Absence Nat) :
    Memory D Absence Nat × List (Row D) :=
  if p.online ≠ [] ∧ ∀ hypId ∈ p.online, hypId ∈ p.listings.map (·.1) then
    track seen 1 (· + 1) (passes ≤ ·) p.absences
  else (fun _ => none, [])

section Paused

variable (round : ℚ → ℚ) (vcpuS afterS : ℚ)

def Pass.pauses (p : Pass D) :
    List (D × Pause × (String × D × Status × ℚ)) :=
  p.listings.flatMap fun (hypId, states) => states.filterMap fun (d, state) =>
    state.vcpuTime.bind fun vcpuTime => (p.statuses d).bind fun status =>
      if state.status = some .paused ∧ vcpuTime < vcpuS ∧ status.neverReaped = false
        ∧ p.isHeld d = false
      then some (d, (hypId, round vcpuTime, status), (hypId, d, status, vcpuTime)) else none

/-- `IdlePausedTracker.due`. -/
def due (p : Pass D) (since : Memory D Pause ℚ) :
    Memory D Pause ℚ × List (String × D × Status × ℚ) :=
  track since p.now id (fun first => afterS ≤ p.now - first) (p.pauses round vcpuS)

end Paused

/-- What is remembered after some passes, the last one first. -/
def after (step : Pass D → Memory D K V → Memory D K V × List R) (history : List (Pass D)) :
    Memory D K V := history.foldr (fun p seen => (step p seen).1) fun _ => none

/-! ## What a value says of the passes -/

/-- The last passes all show it, from the one in which its value was fresh. -/
def Continuous (shows : Pass D → Prop) (fresh : Pass D → V) (again : V → V)
    (history : List (Pass D)) (value : V) : Prop :=
  ∃ recent first older, history = recent ++ first :: older
    ∧ value = again^[recent.length] (fresh first) ∧ ∀ p ∈ recent ++ [first], shows p

variable {shows : Pass D → D → K → Prop} {fresh : Pass D → V} {again : V → V}
  {history : List (Pass D)} {p : Pass D} {old : Memory D K V} {sights : List (D × K × R)}

/-- What is remembered is continuous. -/
def Recalls (shows : Pass D → D → K → Prop) (fresh : Pass D → V) (again : V → V)
    (history : List (Pass D)) (seen : Memory D K V) : Prop :=
  ∀ d key value, seen d = some (key, value) → Continuous (shows · d key) fresh again history value

omit [DecidableEq D] in
theorem Recalls.value (h : Recalls shows fresh again history old) {d : D} {key : K}
    (hshows : shows p d key) : Continuous (shows · d key) fresh again (p :: history)
      (old.value (fresh p) again d key) := by
  have hnew : Continuous (shows · d key) fresh again (p :: history) (fresh p) :=
    ⟨[], p, history, rfl, rfl, forall_mem_singleton.mpr hshows⟩
  unfold Memory.value
  split
  · rename_i key' value hold
    split_ifs with hkey
    · obtain ⟨recent, first, older, rfl, rfl, hall⟩ := h d key' value hold
      rw [hkey] at hall
      refine ⟨p :: recent, first, older, rfl, ?_, forall_mem_cons.mpr ⟨hshows, hall⟩⟩
      rw [length_cons, Function.iterate_succ_apply']
    · exact hnew
  · exact hnew

theorem Recalls.track (h : Recalls shows fresh again history old) (isDue : V → Bool)
    (hsights : ∀ sight ∈ sights, shows p sight.1 sight.2.1) :
    Recalls shows fresh again (p :: history) (track old (fresh p) again isDue sights).1
      ∧ ∀ item ∈ (track old (fresh p) again isDue sights).2, ∃ d key value, (d, key, item) ∈ sights
        ∧ isDue value ∧ Continuous (shows · d key) fresh again (p :: history) value := by
  refine ⟨fun d key value hseen => ?_, fun item hitem => ?_⟩
  · obtain ⟨sight, hfind, heq⟩ := map_eq_some_iff.mp hseen
    cases heq
    have hd : sight.1 = d := by simpa using find?_some hfind
    subst hd
    exact h.value (hsights sight (mem_reverse.mp (mem_of_find?_eq_some hfind)))
  · obtain ⟨⟨d, key, _⟩, hsight, rfl⟩ := mem_map.mp hitem
    obtain ⟨hsight, hdue⟩ := mem_filter.mp hsight
    exact ⟨d, key, _, hsight, hdue, h.value (hsights _ hsight)⟩

omit [DecidableEq D] [DecidableEq K] in
theorem recalls_after {step : Pass D → Memory D K V → Memory D K V × List R}
    (hstep : ∀ p history seen, Recalls shows fresh again history seen →
      Recalls shows fresh again (p :: history) (step p seen).1) (history : List (Pass D)) :
    Recalls shows fresh again history (after step history) := by
  induction history with
  | nil => exact nofun
  | cons p history ih => exact hstep _ _ _ ih

/-! ## Continuous evidence -/

/-- Every hypervisor that is online has answered, and none of those that did lists the row. -/
structure Pass.ShowsAbsent (p : Pass D) (id : D) (key : Absence) : Prop where
  answered : ∀ hypId ∈ p.online, hypId ∈ p.listings.map (·.1)
  row : ∃ row ∈ p.rows, row.id = id ∧ (row.status, row.hypOf) = key
  unlisted : id ∉ p.listed
  free : p.isHeld id = false

def Pass.ShowsPaused (round : ℚ → ℚ) (p : Pass D) (id : D) (key : Pause) : Prop :=
  (∃ states, (key.1, states) ∈ p.listings ∧ ∃ state, (id, state) ∈ states
      ∧ state.status = some .paused ∧ state.vcpuTime.map round = some key.2.1)
    ∧ p.statuses id = some key.2.2 ∧ p.isHeld id = false

theorem absences_show (hanswered : ∀ hypId ∈ p.online, hypId ∈ p.listings.map (·.1)) :
    ∀ sight ∈ p.absences, p.ShowsAbsent sight.1 sight.2.1 := by
  intro sight hsight
  obtain ⟨row, hrow, rfl⟩ := mem_map.mp hsight
  obtain ⟨hrow, hkept⟩ := mem_filter.mp hrow
  obtain ⟨-, hunlisted, hfree, -⟩ := of_decide_eq_true hkept
  exact ⟨hanswered, ⟨row, hrow, rfl, rfl⟩, hunlisted, hfree⟩

theorem absent_spec (passes : Nat) {seen : Memory D Absence Nat}
    (h : Recalls Pass.ShowsAbsent (fun _ => 1) (· + 1) history seen) :
    Recalls Pass.ShowsAbsent (fun _ => 1) (· + 1) (p :: history) (absent passes p seen).1
      ∧ ∀ row ∈ (absent passes p seen).2, ∃ count, passes ≤ count
        ∧ Continuous (·.ShowsAbsent row.id (row.status, row.hypOf)) (fun _ => 1) (· + 1)
          (p :: history) count := by
  unfold absent
  split_ifs with hanswered
  · obtain ⟨hrecalls, hdue⟩ := h.track (passes ≤ ·) (absences_show hanswered.2)
    refine ⟨hrecalls, fun row hrow => ?_⟩
    obtain ⟨d, key, count, hsight, hcount, hcontinuous⟩ := hdue row hrow
    obtain ⟨row', -, heq⟩ := mem_map.mp hsight
    cases heq
    exact ⟨count, of_decide_eq_true hcount, hcontinuous⟩
  · exact ⟨nofun, nofun⟩

omit [DecidableEq D] in
theorem mem_pauses {round : ℚ → ℚ} {vcpuS : ℚ} {d : D} {key : Pause}
    {item : String × D × Status × ℚ} (h : (d, key, item) ∈ p.pauses round vcpuS) :
    d = item.2.1 ∧ key = (item.1, round item.2.2.2, item.2.2.1) ∧ p.ShowsPaused round d key := by
  obtain ⟨⟨hypId, states⟩, hlisting, h⟩ := mem_flatMap.mp h
  obtain ⟨⟨d', state⟩, hstate, h⟩ := mem_filterMap.mp h
  obtain ⟨vcpuTime, hvcpu, h⟩ := bind_eq_some_iff.mp h
  obtain ⟨status, hstatus, h⟩ := bind_eq_some_iff.mp h
  obtain ⟨⟨hpaused, -, -, hfree⟩, ⟨⟩⟩ := ite_none_right_eq_some.mp h
  exact ⟨rfl, rfl, ⟨states, hlisting, state, hstate, hpaused, by simp [hvcpu]⟩, hstatus, hfree⟩

/-- **The broom acts on continuous evidence.** A row is absent, or a domain is idle and paused, only
if all of the last passes show it: as many as are asked for, or from one that is long enough ago. -/
theorem broom_continuous (history : List (Pass D)) (p : Pass D) :
    (∀ passes, ∀ row ∈ (absent passes p (after (absent passes) history)).2,
      ∃ recent first older, p :: history = recent ++ first :: older ∧ passes ≤ recent.length + 1
        ∧ ∀ q ∈ recent ++ [first], q.ShowsAbsent row.id (row.status, row.hypOf))
    ∧ ∀ round vcpuS afterS, ∀ item ∈
        (due round vcpuS afterS p (after (due round vcpuS afterS) history)).2,
      ∃ recent first older, p :: history = recent ++ first :: older
        ∧ afterS ≤ p.now - first.now ∧ (0 < afterS → recent ≠ [])
        ∧ ∀ q ∈ recent ++ [first],
          q.ShowsPaused round item.2.1 (item.1, round item.2.2.2, item.2.2.1) := by
  constructor
  · intro passes row hrow
    have hseen := recalls_after (fun _ _ _ h => (absent_spec passes h).1) history
    obtain ⟨count, hcount, recent, first, older, heq, rfl, hall⟩ :=
      (absent_spec passes hseen).2 row hrow
    exact ⟨recent, first, older, heq, by simpa [Nat.add_comm] using hcount, hall⟩
  · intro round vcpuS afterS item hitem
    have hsights : ∀ p : Pass D, ∀ sight ∈ p.pauses round vcpuS,
        p.ShowsPaused round sight.1 sight.2.1 := fun p sight hsight => (mem_pauses hsight).2.2
    have hseen : Recalls (Pass.ShowsPaused round) Pass.now id history _ :=
      recalls_after (fun p _ _ h => (h.track (afterS ≤ p.now - ·) (hsights p)).1) history
    obtain ⟨d, key, first, hsight, hdue, hcontinuous⟩ :=
      (hseen.track (afterS ≤ p.now - ·) (hsights p)).2 item hitem
    obtain ⟨rfl, rfl, -⟩ := mem_pauses hsight
    obtain ⟨recent, first, older, heq, rfl, hall⟩ := hcontinuous
    rw [Function.iterate_id, id, decide_eq_true_eq] at hdue
    refine ⟨recent, first, older, heq, hdue, ?_, hall⟩
    rintro hpos rfl
    cases heq
    rw [sub_self] at hdue
    exact hdue.not_gt hpos

/-- At a time: a row that no hypervisor lists, and a domain that is paused since it was started. -/
def lost (now : ℚ) : Pass Bool where
  rows := [⟨true, some .started, some (.inr "a")⟩, ⟨false, some .paused, some (.inr "a")⟩]
  online := ["a"]
  listings := [("a", [(false, ⟨some .paused, some 1⟩)])]
  statuses _ := some .paused
  isHeld _ := false
  now := now

theorem lost_absent_and_due :
    (∃ row ∈ (absent 2 (lost 60) (after (absent 2) [lost 0])).2,
      ∃ recent first older, [lost 60, lost 0] = recent ++ first :: older ∧ 2 ≤ recent.length + 1
        ∧ ∀ q ∈ recent ++ [first], q.ShowsAbsent row.id (row.status, row.hypOf))
    ∧ ∃ item ∈ (due id 5 60 (lost 60) (after (due id 5 60) [lost 0])).2,
      ∃ recent first older, [lost 60, lost 0] = recent ++ first :: older
        ∧ 60 ≤ (lost 60).now - first.now ∧ (0 < (60 : ℚ) → recent ≠ [])
        ∧ ∀ q ∈ recent ++ [first], q.ShowsPaused id item.2.1 (item.1, item.2.2.2, item.2.2.1) := by
  have hitem : ("a", false, .paused, 1)
      ∈ (due id 5 60 (lost 60) (after (due id 5 60) [lost 0])).2 := by decide +kernel
  exact ⟨⟨_, .head _, (broom_continuous [lost 0] (lost 60)).1 2 _ (.head _)⟩,
    _, hitem, (broom_continuous [lost 0] (lost 60)).2 id 5 60 _ hitem⟩

end IsardVDI.Engine.Reconcile
