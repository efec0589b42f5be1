import IsardVDI.Orchestrator.Rata

/-!
# Orchestrator — limiting and lifting the limit

`ExtraOperations` limits a hypervisor that is short of CPU **or** RAM and lifts the limit of
one that has plenty of CPU **or** RAM. With ordered thresholds each resource alone has a
hysteresis, but a hypervisor short of one resource with plenty of the other (`Mixed`) meets
both conditions, whatever its flag: it is limited in one cycle and lifted in the next, for as
long as the readings stay.

* **`extraOperations_answered`** — what it does when the API answers.
-/

namespace IsardVDI.Orchestrator

open List Option

/-! ## Thresholds -/

variable {flag : Bool}

section Thresholds

variable (cfg : DirectorRata) (h : Hypervisor)

def LowCPU : Prop := cfg.hyperMinCPU ≠ 0 ∧ h.cpu.free ≤ cfg.hyperMinCPU

def LowRAM : Prop := cfg.hyperMinRAM ≠ 0 ∧ h.ram.free ≤ hyperMinRAM cfg h

def HighCPU : Prop := cfg.hyperMaxCPU ≠ 0 ∧ h.cpu.free > cfg.hyperMaxCPU

def HighRAM : Prop := cfg.hyperMaxRAM ≠ 0 ∧ h.ram.free > hyperMaxRAM cfg h

/-- Short of one resource with plenty of the other. -/
def Mixed : Prop := (LowCPU cfg h ∧ HighRAM cfg h) ∨ (LowRAM cfg h ∧ HighCPU cfg h)

instance : Decidable (Mixed cfg h) := by
  unfold Mixed LowCPU LowRAM HighCPU HighRAM
  infer_instance

def ThresholdsOrdered : Prop :=
  (cfg.hyperMinCPU = 0 ∨ cfg.hyperMaxCPU = 0 ∨ cfg.hyperMinCPU ≤ cfg.hyperMaxCPU)
    ∧ (cfg.hyperMinRAM = 0 ∨ cfg.hyperMaxRAM = 0 ∨ cfg.hyperMinRAM ≤ cfg.hyperMaxRAM)

instance : Decidable (ThresholdsOrdered cfg) := by
  unfold ThresholdsOrdered
  infer_instance

variable {cfg h}

theorem mixed_iff (hcfg : ThresholdsOrdered cfg) :
    Mixed cfg h ↔ (LowCPU cfg h ∨ LowRAM cfg h) ∧ (HighCPU cfg h ∨ HighRAM cfg h) := by
  unfold ThresholdsOrdered at hcfg
  unfold Mixed LowCPU LowRAM HighCPU HighRAM hyperMinRAM hyperMaxRAM
  omega

theorem needToLimitHypervisor_eq_true :
    needToLimitHypervisor cfg h = true ↔ LowCPU cfg h ∨ LowRAM cfg h := by
  unfold needToLimitHypervisor LowCPU LowRAM
  simp only [Bool.or_eq_true, Bool.and_eq_true, decide_eq_true_eq]

theorem hasAvailableResources_eq_true :
    hasAvailableResources cfg h = true ↔ HighCPU cfg h ∨ HighRAM cfg h := by
  unfold hasAvailableResources HighCPU HighRAM
  simp only [Bool.or_eq_true, Bool.and_eq_true, decide_eq_true_eq]

theorem wantedOnlyForced_eq_true :
    wantedOnlyForced cfg h = some true
      ↔ h.destroyTime = none ∧ h.onlyForced = false ∧ (LowCPU cfg h ∨ LowRAM cfg h) := by
  rw [← needToLimitHypervisor_eq_true]
  unfold wantedOnlyForced
  cases h.destroyTime <;> cases h.onlyForced <;> simp

theorem wantedOnlyForced_eq_false :
    wantedOnlyForced cfg h = some false
      ↔ h.destroyTime = none ∧ h.onlyForced = true ∧ h.desktopsStarted ≠ 0
        ∧ (HighCPU cfg h ∨ HighRAM cfg h) := by
  rw [← hasAvailableResources_eq_true]
  unfold wantedOnlyForced
  cases h.destroyTime <;> cases h.onlyForced <;> simp

theorem wantedOnlyForced_of_mixed (hcfg : ThresholdsOrdered cfg) (hrow : h.destroyTime = none)
    (hdesktops : h.desktopsStarted ≠ 0) (hmixed : Mixed cfg h) :
    wantedOnlyForced cfg h = some (!h.onlyForced) := by
  obtain ⟨hlow, hhigh⟩ := (mixed_iff hcfg).mp hmixed
  cases hflag : h.onlyForced with
  | false => exact wantedOnlyForced_eq_true.mpr ⟨hrow, hflag, hlow⟩
  | true => exact wantedOnlyForced_eq_false.mpr ⟨hrow, hflag, hdesktops, hhigh⟩

theorem mixed_of_wantedOnlyForced (hcfg : ThresholdsOrdered cfg) {flag' : Bool}
    (hwanted : wantedOnlyForced cfg h = some flag)
    (hback : wantedOnlyForced cfg { h with onlyForced := flag } = some flag') (hne : flag' ≠ flag) :
    h.destroyTime = none ∧ h.desktopsStarted ≠ 0 ∧ Mixed cfg h := by
  cases flag with
  | true =>
    obtain rfl : flag' = false := by simpa using hne
    obtain ⟨hrow, _, hlow⟩ := wantedOnlyForced_eq_true.mp hwanted
    obtain ⟨_, _, hdesktops, hhigh⟩ := wantedOnlyForced_eq_false.mp hback
    exact ⟨hrow, hdesktops, (mixed_iff hcfg).mpr ⟨hlow, hhigh⟩⟩
  | false =>
    obtain rfl : flag' = true := by simpa using hne
    obtain ⟨hrow, _, hdesktops, hhigh⟩ := wantedOnlyForced_eq_false.mp hwanted
    obtain ⟨_, _, hlow⟩ := wantedOnlyForced_eq_true.mp hback
    exact ⟨hrow, hdesktops, (mixed_iff hcfg).mpr ⟨hlow, hhigh⟩⟩

end Thresholds

/-! ## One cycle -/

section Cycle

variable (cfg : DirectorRata) (dryRun : Bool) (api : String → ApiOutcome)

theorem Fleet.get?_writeOnlyForced_ne (fleet : Fleet) {id id' : String} (hne : id' ≠ id)
    (flag : Bool) : (fleet.writeOnlyForced id flag).get? id' = fleet.get? id' := by
  rw [get?_writeOnlyForced]
  cases hget : fleet.get? id' with
  | none => rfl
  | some h =>
    have hid : h.id = id' := by simpa using find?_some hget
    have hne' : ¬ h.id = id := fun heq => hne (hid.symm.trans heq)
    rw [map_some, Orchestrator.writeOnlyForced, if_neg hne']

theorem adminOrchestratorOnlyForcedSet_fst (fleet : Fleet) (id : String) (flag : Bool) :
    (adminOrchestratorOnlyForcedSet api fleet id flag).1 = fleet.writeOnlyForced id flag
      ∨ (adminOrchestratorOnlyForcedSet api fleet id flag).1 = fleet := by
  unfold adminOrchestratorOnlyForcedSet Fleet.setHyperOnlyForced
  cases api id with
  | answered =>
    cases fleet.get? id with
    | none => exact .inr rfl
    | some h => exact .inl rfl
  | failed applied =>
    cases applied with
    | true => exact .inl rfl
    | false => exact .inr rfl

theorem extraOperationsLoop_cons (fleet : Fleet) (h : Hypervisor) (hypers : List Hypervisor) :
    ∃ next, (next = fleet ∨ dryRun = false
        ∧ ∃ flag, wantedOnlyForced cfg h = some flag ∧ next = fleet.writeOnlyForced h.id flag)
      ∧ ((extraOperationsLoop cfg dryRun api fleet (h :: hypers)).1
          = (extraOperationsLoop cfg dryRun api next hypers).1
        ∨ (extraOperationsLoop cfg dryRun api fleet (h :: hypers)).1 = next) := by
  rw [extraOperationsLoop]
  split
  · exact ⟨fleet, .inl rfl, .inl rfl⟩
  · next flag hwanted =>
    split
    · exact ⟨fleet, .inl rfl, .inl rfl⟩
    · next hdry =>
      refine ⟨(adminOrchestratorOnlyForcedSet api fleet h.id flag).1, ?_, ?_⟩
      · rcases adminOrchestratorOnlyForcedSet_fst api fleet h.id flag with hset | hset
        · exact .inr ⟨by simpa using hdry, flag, hwanted, hset⟩
        · exact .inl hset
      · split
        · next hcall => exact .inl (by rw [hcall])
        · next hcall => exact .inr (by rw [hcall])

variable {hypers : List Hypervisor} {h : Hypervisor}

variable (fleet : Fleet)

theorem extraOperationsLoop_get? (id : String) :
    (extraOperationsLoop cfg dryRun api fleet hypers).1.get? id = fleet.get? id
      ∨ dryRun = false ∧ ∃ h ∈ hypers, h.id = id ∧ ∃ flag, wantedOnlyForced cfg h = some flag
        ∧ (extraOperationsLoop cfg dryRun api fleet hypers).1.get? id
          = (fleet.writeOnlyForced id flag).get? id := by
  induction hypers generalizing fleet with
  | nil => exact .inl rfl
  | cons g hypers ih =>
    obtain ⟨next, hnext, hloop⟩ := extraOperationsLoop_cons cfg dryRun api fleet g hypers
    have hown : next.get? id = fleet.get? id ∨ dryRun = false ∧ ∃ h ∈ g :: hypers, h.id = id
        ∧ ∃ flag, wantedOnlyForced cfg h = some flag
          ∧ next.get? id = (fleet.writeOnlyForced id flag).get? id := by
      rcases hnext with rfl | ⟨hdry, flag, hwanted, rfl⟩
      · exact .inl rfl
      · by_cases hid : g.id = id
        · exact .inr ⟨hdry, g, .head _, hid, flag, hwanted, by rw [hid]⟩
        · exact .inl (fleet.get?_writeOnlyForced_ne (Ne.symm hid) flag)
    -- of two writes the later one counts
    have hlater (flag : Bool) : (next.writeOnlyForced id flag).get? id
        = (fleet.writeOnlyForced id flag).get? id := by
      rw [Fleet.get?_writeOnlyForced, Fleet.get?_writeOnlyForced]
      rcases hown with hown | ⟨-, _, -, -, flag', -, hown⟩
      · rw [hown]
      · rw [hown, Fleet.get?_writeOnlyForced, Option.map_map]
        congr 1
        funext x
        simp only [Function.comp_apply, Orchestrator.writeOnlyForced]
        split_ifs <;> simp_all
    rcases hloop with hloop | hloop
    · rcases ih next with hsame | ⟨hdry, h, hh, hid, flag, hwanted, hset⟩
      · rw [hloop, hsame]
        exact hown
      · exact .inr ⟨hdry, h, .tail _ hh, hid, flag, hwanted, by rw [hloop, hset, hlater]⟩
    · rw [hloop]
      exact hown

theorem extraOperationsLoop_get?_of_not_mem {id : String} (hid : id ∉ hypers.map Hypervisor.id) :
    (extraOperationsLoop cfg dryRun api fleet hypers).1.get? id = fleet.get? id := by
  refine (extraOperationsLoop_get? cfg dryRun api fleet id).resolve_right ?_
  rintro ⟨-, h, hh, rfl, -⟩
  exact hid (mem_map_of_mem hh)

theorem hypersToHandle_idsNodup : ((hypersToHandle fleet.hypers).map Hypervisor.id).Nodup :=
  fleet.idsNodup.sublist (filter_sublist.map _)

theorem Fleet.get?_writeOnlyForced_self (hh : h ∈ fleet.hypers) (flag : Bool) :
    (fleet.writeOnlyForced h.id flag).get? h.id = some { h with onlyForced := flag } := by
  rw [get?_writeOnlyForced, fleet.get?_eq hh, map_some, Orchestrator.writeOnlyForced,
    if_pos rfl]

/-- **What a cycle can do to a hypervisor.** It leaves it as it is, or it is a handled one and
gets the flag it wants. -/
theorem extraOperations_get? (id : String) :
    (extraOperations cfg dryRun api fleet).1.get? id = fleet.get? id
      ∨ dryRun = false ∧ ∃ h ∈ hypersToHandle fleet.hypers, h.id = id
        ∧ ∃ flag, wantedOnlyForced cfg h = some flag
          ∧ (extraOperations cfg dryRun api fleet).1.get? id
            = some { h with onlyForced := flag } := by
  refine (extraOperationsLoop_get? cfg dryRun api fleet id).imp_right ?_
  rintro ⟨hdry, h, hh, rfl, flag, hwanted, hset⟩
  refine ⟨hdry, h, hh, rfl, flag, hwanted, ?_⟩
  exact hset.trans (fleet.get?_writeOnlyForced_self (mem_of_mem_filter hh) flag)

/-! ### When the API answers -/

theorem adminOrchestratorOnlyForcedSet_answered {fleet : Fleet} (hget : fleet.get? h.id ≠ none)
    (flag : Bool) :
    adminOrchestratorOnlyForcedSet (fun _ => .answered) fleet h.id flag
      = (fleet.writeOnlyForced h.id flag, none) := by
  unfold adminOrchestratorOnlyForcedSet Fleet.setHyperOnlyForced
  cases hh : fleet.get? h.id with
  | none => exact absurd hh hget
  | some g => rfl

theorem extraOperationsLoop_answered (hnodup : (hypers.map Hypervisor.id).Nodup)
    (hget : ∀ g ∈ hypers, fleet.get? g.id ≠ none) (hh : h ∈ hypers)
    (hwanted : wantedOnlyForced cfg h = some flag) :
    (extraOperationsLoop cfg false (fun _ => .answered) fleet hypers).1.get? h.id
      = (fleet.writeOnlyForced h.id flag).get? h.id := by
  induction hypers generalizing fleet with
  | nil => cases hh
  | cons g hypers ih =>
    rw [map_cons, nodup_cons] at hnodup
    have hrest : ∀ g' ∈ hypers, fleet.get? g'.id ≠ none :=
      fun g' hg' => hget g' (.tail _ hg')
    rcases mem_cons.mp hh with rfl | hh
    · -- its call is made and answered; the calls after it are for others
      rw [extraOperationsLoop, hwanted]
      simp only [Bool.false_eq_true, if_false,
        adminOrchestratorOnlyForcedSet_answered (hget h (.head _))]
      exact extraOperationsLoop_get?_of_not_mem cfg false _ _ hnodup.1
    · have hne : h.id ≠ g.id := fun heq => hnodup.1 (heq ▸ mem_map_of_mem hh)
      rw [extraOperationsLoop]
      cases wantedOnlyForced cfg g with
      | none => exact ih fleet hnodup.2 hrest hh
      | some flag' =>
        -- the call for `g` is answered too, so the loop gets to `h`
        simp only [Bool.false_eq_true, if_false,
          adminOrchestratorOnlyForcedSet_answered (hget g (.head _))]
        rw [ih _ hnodup.2 ?_ hh, Fleet.get?_writeOnlyForced,
          fleet.get?_writeOnlyForced_ne hne flag', Fleet.get?_writeOnlyForced]
        intro g' hg'
        rw [Fleet.get?_writeOnlyForced]
        simpa using hrest g' hg'

theorem extraOperations_answered (hh : h ∈ hypersToHandle fleet.hypers)
    (hwanted : wantedOnlyForced cfg h = some flag) :
    (extraOperations cfg false (fun _ => .answered) fleet).1.get? h.id
      = some { h with onlyForced := flag } := by
  have hget : ∀ g ∈ hypersToHandle fleet.hypers, fleet.get? g.id ≠ none := by
    intro g hg
    rw [fleet.get?_eq (mem_of_mem_filter hg)]
    nofun
  exact (extraOperationsLoop_answered cfg fleet (hypersToHandle_idsNodup fleet) hget hh
    hwanted).trans (fleet.get?_writeOnlyForced_self (mem_of_mem_filter hh) flag)

end Cycle

/-! ## Two cycles -/

def onlyForced? (fleet : Fleet) (id : String) : Option Bool :=
  (fleet.get? id).map Hypervisor.onlyForced

/-- Two successive cycles both change the flag of hypervisor `id`. -/
def Flaps (cfg : DirectorRata) (dryRun : Bool) (api api' : String → ApiOutcome) (fleet : Fleet)
    (id : String) : Prop :=
  let first := (extraOperations cfg dryRun api fleet).1
  let second := (extraOperations cfg dryRun api' first).1
  onlyForced? first id ≠ onlyForced? fleet id ∧ onlyForced? second id ≠ onlyForced? first id

instance (cfg : DirectorRata) (dryRun : Bool) (api api' : String → ApiOutcome) (fleet : Fleet)
    (id : String) : Decidable (Flaps cfg dryRun api api' fleet id) := by
  unfold Flaps
  infer_instance

variable {fleet : Fleet} {cfg : DirectorRata}

theorem Fleet.mem_of_get? {id : String} {h : Hypervisor} (hget : fleet.get? id = some h) :
    h ∈ fleet.hypers :=
  mem_of_find?_eq_some hget

theorem onlyForced?_changed {dryRun : Bool} {api : String → ApiOutcome} {id : String}
    (hne : onlyForced? (extraOperations cfg dryRun api fleet).1 id ≠ onlyForced? fleet id) :
    dryRun = false ∧ ∃ h ∈ hypersToHandle fleet.hypers, h.id = id
      ∧ ∃ flag, wantedOnlyForced cfg h = some flag
        ∧ (extraOperations cfg dryRun api fleet).1.get? id
          = some { h with onlyForced := flag } := by
  rcases extraOperations_get? cfg dryRun api fleet id with hsame | hset
  · exact absurd (by unfold onlyForced?; rw [hsame]) hne
  · exact hset

theorem not_flaps_of_not_mixed (hcfg : ThresholdsOrdered cfg) {dryRun : Bool}
    (hok : dryRun = true ∨ ∀ h ∈ hypersToHandle fleet.hypers,
      h.destroyTime = none → h.desktopsStarted ≠ 0 → ¬ Mixed cfg h) (api api' : String → ApiOutcome)
    (id : String) : ¬ Flaps cfg dryRun api api' fleet id := by
  intro ⟨hfirst, hsecond⟩
  obtain ⟨hdry, h, hh, rfl, flag, hwanted, hget⟩ := onlyForced?_changed hfirst
  obtain ⟨_, h', hh', hid, flag', hback, hget'⟩ := onlyForced?_changed hsecond
  -- the second cycle sees the hypervisor as the first left it
  obtain rfl : h' = { h with onlyForced := flag } := by
    have hget'' := Fleet.get?_eq _ (mem_of_mem_filter hh')
    rw [hid, hget] at hget''
    exact (Option.some.inj hget'').symm
  have hne : flag' ≠ flag := by
    unfold onlyForced? at hsecond
    rw [hget', hget] at hsecond
    simpa using hsecond
  obtain ⟨hrow, hdesktops, hmixed⟩ := mixed_of_wantedOnlyForced hcfg hwanted hback hne
  rcases hok with hdry' | hok
  · exact absurd (hdry.symm.trans hdry') nofun
  · exact hok h hh hrow hdesktops hmixed

theorem flaps_of_mixed (hcfg : ThresholdsOrdered cfg) {h : Hypervisor}
    (hh : h ∈ hypersToHandle fleet.hypers) (hrow : h.destroyTime = none)
    (hdesktops : h.desktopsStarted ≠ 0) (hmixed : Mixed cfg h) :
    Flaps cfg false (fun _ => .answered) (fun _ => .answered) fleet h.id := by
  have hfirst := extraOperations_answered cfg fleet hh
    (wantedOnlyForced_of_mixed hcfg hrow hdesktops hmixed)
  -- after the first cycle it is still handled and mixed
  have hh' : { h with onlyForced := !h.onlyForced } ∈ hypersToHandle
      (extraOperations cfg false (fun _ => .answered) fleet).1.hypers :=
    mem_filter.mpr ⟨Fleet.mem_of_get? hfirst, (mem_filter.mp hh).2⟩
  have hsecond := extraOperations_answered cfg _ hh'
    (wantedOnlyForced_of_mixed hcfg hrow hdesktops hmixed)
  unfold Flaps onlyForced?
  dsimp only at hsecond ⊢
  rw [hsecond, hfirst, fleet.get?_eq (mem_of_mem_filter hh)]
  simp

/-- **When limiting flaps.** With ordered thresholds, no hypervisor has its flag changed by two
successive cycles, whatever the API answers, iff the director is on a dry run or no handled
hypervisor outside the dead row with desktops started is short of one resource with plenty of
the other. -/
theorem extraOperations_noFlap_iff (cfg : DirectorRata) (hcfg : ThresholdsOrdered cfg)
    (dryRun : Bool) (fleet : Fleet) :
    (∀ api api' id, ¬ Flaps cfg dryRun api api' fleet id)
      ↔ dryRun = true ∨ ∀ h ∈ hypersToHandle fleet.hypers,
          h.destroyTime = none → h.desktopsStarted ≠ 0 → ¬ Mixed cfg h := by
  refine ⟨?_, not_flaps_of_not_mixed hcfg⟩
  intro hno
  cases dryRun with
  | true => exact .inl rfl
  | false =>
    refine .inr fun h hh hrow hdesktops hmixed => ?_
    exact hno _ _ h.id (flaps_of_mixed hcfg hh hrow hdesktops hmixed)

/-! ### A hypervisor short of CPU only -/

def hyperLimits : DirectorRata where
  minCPU := 0
  minRAM := 0
  minCPUHourly := none
  minRAMHourly := none
  minRAMLimitPercent := 0
  minRAMLimitPercentHourly := none
  minRAMLimitMargin := 0
  minRAMLimitMarginHourly := none
  maxRAM := 0
  maxRAMHourly := none
  maxRAMLimitPercent := 0
  maxRAMLimitPercentHourly := none
  maxRAMLimitMargin := 0
  maxRAMLimitMarginHourly := none
  deadRowRAMMargin := 0
  hyperMinCPU := 10
  hyperMinRAM := 100
  hyperMaxCPU := 20
  hyperMaxRAM := 200

def oneHost (cpuFree ramFree : Int) : Fleet where
  hypers :=
    [ { id := "host", status := .online, bufferingHyper := false, gpuOnly := false,
        onlyForced := false, orchestratorManaged := true, destroyTime := none,
        desktopsStarted := 1, cpu := ⟨100, cpuFree⟩, ram := ⟨400, ramFree⟩, minFreeMemGB := 0 } ]
  idsNodup := List.nodup_singleton _

theorem extraOperations_noFlap_shortOfBoth :
    ThresholdsOrdered hyperLimits
      ∧ ∀ api api' id, ¬ Flaps hyperLimits false api api' (oneHost 5 50) id := by
  have hcfg : ThresholdsOrdered hyperLimits := by decide
  exact ⟨hcfg, (extraOperations_noFlap_iff hyperLimits hcfg false (oneHost 5 50)).mpr
    (.inr (by decide))⟩

theorem extraOperations_flaps_shortOfCPU :
    ThresholdsOrdered hyperLimits
      ∧ Flaps hyperLimits false (fun _ => .answered) (fun _ => .answered) (oneHost 5 300)
        "host" := by
  decide

/-! ## Back in service -/

/-- `removeHypervisorsFromDeadRow`: an error ends the loop. -/
def Fleet.removeHypervisorsFromDeadRow (fleet : Fleet) : List String → Fleet
  | [] => fleet
  | id :: ids =>
    match fleet.setHyperDeadrowTime id true 0 with
    | .ok next => next.removeHypervisorsFromDeadRow ids
    | .error _ => fleet

def Fleet.removeHypervisorsFromOnlyForced (fleet : Fleet) : List String → Fleet
  | [] => fleet
  | id :: ids =>
    match fleet.setHyperOnlyForced id false with
    | .ok next => next.removeHypervisorsFromOnlyForced ids
    | .error _ => fleet

def Fleet.giveBack (fleet : Fleet) (r : NeedToScaleHypervisorsResult) : Fleet :=
  (fleet.removeHypervisorsFromDeadRow r.hypersToRemoveFromDeadRow).removeHypervisorsFromOnlyForced
    r.hypersToRemoveFromOnlyForced

section GiveBack

variable {fleet : Fleet} {cfg : DirectorRata} {hyp : Hypervisor} {r : NeedToScaleHypervisorsResult}

theorem giveBack_unlimit (hh : hyp ∈ fleet.hypers) (hrow : r.hypersToRemoveFromDeadRow = [])
    (hforced : r.hypersToRemoveFromOnlyForced = [hyp.id]) :
    (fleet.giveBack r).get? hyp.id = some { hyp with onlyForced := false } := by
  rw [Fleet.giveBack, hrow, hforced, Fleet.removeHypervisorsFromDeadRow,
    Fleet.removeHypervisorsFromOnlyForced, Fleet.setHyperOnlyForced, fleet.get?_eq hh]
  exact fleet.get?_writeOnlyForced_self hh false

theorem giveBack_pardon (hh : hyp ∈ hypersOnDeadRow fleet.hypers)
    (hrow : r.hypersToRemoveFromDeadRow = [hyp.id])
    (hforced : r.hypersToRemoveFromOnlyForced = []) :
    (fleet.giveBack r).get? hyp.id = some (if hyp.onlyForced then
      { hyp with onlyForced := false, destroyTime := none } else hyp) := by
  obtain ⟨hhandle, htime⟩ := mem_filter.mp hh
  obtain ⟨hmem, hmanaged⟩ := mem_filter.mp hhandle
  have hmanaged : hyp.orchestratorManaged = true := (Bool.and_eq_true_iff.mp hmanaged).2
  rw [Fleet.giveBack, hrow, hforced, Fleet.removeHypervisorsFromDeadRow]
  cases hflag : hyp.onlyForced with
  | false =>
    simp [Fleet.setHyperDeadrowTime, hmanaged, hflag, Fleet.removeHypervisorsFromOnlyForced,
      fleet.get?_eq hmem]
  | true =>
    have hset : fleet.setHyperDeadrowTime hyp.id true 0
        = .ok (fleet.writeDeadRow hyp.id false none) := by
      simp [Fleet.setHyperDeadrowTime, fleet.get?_eq hmem, hmanaged, hflag, htime]
    have hwritten : { hyp with onlyForced := false, destroyTime := none }
        ∈ (fleet.writeDeadRow hyp.id false none).hypers :=
      mem_map.mpr ⟨hyp, hmem, if_pos rfl⟩
    rw [hset]
    exact (fleet.writeDeadRow hyp.id false none).get?_eq hwritten

variable (roundPercent : Int → Int → Int) (hour : Hour)

theorem needToScale_givesBack {now : Int} {ops : List OperationsHypervisor}
    {hypers : List Hypervisor}
    (h : needToScaleHypervisors roundPercent cfg hour now ops hypers = .ok r) :
    (r.hypersToRemoveFromDeadRow = [] ∧ r.hypersToRemoveFromOnlyForced = [])
      ∨ (∃ hyp ∈ hypersOnDeadRow hypers, r.hypersToRemoveFromDeadRow = [hyp.id]
        ∧ r.hypersToRemoveFromOnlyForced = [])
      ∨ ∃ hyp ∈ hypersLimited hypers, r.hypersToRemoveFromDeadRow = []
        ∧ r.hypersToRemoveFromOnlyForced = [hyp.id] ∧ needToLimitHypervisor cfg hyp = false := by
  unfold needToScaleHypervisors at h
  split at h
  · unfold scaleUp at h
    dsimp only at h
    split at h
    · next hyp hpardon =>
      cases h
      refine .inr (.inl ⟨hyp, ?_, rfl, rfl⟩)
      rcases or_eq_some_iff.mp hpardon with hbest | ⟨-, hbest⟩
      · exact (GoSlice.pickBest_some hbest).1
      · exact (GoSlice.pickBest_some hbest).1
    · split at h
      · next hyp hunlimit =>
        cases h
        obtain ⟨hmem, hok⟩ := GoSlice.pickBest_some hunlimit
        rw [Bool.and_eq_true, Bool.not_eq_true'] at hok
        exact .inr (.inr ⟨hyp, hmem, rfl, rfl, hok.1⟩)
      · split at h
        · cases h
          exact .inl ⟨rfl, rfl⟩
        · cases h
  · cases h
    unfold scaleDown
    split
    · exact .inl ⟨rfl, rfl⟩
    · split
      · exact .inl ⟨rfl, rfl⟩
      · exact .inl ⟨rfl, rfl⟩

theorem onlyForced?_stays {next : Fleet} {id : String} (hget : next.get? id = some hyp)
    (hflag : hyp.onlyForced = false)
    (hlimit : hyp.destroyTime = none → needToLimitHypervisor cfg hyp = false) (dryRun : Bool)
    (api : String → ApiOutcome) :
    onlyForced? (extraOperations cfg dryRun api next).1 id ≠ some true := by
  unfold onlyForced?
  rcases extraOperations_get? cfg dryRun api next id with
    hsame | ⟨-, hyp', hh', rfl, flag, hwanted, hset⟩
  · simp [hsame, hget, hflag]
  · obtain rfl : hyp' = hyp :=
      Option.some.inj ((next.get?_eq (mem_of_mem_filter hh')).symm.trans hget)
    cases flag with
    | false => simp [hset]
    | true =>
      obtain ⟨hrow, -, hlow⟩ := wantedOnlyForced_eq_true.mp hwanted
      rw [← needToLimitHypervisor_eq_true, hlimit hrow] at hlow
      cases hlow

/-- **Who stays in service.** In the cycle after a decision that gives hypervisor `id` back, on
any fleet in which it is as the decision leaves it and whatever the API answers, the hypervisor is
not limited, exactly if it is not a pardoned one that is short of resources. -/
theorem giveBack_stays_iff {now : Int} {ops : List OperationsHypervisor}
    {r : NeedToScaleHypervisorsResult}
    (h : needToScaleHypervisors roundPercent cfg hour now ops fleet.hypers = .ok r) {id : String}
    (hid : id ∈ r.hypersToRemoveFromDeadRow ++ r.hypersToRemoveFromOnlyForced) :
    (∀ next : Fleet, next.get? id = (fleet.giveBack r).get? id → ∀ dryRun api,
        onlyForced? (extraOperations cfg dryRun api next).1 id ≠ some true)
      ↔ (id ∈ r.hypersToRemoveFromDeadRow → ∀ hyp, fleet.get? id = some hyp →
          hyp.onlyForced = true → needToLimitHypervisor cfg hyp = false) := by
  rcases needToScale_givesBack roundPercent hour h with
    ⟨hrow, hforced⟩ | ⟨hyp, hh, hrow, hforced⟩ | ⟨hyp, hh, hrow, hforced, hlimit⟩
  · simp [hrow, hforced] at hid
  · -- pardoned
    have hhandle := mem_of_mem_filter hh
    have hmem := mem_of_mem_filter hhandle
    obtain rfl : id = hyp.id := by simpa [hrow, hforced] using hid
    have hback := giveBack_pardon hh hrow hforced
    refine ⟨fun hstays _ hyp' hget hflag => ?_, fun hlimit next hnext => ?_⟩
    · obtain rfl : hyp = hyp' := Option.some.inj ((fleet.get?_eq hmem).symm.trans hget)
      rw [hflag, if_pos rfl] at hback
      by_contra hshort
      have hwanted : wantedOnlyForced cfg { hyp with onlyForced := false, destroyTime := none }
          = some true :=
        wantedOnlyForced_eq_true.mpr
          ⟨rfl, rfl, needToLimitHypervisor_eq_true.mp (eq_true_of_ne_false hshort)⟩
      have hlimited := extraOperations_answered cfg (fleet.giveBack r)
        (mem_filter.mpr ⟨Fleet.mem_of_get? hback, (mem_filter.mp hhandle).2⟩) hwanted
      refine hstays (fleet.giveBack r) rfl false (fun _ => .answered) ?_
      unfold onlyForced?
      rw [hlimited]
      rfl
    · rw [hback] at hnext
      have hlimit := hlimit (by simp [hrow]) hyp (fleet.get?_eq hmem)
      cases hflag : hyp.onlyForced with
      | true =>
        rw [hflag, if_pos rfl] at hnext
        exact onlyForced?_stays hnext rfl fun _ => hlimit hflag
      | false =>
        rw [hflag, if_neg nofun] at hnext
        refine onlyForced?_stays hnext hflag fun hnone => ?_
        simpa [hnone] using (mem_filter.mp hh).2
  · -- its limit is lifted
    have hmem := mem_of_mem_filter (mem_of_mem_filter hh)
    obtain rfl : id = hyp.id := by simpa [hrow, hforced] using hid
    refine ⟨fun _ hmem => by simp [hrow] at hmem, fun _ next hnext => ?_⟩
    rw [giveBack_unlimit hmem hrow hforced] at hnext
    exact onlyForced?_stays hnext rfl fun _ => hlimit

end GiveBack

/-- The pool lacks RAM, and the only hypervisor, on the dead row, has it but is short of CPU. -/
def sentencedHost : Fleet where
  hypers :=
    [ { id := "sentenced", status := .online, bufferingHyper := false, gpuOnly := false,
        onlyForced := true, orchestratorManaged := true, destroyTime := some 7,
        desktopsStarted := 1, cpu := ⟨100, 5⟩, ram := ⟨400, 300⟩, minFreeMemGB := 0 } ]
  idsNodup := List.nodup_singleton _

def pardonLimits (hyperMinCPU : Int) : DirectorRata :=
  { hyperLimits with minRAM := 100, hyperMinCPU := hyperMinCPU }

theorem pardoned_limited_again :
    ∃ r, needToScaleHypervisors (fun _ _ => 0) (pardonLimits 10) ⟨0, 0⟩ 0 [] sentencedHost.hypers
        = .ok r
      ∧ r.hypersToRemoveFromDeadRow = ["sentenced"]
      ∧ onlyForced? (sentencedHost.giveBack r) "sentenced" = some false
      ∧ onlyForced? (extraOperations (pardonLimits 10) false (fun _ => .answered)
        (sentencedHost.giveBack r)).1 "sentenced" = some true :=
  ⟨_, rfl, by decide⟩

theorem pardoned_stays :
    ∃ r, needToScaleHypervisors (fun _ _ => 0) (pardonLimits 4) ⟨0, 0⟩ 0 [] sentencedHost.hypers
        = .ok r
      ∧ "sentenced" ∈ r.hypersToRemoveFromDeadRow ++ r.hypersToRemoveFromOnlyForced
      ∧ ∀ next : Fleet, next.get? "sentenced" = (sentencedHost.giveBack r).get? "sentenced" →
        ∀ dryRun api, onlyForced? (extraOperations (pardonLimits 4) dryRun api next).1 "sentenced"
          ≠ some true := by
  have hscale : needToScaleHypervisors (fun _ _ => 0) (pardonLimits 4) ⟨0, 0⟩ 0 []
      sentencedHost.hypers
        = .ok { NeedToScaleHypervisorsResult.empty with
          hypersToRemoveFromDeadRow := ["sentenced"] } := rfl
  refine ⟨_, hscale, by decide, (giveBack_stays_iff _ _ hscale (by decide)).mpr ?_⟩
  rintro - hyp hget -
  cases hget
  decide

end IsardVDI.Orchestrator
