import IsardVDI.Orchestrator.Rata

/-!
# Orchestrator — sentencing a hypervisor

`NeedToScaleHypervisors` sends a hypervisor to the dead row only if the pool can do without
it, judged with the limits of the reduced pool. The next cycle computes with exactly that
pool: the hypervisor is `only_forced` from then on, so it is no longer acknowledged
(`hypersToAcknowledge_writeDeadRow`). Whether it was counted before does not matter: if it was,
its free RAM was deducted when it was chosen; if it was not, nothing changes.
-/

namespace IsardVDI.Orchestrator

open IsardVDI.GoSlice
open List

/-! ## The sentenced fleet -/

variable (fleet : Fleet)

theorem hypersToAcknowledge_writeDeadRow (id : String) (dtz : Option Int) :
    hypersToAcknowledge (fleet.writeDeadRow id true dtz).hypers
      = (hypersToAcknowledge fleet.hypers).filter fun h => !decide (id = h.id) := by
  show ((fleet.hypers.map (writeDeadRow id true dtz)).filter fun h => h.inPool && !h.onlyForced)
    = (fleet.hypers.filter fun h => h.inPool && !h.onlyForced).filter _
  induction fleet.hypers with
  | nil => rfl
  | cons h hypers ih =>
    rw [map_cons]
    by_cases hid : h.id = id
    · have hforced : (writeDeadRow id true dtz h).onlyForced = true := by
        unfold writeDeadRow
        rw [if_pos hid]
      rw [filter_cons_of_neg (by simp [hforced]), ih, filter_cons]
      split
      · rw [filter_cons_of_neg (by simp [hid])]
      · rfl
    · have hkept : writeDeadRow id true dtz h = h := if_neg hid
      rw [hkept, filter_cons, ih, filter_cons]
      split
      · rw [filter_cons_of_pos (by simpa using fun heq => hid heq.symm)]
      · rfl

theorem hypersToAcknowledge_idsNodup :
    ((hypersToAcknowledge fleet.hypers).map Hypervisor.id).Nodup :=
  fleet.idsNodup.sublist (filter_sublist.map _)

theorem reduced_eq_filter (id : String) :
    removeWhileRanging (fun h => decide (id = h.id)) (hypersToAcknowledge fleet.hypers)
      = (hypersToAcknowledge fleet.hypers).filter fun h => !decide (id = h.id) := by
  apply removeWhileRanging_eq_filter
  refine (pairwise_map.mp (hypersToAcknowledge_idsNodup fleet)).imp ?_
  intro g h hne hboth
  simp only [decide_eq_true_eq] at hboth
  exact hne (hboth.1.symm.trans hboth.2)

variable {hypers : List Hypervisor}

theorem sum_filter_id_ne (hnodup : (hypers.map Hypervisor.id).Nodup) {h : Hypervisor}
    (hh : h ∈ hypers) (f : Hypervisor → Int) :
    ((hypers.filter fun g => !decide (h.id = g.id)).map f).sum = (hypers.map f).sum - f h := by
  induction hypers with
  | nil => cases hh
  | cons g hypers ih =>
    rw [map_cons, nodup_cons] at hnodup
    rw [map_cons, sum_cons]
    rcases mem_cons.mp hh with rfl | hh
    · have hrest : (hypers.filter fun g => !decide (h.id = g.id)) = hypers := by
        apply filter_eq_self.mpr
        intro g hg
        have : h.id ≠ g.id := fun heq => hnodup.1 (heq ▸ mem_map_of_mem hg)
        simpa using this
      rw [filter_cons_of_neg (by simp), hrest]
      omega
    · have hne : h.id ≠ g.id := fun heq => hnodup.1 (heq ▸ mem_map_of_mem hh)
      rw [filter_cons_of_pos (by simpa using hne), map_cons, sum_cons, ih hnodup.2 hh]
      omega

/-! ## The next cycle -/

section Next

variable (roundPercent : Int → Int → Int) (cfg : DirectorRata) (hour : Hour)

theorem reqHypers_eq_zero {minimum avail : Int} (h : minimum < avail) :
    reqHypers minimum avail = 0 := by
  unfold reqHypers
  split
  · next hpos =>
    have hge : 1 ≤ avail.tdiv minimum := by
      rw [Int.tdiv_eq_ediv_of_nonneg (by omega)]
      exact (Int.le_ediv_iff_mul_le hpos).mpr (by omega)
    rw [if_neg (by omega)]
  · rfl

theorem needToScale_addToDeadRow {now : Int} {ops : List OperationsHypervisor}
    {r : NeedToScaleHypervisorsResult} {id : String}
    (h : needToScaleHypervisors roundPercent cfg hour now ops hypers = .ok r)
    (hr : r.hypersToAddToDeadRow = [id]) :
    reqHypersRAM roundPercent cfg hour hypers = 0
      ∧ ∃ hyp, hyp.id = id ∧ hyp ∈ hypersToHandle hypers
        ∧ canBeSentenced roundPercent cfg hour (hypersToAcknowledge hypers) (ramAvail hypers) hyp
          = true := by
  unfold needToScaleHypervisors at h
  split at h
  · -- a scale up sentences nobody
    unfold scaleUp at h
    dsimp only at h
    split at h
    · cases h
      cases hr
    · split at h
      · cases h
        cases hr
      · split at h
        · cases h
          cases hr
        · cases h
  · next hreq =>
    refine ⟨by omega, ?_⟩
    obtain rfl := Except.ok.inj h
    unfold scaleDown at hr
    split at hr
    · cases hr
    · split at hr
      · next hyp hbest =>
        obtain ⟨hmem, hcan⟩ := pickBest_some hbest
        exact ⟨hyp, (List.cons.inj hr).1, hmem, hcan⟩
      · cases hr

theorem needToScale_no_scaleUp (hcpu : reqHypersCPU cfg hour hypers = 0)
    (hram : reqHypersRAM roundPercent cfg hour hypers = 0) (now : Int)
    (ops : List OperationsHypervisor) :
    ∃ r, needToScaleHypervisors roundPercent cfg hour now ops hypers = .ok r
      ∧ r.create = none ∧ r.hypersToRemoveFromDeadRow = []
      ∧ r.hypersToRemoveFromOnlyForced = [] := by
  unfold needToScaleHypervisors
  rw [if_neg (by omega)]
  refine ⟨_, rfl, ?_⟩
  unfold scaleDown
  split
  · exact ⟨rfl, rfl, rfl⟩
  · split <;> exact ⟨rfl, rfl, rfl⟩

variable {hyp : Hypervisor}

theorem reqHypersRAM_sentence {fleet : Fleet} (hmargin : 0 ≤ cfg.deadRowRAMMargin)
    (hreq : reqHypersRAM roundPercent cfg hour fleet.hypers = 0)
    (hmem : hyp ∈ hypersToHandle fleet.hypers)
    (hcan : canBeSentenced roundPercent cfg hour (hypersToAcknowledge fleet.hypers)
      (ramAvail fleet.hypers) hyp = true) (dtz : Option Int) :
    reqHypersRAM roundPercent cfg hour (fleet.writeDeadRow hyp.id true dtz).hypers = 0 := by
  obtain ⟨hfleet, hhandled⟩ := mem_filter.mp hmem
  rw [Bool.and_eq_true] at hhandled
  unfold reqHypersRAM ramAvail
  rw [hypersToAcknowledge_writeDeadRow]
  by_cases hforced : hyp.onlyForced = true
  · -- it was not counted, so the pool is the same
    have hsame : ((hypersToAcknowledge fleet.hypers).filter fun h => !decide (hyp.id = h.id))
        = hypersToAcknowledge fleet.hypers := by
      apply filter_eq_self.mpr
      intro h hh
      obtain ⟨hin, hack⟩ := mem_filter.mp hh
      have hne : hyp.id ≠ h.id := by
        intro heq
        rw [← fleet.eq_of_id hfleet hin heq, hforced] at hack
        simp at hack
      simpa using hne
    rw [hsame]
    exact hreq
  · -- it was counted, and is deducted
    have hack : hyp ∈ hypersToAcknowledge fleet.hypers :=
      mem_filter.mpr ⟨hfleet, by simp [hhandled.1, hforced]⟩
    rw [sum_filter_id_ne (hypersToAcknowledge_idsNodup fleet) hack]
    unfold canBeSentenced at hcan
    rw [reduced_eq_filter] at hcan
    simp only [hforced, Bool.false_and, Bool.false_or, Bool.and_eq_true, decide_eq_true_eq]
      at hcan
    apply reqHypers_eq_zero
    have := hcan.2.2
    unfold ramAvail at this
    omega

theorem setHyperDeadrowTime_of_canBeSentenced {fleet : Fleet}
    (hmem : hyp ∈ hypersToHandle fleet.hypers)
    (hcan : canBeSentenced roundPercent cfg hour (hypersToAcknowledge fleet.hypers)
      (ramAvail fleet.hypers) hyp = true) (dtz : Int) :
    fleet.setHyperDeadrowTime hyp.id false dtz
      = .ok (fleet.writeDeadRow hyp.id true (some dtz)) := by
  obtain ⟨hfleet, hhandled⟩ := mem_filter.mp hmem
  rw [Bool.and_eq_true] at hhandled
  have hnone : hyp.destroyTime.isSome = false := by
    unfold canBeSentenced at hcan
    rw [Bool.and_eq_true] at hcan
    simpa using hcan.1
  unfold Fleet.setHyperDeadrowTime
  rw [fleet.get?_eq hfleet]
  simp [hhandled.2, hnone]

/-- **Sentencing never provokes a RAM scale-up.** When a cycle chooses a hypervisor for the
dead row, the API puts it there, and the next cycle finds no RAM missing: unless CPU is
missing, it pardons, unlimits and creates nothing. -/
theorem setHyperDeadrowTime_no_scaleUp (fleet : Fleet) (now : Int)
    (ops : List OperationsHypervisor) (r : NeedToScaleHypervisorsResult) (id : String) (dtz : Int)
    (hmargin : 0 ≤ cfg.deadRowRAMMargin)
    (hr : needToScaleHypervisors roundPercent cfg hour now ops fleet.hypers = .ok r)
    (hid : r.hypersToAddToDeadRow = [id]) :
    ∃ next, fleet.setHyperDeadrowTime id false dtz = .ok next
      ∧ reqHypersRAM roundPercent cfg hour next.hypers = 0
      ∧ (reqHypersCPU cfg hour next.hypers = 0 →
          ∀ now' ops', ∃ r', needToScaleHypervisors roundPercent cfg hour now' ops' next.hypers
              = .ok r'
            ∧ r'.create = none ∧ r'.hypersToRemoveFromDeadRow = []
            ∧ r'.hypersToRemoveFromOnlyForced = []) := by
  obtain ⟨hreq, hyp, rfl, hmem, hcan⟩ := needToScale_addToDeadRow roundPercent cfg hour hr hid
  have hram := reqHypersRAM_sentence roundPercent cfg hour hmargin hreq hmem hcan (some dtz)
  refine ⟨_, setHyperDeadrowTime_of_canBeSentenced roundPercent cfg hour hmem hcan dtz, hram, ?_⟩
  intro hcpu now' ops'
  exact needToScale_no_scaleUp roundPercent cfg hour hcpu hram now' ops'

end Next

/-! ### A pool of two

The pool must keep half of the 40 MB each hypervisor should have free, and no more than 60 MB
for each of them are wanted. With 220 MB free the bigger one has to go. -/

def twoHosts : Fleet where
  hypers :=
    [ { id := "big", status := .online, bufferingHyper := false, gpuOnly := false,
        onlyForced := false, orchestratorManaged := true, destroyTime := none,
        desktopsStarted := 3, cpu := ⟨100, 80⟩, ram := ⟨200, 120⟩, minFreeMemGB := 0 },
      { id := "small", status := .online, bufferingHyper := false, gpuOnly := false,
        onlyForced := false, orchestratorManaged := true, destroyTime := none,
        desktopsStarted := 1, cpu := ⟨100, 90⟩, ram := ⟨150, 100⟩, minFreeMemGB := 0 } ]
  idsNodup := by decide

def percentLimits : DirectorRata where
  minCPU := 0
  minRAM := 0
  minCPUHourly := none
  minRAMHourly := none
  minRAMLimitPercent := 50
  minRAMLimitPercentHourly := none
  minRAMLimitMargin := 0
  minRAMLimitMarginHourly := none
  maxRAM := 0
  maxRAMHourly := none
  maxRAMLimitPercent := 100
  maxRAMLimitPercentHourly := none
  maxRAMLimitMargin := 0
  maxRAMLimitMarginHourly := none
  deadRowRAMMargin := 10
  hyperMinCPU := 0
  hyperMinRAM := 40
  hyperMaxCPU := 0
  hyperMaxRAM := 60

theorem setHyperDeadrowTime_no_scaleUp_twoHosts :
    needToScaleHypervisors (fun p x => p * x / 100) percentLimits ⟨1, 600⟩ 0 [] twoHosts.hypers
        = .ok { NeedToScaleHypervisorsResult.empty with hypersToAddToDeadRow := ["big"] }
      ∧ ∃ next, twoHosts.setHyperDeadrowTime "big" false 3600 = .ok next
        ∧ reqHypersRAM (fun p x => p * x / 100) percentLimits ⟨1, 600⟩ next.hypers = 0 := by
  have hr : needToScaleHypervisors (fun p x => p * x / 100) percentLimits ⟨1, 600⟩ 0 []
      twoHosts.hypers
        = .ok { NeedToScaleHypervisorsResult.empty with hypersToAddToDeadRow := ["big"] } := by
    rfl
  obtain ⟨next, hnext, hram, _⟩ := setHyperDeadrowTime_no_scaleUp (fun p x => p * x / 100)
    percentLimits ⟨1, 600⟩ twoHosts 0 [] _ "big" 3600 (by decide) hr rfl
  exact ⟨hr, next, hnext, hram⟩

end IsardVDI.Orchestrator
