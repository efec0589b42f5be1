import IsardVDI.Lib.Combinations
import IsardVDI.Orchestrator.Rata

/-!
# Orchestrator — the director `Chamaleon`

Chamaleon scales the hypervisors with GPUs to the bookings of the next hour. A row of the
forecast names a brand, a model and a profile; `NeedToScaleHypervisors` counts the units it has
and the units it needs by the profile alone.

* **`bestHypersToCreate`**, **`bestHypersToDestroy`** — the choice among all the combinations of
  the available hypervisors, for any enumeration `combinations.All` may use.
* **`needToScaleHypervisors`** — one cycle. The clock is read once here.
-/

namespace IsardVDI.Orchestrator

open IsardVDI.GoSlice
open List

/-! ## Hypervisors with GPUs -/

structure HypervisorGPU where
  brand : String
  model : String
  deriving DecidableEq, Repr

structure OrchestratorHypervisorGPU extends HypervisorGPU where
  profile : String
  totalUnits : Int
  deriving DecidableEq, Repr

/-- The fields of `OrchestratorHypervisor` that only Chamaleon reads; `bookingsEndTime` is `none`
when it is not set. -/
structure GpuHypervisor extends Hypervisor where
  gpus : List OrchestratorHypervisorGPU
  bookingsEndTime : Option Int
  deriving DecidableEq, Repr

inductive HypervisorCapability where
  | unspecified
  | storage
  | gpu
  deriving DecidableEq, Repr

structure GpuOperationsHypervisor extends OperationsHypervisor where
  capabilities : List HypervisorCapability
  gpus : List HypervisorGPU
  deriving DecidableEq, Repr

/-- A row of the forecast, with the units of its three `GpuForecastUnit`. -/
structure GpuForecastProfile where
  brand : String
  model : String
  profile : String
  now : Int
  toCreate : Int
  toDestroy : Int
  deriving DecidableEq, Repr

structure GpuFleet where
  hypers : List GpuHypervisor
  idsNodup : (hypers.map fun h => h.id).Nodup

namespace Chamaleon

/-! ## The table of the cards -/

structure EngineGPUProfile where
  profile : String
  units : Int
  memory : Int
  deriving DecidableEq, Repr

structure EngineGPU where
  brand : String
  model : String
  profiles : List EngineGPUProfile
  deriving DecidableEq, Repr

def chamaleonGPUProfiles : List EngineGPU :=
  [ { brand := "NVIDIA", model := "T4"
      profiles :=
        [⟨"16Q", 1, 16384⟩, ⟨"1Q", 16, 1024⟩, ⟨"2Q", 8, 2048⟩, ⟨"4Q", 4, 4096⟩, ⟨"8Q", 2, 8192⟩,
          ⟨"4C", 4, 4096⟩, ⟨"8C", 2, 8192⟩, ⟨"16C", 1, 16384⟩] },
    { brand := "NVIDIA", model := "A40"
      profiles :=
        [⟨"12Q", 4, 12288⟩, ⟨"16Q", 3, 16384⟩, ⟨"1Q", 32, 1024⟩, ⟨"24Q", 2, 24576⟩,
          ⟨"2Q", 24, 2048⟩, ⟨"3Q", 16, 3072⟩, ⟨"48Q", 1, 49152⟩, ⟨"4Q", 12, 4096⟩,
          ⟨"6Q", 8, 6144⟩, ⟨"8Q", 6, 8192⟩, ⟨"12C", 4, 12288⟩, ⟨"16C", 3, 16384⟩,
          ⟨"24C", 2, 24576⟩, ⟨"48C", 1, 49152⟩, ⟨"4C", 12, 4096⟩, ⟨"6C", 8, 6144⟩,
          ⟨"8C", 6, 8192⟩] },
    { brand := "NVIDIA", model := "A16"
      profiles :=
        [⟨"1Q", 16, 1024⟩, ⟨"2Q", 8, 2048⟩, ⟨"4Q", 4, 4096⟩, ⟨"8Q", 2, 8192⟩, ⟨"16Q", 1, 16384⟩,
          ⟨"4C", 4, 4096⟩, ⟨"8C", 2, 8192⟩, ⟨"16C", 1, 16384⟩] },
    { brand := "NVIDIA", model := "A10"
      profiles :=
        [⟨"12Q", 2, 12288⟩, ⟨"1Q", 24, 1024⟩, ⟨"24Q", 1, 24576⟩, ⟨"2Q", 12, 2048⟩,
          ⟨"3Q", 8, 3072⟩, ⟨"4Q", 6, 4096⟩, ⟨"6Q", 4, 6144⟩, ⟨"8Q", 3, 8192⟩, ⟨"12C", 2, 12288⟩,
          ⟨"24C", 1, 24576⟩, ⟨"4C", 6, 4096⟩, ⟨"6C", 4, 6144⟩, ⟨"8C", 3, 8192⟩] } ]

variable (g : HypervisorGPU)

def cardProfiles : List EngineGPUProfile :=
  (chamaleonGPUProfiles.filter fun card => card.brand = g.brand ∧ card.model = g.model).flatMap
    fun card => card.profiles

def cardMemory : Int :=
  (((cardProfiles g).filter fun p => p.units = 1).map fun p => p.memory).sum

/-! ## Comparing combinations -/

def isSmaller (this thanThis : List GpuOperationsHypervisor) : Bool :=
  let mem := fun (l : List GpuOperationsHypervisor) =>
    (l.map fun h => (h.gpus.map cardMemory).sum).sum
  decide (mem this < mem thanThis)

def memory (l : List GpuHypervisor) : Int :=
  (l.map fun h => (h.gpus.map fun g => cardMemory g.toHypervisorGPU).sum).sum

def desktopsStarted (l : List GpuHypervisor) : Int :=
  (l.map fun h => h.desktopsStarted).sum

/-- With the same memory, the one with fewer desktops is the bigger. -/
def isBigger (this thanThis : List GpuHypervisor) : Bool :=
  if memory this = memory thanThis then decide (desktopsStarted this < desktopsStarted thanThis)
  else decide (memory thanThis < memory this)

/-! ## Units -/

def unitsWhere (ok : OrchestratorHypervisorGPU → Bool) (hypers : List GpuHypervisor) : Int :=
  (hypers.map fun h => ((h.gpus.filter ok).map fun g => g.totalUnits).sum).sum

variable (hypers : List GpuHypervisor)

/-- What the loops count in `totalUnits` and `hypersUnits`: the units by profile. -/
def profileUnits (profile : String) : Int :=
  unitsWhere (fun g => g.profile = profile) hypers

def maximumBookings (times : List Int) : Int :=
  times.foldl (fun units t => if units < t then t else units) 0

/-! ## Scaling up -/

abbrev Units := AList fun _ : String => Int

/-- The units that are missing of each profile; Go's `/` truncates. -/
def reqHypersUnits (totalUnits : String → Int) (bookings : List GpuForecastProfile) : Units :=
  bookings.foldl
    (fun req b =>
      let t := maximumBookings [b.now, b.toCreate]
      if 0 < t ∧ (totalUnits b.profile).tdiv t = 0 then
        req.insert b.profile (t - totalUnits b.profile)
      else req)
    ∅

variable (combo : List GpuOperationsHypervisor)

/-- What the cards of a combination are added up to in `comboUnits`; `none` is a profile that
none of them has. -/
def comboUnits (profile : String) : Option Int :=
  let profiles := (combo.flatMap fun h => h.gpus.flatMap cardProfiles).filter fun p =>
    p.profile = profile
  if profiles.isEmpty then none else some (profiles.map fun p => p.units).sum

def hasProfile (minUnits : Units) (combo : List GpuOperationsHypervisor) : Bool :=
  minUnits.entries.all fun e => (comboUnits combo e.1).isSome

def hasEnough (minUnits : Units) (combo : List GpuOperationsHypervisor) : Bool :=
  minUnits.entries.all fun e =>
    match comboUnits combo e.1 with
    | none => false
    | some availUnits => !decide (availUnits < e.2)

def availableToCreate : Bool :=
  combo.all fun h => decide (h.state = .availableToCreate)

variable (comb : Combinations)

/-- The smallest combination that has enough units, or else the biggest that has the profiles. -/
def bestHypersToCreate (avail : List GpuOperationsHypervisor)
    (minUnits : Units) : Except DirectorError (List String) :=
  let combos := (comb.all avail).filter availableToCreate
  let biggestCombo := keepBest (hasProfile minUnits) (fun c big => isSmaller big c) [] combos
  match pickBest (hasEnough minUnits) isSmaller combos with
  | some bestHypers => .ok (bestHypers.map fun h => h.id)
  | none =>
    if biggestCombo.isEmpty then .error .noHypervisorAvailable
    else .ok (biggestCombo.map fun h => h.id)

variable (avail : List GpuHypervisor)

def bestHypersToCreateIsardVDI (minUnits : Units) : Except DirectorError (List String) :=
  let hypers : List GpuOperationsHypervisor := avail.map fun h =>
    { id := h.id
      state := .availableToCreate
      ram := toInt32 h.ram.total
      capabilities := []
      gpus := h.gpus.map fun g => g.toHypervisorGPU }
  bestHypersToCreate comb hypers minUnits

/-! ## Scaling down -/

variable (total : String → Int) (bookings : List GpuForecastProfile)

def canBeDestroyed : Bool :=
  bookings.all fun b =>
    !decide (total b.profile - profileUnits hypers b.profile
      < maximumBookings [b.now, b.toDestroy])

def bestHypersToDestroy : List String :=
  (keepBest (fun c => canBeDestroyed c total bookings) isBigger [] (comb.all avail)).map
    fun h => h.id

/-! ## `NeedToScaleHypervisors` -/

def serves (h : GpuHypervisor) : Bool :=
  decide (h.status = .online) && h.destroyTime.isNone && !h.bufferingHyper && !h.onlyForced

def counted : List GpuHypervisor :=
  hypers.filter fun h => serves h && !h.gpus.isEmpty

def hypersAvail : List GpuHypervisor :=
  (counted hypers).filter fun h => h.orchestratorManaged

def hypersOnDeadRow : List GpuHypervisor :=
  hypers.filter fun h =>
    decide (h.status = .online) && h.destroyTime.isSome && h.orchestratorManaged
      && !h.gpus.isEmpty

def operationsHypersAvail (operationsHypers : List GpuOperationsHypervisor)
    (hypers : List GpuHypervisor) : List GpuOperationsHypervisor :=
  operationsHypers.filter fun h =>
    decide (.gpu ∈ h.capabilities) && !hypers.any fun hyp => h.id = hyp.id

/-- On the dead row, and its time has come, or it has no desktops, or no bookings any more. -/
def timeToDestroy (now : Int) (h : GpuHypervisor) : Bool :=
  match h.destroyTime with
  | none => false
  | some t =>
    decide (t < now) || decide (h.desktopsStarted = 0)
      || (match h.bookingsEndTime with
        | none => true
        | some bookingsEnd => decide (bookingsEnd < now))

def hypersToDestroy (now : Int) (hypers : List GpuHypervisor) : List String :=
  (hypers.filter fun h =>
    decide (h.status = .online) && !h.bufferingHyper && h.orchestratorManaged
      && !h.gpus.isEmpty && timeToDestroy now h).map fun h => h.id

/-- The error is ignored: it can only say that there are not enough hypervisors. -/
def hypersToPardon (req : Units) (hypers : List GpuHypervisor) : List String :=
  if (hypersOnDeadRow hypers).isEmpty then []
  else
    match bestHypersToCreateIsardVDI comb (hypersOnDeadRow hypers) req with
    | .ok ids => ids
    | .error _ => []

def scaleUp (req : Units)
    (operationsHypers : List GpuOperationsHypervisor) (hypers : List GpuHypervisor) :
    Except DirectorError NeedToScaleHypervisorsResult :=
  if !(hypersToPardon comb req hypers).isEmpty then
    .ok { NeedToScaleHypervisorsResult.empty with
      hypersToRemoveFromDeadRow := hypersToPardon comb req hypers }
  else
    match bestHypersToCreate comb (operationsHypersAvail operationsHypers hypers) req with
    | .error err => .error err
    | .ok ids => .ok { NeedToScaleHypervisorsResult.empty with create := some ids }

def scaleDown (now : Int) (bookings : List GpuForecastProfile)
    (hypers : List GpuHypervisor) : NeedToScaleHypervisorsResult :=
  let deadRow :=
    bestHypersToDestroy comb (hypersAvail hypers) (profileUnits (counted hypers)) bookings
  if !deadRow.isEmpty then
    { NeedToScaleHypervisorsResult.empty with hypersToAddToDeadRow := deadRow }
  else if !(hypersToDestroy now hypers).isEmpty then
    { NeedToScaleHypervisorsResult.empty with destroy := some (hypersToDestroy now hypers) }
  else .empty

/-- What a cycle fails with: the call for the forecast, wrapped in `get bookings list`, or no
hypervisor to create. -/
inductive Error (E : Type) where
  | getBookingsList (err : E)
  | director (err : DirectorError)
  deriving DecidableEq, Repr

def needToScaleHypervisors {E : Type} (comb : Combinations) (now : Int)
    (getGpuBookingsForecast : Except E (List GpuForecastProfile))
    (operationsHypers : List GpuOperationsHypervisor) (hypers : List GpuHypervisor) :
    Except (Error E) NeedToScaleHypervisorsResult :=
  match getGpuBookingsForecast with
  | .error err => .error (.getBookingsList err)
  | .ok bookings =>
    let req := reqHypersUnits (profileUnits (counted hypers)) bookings
    if !req.entries.isEmpty then
      match scaleUp comb req operationsHypers hypers with
      | .error err => .error (.director err)
      | .ok res => .ok res
    else .ok (scaleDown comb now bookings hypers)

/-! ## What a cycle sentences

The hypervisors of a new dead row are a combination of the available ones that
`canBeDestroyed` accepts. -/

theorem max_le_maximumBookings (a b : Int) : max a b ≤ maximumBookings [a, b] := by
  simp only [maximumBookings, foldl_cons, foldl_nil]
  split_ifs <;> omega

theorem canBeDestroyed_iff {hypers : List GpuHypervisor} {total : String → Int}
    {bookings : List GpuForecastProfile} :
    canBeDestroyed hypers total bookings = true
      ↔ ∀ b ∈ bookings, maximumBookings [b.now, b.toDestroy]
        ≤ total b.profile - profileUnits hypers b.profile := by
  simp only [canBeDestroyed, all_eq_true, Bool.not_eq_true', decide_eq_false_iff_not, not_lt]

section Cycle

variable {E : Type} {comb : Combinations} {now : Int} {bookings : List GpuForecastProfile}
  {operationsHypers : List GpuOperationsHypervisor} {hypers : List GpuHypervisor}
  {res : NeedToScaleHypervisorsResult}

theorem deadRow_scaleUp {req : Units} (hres : scaleUp comb req operationsHypers hypers = .ok res) :
    res.hypersToAddToDeadRow = [] := by
  unfold scaleUp at hres
  split at hres
  · obtain rfl := Except.ok.inj hres
    rfl
  · split at hres
    · cases hres
    · obtain rfl := Except.ok.inj hres
      rfl

theorem deadRow_scaleDown :
    (scaleDown comb now bookings hypers).hypersToAddToDeadRow
      = bestHypersToDestroy comb (hypersAvail hypers) (profileUnits (counted hypers)) bookings := by
  unfold scaleDown
  dsimp only
  split
  · rfl
  · next hdead =>
    have hempty : bestHypersToDestroy comb (hypersAvail hypers) (profileUnits (counted hypers))
        bookings = [] := by simpa using hdead
    rw [hempty]
    split <;> rfl

end Cycle

/-! ## Counting units -/

variable (ok : OrchestratorHypervisorGPU → Bool)

theorem unitsWhere_filter_add (p : GpuHypervisor → Bool) (hypers : List GpuHypervisor) :
    unitsWhere ok (hypers.filter p) + unitsWhere ok (hypers.filter fun h => !p h)
      = unitsWhere ok hypers := by
  unfold unitsWhere
  rw [← sum_append, ← map_append]
  exact ((filter_append_perm p hypers).map _).sum_eq

theorem unitsWhere_congr {ok ok' : OrchestratorHypervisorGPU → Bool} {hypers : List GpuHypervisor}
    (hok : ∀ h ∈ hypers, ∀ g ∈ h.gpus, ok g = ok' g) :
    unitsWhere ok hypers = unitsWhere ok' hypers := by
  unfold unitsWhere
  congr 1
  refine map_congr_left fun h hh => ?_
  rw [filter_congr (hok h hh)]

theorem unitsWhere_filter_gpus (hypers : List GpuHypervisor) :
    unitsWhere ok (hypers.filter fun h => !h.gpus.isEmpty) = unitsWhere ok hypers := by
  have hnone : unitsWhere ok (hypers.filter fun h => !!h.gpus.isEmpty) = 0 := by
    refine sum_eq_zero fun x hx => ?_
    obtain ⟨h, hh, rfl⟩ := mem_map.mp hx
    have hgpus : h.gpus = [] := by simpa using (mem_filter.mp hh).2
    rw [hgpus]
    rfl
  have hsum := unitsWhere_filter_add ok (fun h => !h.gpus.isEmpty) hypers
  omega

def outside (fleet : GpuFleet) (deadRow : List String) : List GpuHypervisor :=
  fleet.hypers.filter fun h => serves h && !decide (h.id ∈ deadRow)

theorem unitsWhere_outside (fleet : GpuFleet) {c : List GpuHypervisor}
    (hc : c.Sublist (hypersAvail fleet.hypers)) :
    unitsWhere ok (outside fleet (c.map fun h => h.id))
      = unitsWhere ok (counted fleet.hypers) - unitsWhere ok c := by
  have hcounted : (counted fleet.hypers).Sublist fleet.hypers := filter_sublist
  -- by the unique ids, the sentenced ones among the counted are the combination
  have hin : ((counted fleet.hypers).filter fun h => decide (h.id ∈ c.map fun h => h.id)) = c :=
    filter_mem_map_of_sublist (fun h => h.id) (hc.trans filter_sublist)
      (fleet.idsNodup.sublist (hcounted.map _))
  have hout : unitsWhere ok
        ((counted fleet.hypers).filter fun h => !decide (h.id ∈ c.map fun h => h.id))
      = unitsWhere ok (outside fleet (c.map fun h => h.id)) := by
    rw [← unitsWhere_filter_gpus ok (outside _ _), counted, outside, filter_filter, filter_filter]
    congr 1
    refine filter_congr fun h _ => ?_
    cases serves h <;> cases h.gpus.isEmpty <;> simp
  have hsum := unitsWhere_filter_add ok (fun h => decide (h.id ∈ c.map fun h => h.id))
    (counted fleet.hypers)
  rw [hin, hout] at hsum
  omega

/-! ## Booked units -/

@[ext] structure Vgpu where
  brand : String
  model : String
  profile : String
  deriving DecidableEq, Repr

def gpuVgpu (g : OrchestratorHypervisorGPU) : Vgpu := ⟨g.brand, g.model, g.profile⟩

def rowVgpu (b : GpuForecastProfile) : Vgpu := ⟨b.brand, b.model, b.profile⟩

def vgpuUnits (hypers : List GpuHypervisor) (v : Vgpu) : Int :=
  unitsWhere (fun g => gpuVgpu g = v) hypers

/-- If the cycle sentences someone, the units booked now and in the next hour stay. -/
def KeepsBooked (E : Type) (comb : Combinations) (now : Int) (bookings : List GpuForecastProfile)
    (operationsHypers : List GpuOperationsHypervisor) (fleet : GpuFleet) : Prop :=
  ∀ res : NeedToScaleHypervisorsResult,
    needToScaleHypervisors comb now (.ok bookings : Except E _) operationsHypers fleet.hypers
      = .ok res →
    res.hypersToAddToDeadRow ≠ [] →
    ∀ b ∈ bookings,
      max b.now b.toDestroy ≤ vgpuUnits (outside fleet res.hypersToAddToDeadRow) (rowVgpu b)

def OfCatalogue (K : Set Vgpu) (bookings : List GpuForecastProfile) (fleet : GpuFleet) : Prop :=
  (∀ h ∈ fleet.hypers, ∀ g ∈ h.gpus, gpuVgpu g ∈ K) ∧ ∀ b ∈ bookings, rowVgpu b ∈ K

variable {K : Set Vgpu}

theorem vgpuUnits_eq_profileUnits (hK : Set.InjOn Vgpu.profile K) {hypers : List GpuHypervisor}
    (hgpus : ∀ h ∈ hypers, ∀ g ∈ h.gpus, gpuVgpu g ∈ K) {v : Vgpu} (hv : v ∈ K) :
    vgpuUnits hypers v = profileUnits hypers v.profile := by
  refine unitsWhere_congr fun h hh g hg => ?_
  refine decide_eq_decide.mpr ⟨?_, ?_⟩
  · rintro rfl
    rfl
  · exact fun hprofile => hK (hgpus h hh g hg) hv hprofile

/-! ## The combinations a cycle may sentence -/

/-- What `isBigger` compares: the memory, and then the desktops. -/
def size (c : List GpuHypervisor) : Int ×ₗ Int := toLex (memory c, -desktopsStarted c)

theorem isBigger_iff (this thanThis : List GpuHypervisor) :
    isBigger this thanThis = true ↔ size thanThis < size this := by
  rw [size, size, Prod.Lex.toLex_lt_toLex, isBigger]
  split_ifs with h
  · simp [h]
  · simp [Ne.symm h]

/-- The test with the units counted by brand, model and profile. -/
def canBeDestroyedByCard (fleet : GpuFleet) (c : List GpuHypervisor)
    (bookings : List GpuForecastProfile) : Bool :=
  bookings.all fun b => decide (max b.now b.toDestroy
    ≤ vgpuUnits (counted fleet.hypers) (rowVgpu b) - vgpuUnits c (rowVgpu b))

/-- The biggest combinations that can be destroyed. -/
structure Sentenceable (fleet : GpuFleet) (bookings : List GpuForecastProfile)
    (c : List GpuHypervisor) : Prop where
  avail : c.Sublist (hypersAvail fleet.hypers)
  destroyed : canBeDestroyed c (profileUnits (counted fleet.hypers)) bookings = true
  some : isBigger c [] = true
  biggest : ∀ c', c'.Sublist (hypersAvail fleet.hypers) →
    canBeDestroyed c' (profileUnits (counted fleet.hypers)) bookings = true →
      isBigger c' c = false

/-- A row for which units are missing now or in half an hour: the fleet is scaled up. -/
def Lacks (total : String → Int) (b : GpuForecastProfile) : Prop :=
  0 < maximumBookings [b.now, b.toCreate]
    ∧ (total b.profile).tdiv (maximumBookings [b.now, b.toCreate]) = 0

theorem reqHypersUnits_eq_empty_iff :
    reqHypersUnits total bookings = ∅ ↔ ∀ b ∈ bookings, ¬ Lacks total b := by
  -- what is missing stays so, whatever the next rows add
  have hgrow : ∀ (bookings : List GpuForecastProfile) (req : Units), bookings.foldl
      (fun req b =>
        let t := maximumBookings [b.now, b.toCreate]
        if 0 < t ∧ (total b.profile).tdiv t = 0 then
          req.insert b.profile (t - total b.profile)
        else req) req = ∅ ↔ req = ∅ ∧ ∀ b ∈ bookings, ¬ Lacks total b := by
    intro bookings
    induction bookings with
    | nil => simp
    | cons b bookings ih =>
      intro req
      rw [foldl_cons, ih]
      by_cases hlacks : Lacks total b
      · have hne : ∀ units : Int, req.insert b.profile units ≠ ∅ := fun units h => by
          have hmem : b.profile ∈ req.insert b.profile units := (AList.mem_insert _).mpr (.inl rfl)
          rw [h] at hmem
          exact AList.notMem_empty _ hmem
        simp [show _ ∧ _ from hlacks, hne, hlacks]
      · simp [show ¬ (_ ∧ _) from hlacks, hlacks]
  exact (hgrow bookings ∅).trans (and_iff_right rfl)

section Exact

variable {E : Type} {comb : Combinations} {now : Int} {bookings : List GpuForecastProfile}
  {operationsHypers : List GpuOperationsHypervisor} {fleet : GpuFleet} {c : List GpuHypervisor}

theorem keeps_iff_byCard (hc : c.Sublist (hypersAvail fleet.hypers)) :
    (∀ b ∈ bookings, max b.now b.toDestroy
        ≤ vgpuUnits (outside fleet (c.map fun h => h.id)) (rowVgpu b))
      ↔ canBeDestroyedByCard fleet c bookings = true := by
  simp [canBeDestroyedByCard, vgpuUnits, unitsWhere_outside _ fleet hc]

/-- The combination that is kept is one of the biggest. -/
theorem sentenceable_of_keepBest (hkept : keepBest (fun c => canBeDestroyed c
      (profileUnits (counted fleet.hypers)) bookings) isBigger []
        (comb.all (hypersAvail fleet.hypers)) = c) (hne : c ≠ []) :
    Sentenceable fleet bookings c := by
  obtain ⟨hkept, hbest⟩ := keepBest_best isBigger_iff hkept
  obtain ⟨hmem, hok, hnil⟩ := hkept.resolve_left hne
  refine ⟨((comb.mem_all _ _).mp hmem).2, hok, (isBigger_iff _ _).mpr hnil, fun c' hsub hok' => ?_⟩
  rw [← Bool.not_eq_true, isBigger_iff, not_lt]
  by_cases hempty : c' = []
  · rw [hempty]
    exact hnil.le
  · exact hbest c' ((comb.mem_all _ _).mpr ⟨hempty, hsub⟩) hok'

/-- A cycle that sentences someone found no units missing and kept one of the biggest. -/
theorem deadRow_sentenceable {res : NeedToScaleHypervisorsResult}
    (hres : needToScaleHypervisors comb now (.ok bookings : Except E _) operationsHypers
      fleet.hypers = .ok res) (hne : res.hypersToAddToDeadRow ≠ []) :
    (∀ b ∈ bookings, ¬ Lacks (profileUnits (counted fleet.hypers)) b)
      ∧ ∃ c, Sentenceable fleet bookings c
        ∧ res.hypersToAddToDeadRow = c.map fun h => h.id := by
  unfold needToScaleHypervisors at hres
  dsimp only at hres
  split at hres
  · split at hres
    · cases hres
    · next hup =>
      obtain rfl := Except.ok.inj hres
      exact absurd (deadRow_scaleUp hup) hne
  · next hreq =>
    obtain rfl := Except.ok.inj hres
    rw [deadRow_scaleDown, bestHypersToDestroy] at hne ⊢
    refine ⟨(reqHypersUnits_eq_empty_iff _ _).mp (AList.ext (by simpa using hreq)), _,
      sentenceable_of_keepBest rfl fun h => hne ?_, rfl⟩
    rw [h]
    rfl

end Exact

theorem keepsBooked_of_injOn (E : Type) (comb : Combinations) (now : Int)
    (operationsHypers : List GpuOperationsHypervisor) (hK : Set.InjOn Vgpu.profile K)
    {bookings : List GpuForecastProfile} {fleet : GpuFleet} (hof : OfCatalogue K bookings fleet) :
    KeepsBooked E comb now bookings operationsHypers fleet := by
  intro res hres hne b hb
  obtain ⟨-, c, hc, hdead⟩ := deadRow_sentenceable hres hne
  have hgpus : ∀ h ∈ outside fleet res.hypersToAddToDeadRow, ∀ g ∈ h.gpus, gpuVgpu g ∈ K :=
    fun h hh => hof.1 h (mem_of_mem_filter hh)
  calc max b.now b.toDestroy
      ≤ maximumBookings [b.now, b.toDestroy] := max_le_maximumBookings _ _
    _ ≤ profileUnits (counted fleet.hypers) b.profile - profileUnits c b.profile :=
        canBeDestroyed_iff.mp hc.destroyed b hb
    _ = profileUnits (outside fleet res.hypersToAddToDeadRow) b.profile := by
        rw [hdead]
        exact (unitsWhere_outside _ fleet hc.avail).symm
    _ = vgpuUnits (outside fleet res.hypersToAddToDeadRow) (rowVgpu b) :=
        (vgpuUnits_eq_profileUnits hK hgpus (hof.2 b hb)).symm

def oneCard (id : String) (managed : Bool) (desktops : Int) (v : Vgpu) (units : Int) :
    GpuHypervisor where
  id := id
  status := .online
  bufferingHyper := false
  gpuOnly := false
  onlyForced := false
  orchestratorManaged := managed
  destroyTime := none
  desktopsStarted := desktops
  cpu := ⟨64, 32⟩
  ram := ⟨262144, 131072⟩
  minFreeMemGB := 0
  gpus := [⟨⟨v.brand, v.model⟩, v.profile, units⟩]
  bookingsEndTime := none

def bookedRow (v : Vgpu) (units : Int) : GpuForecastProfile :=
  ⟨v.brand, v.model, v.profile, units, units, units⟩

def a10 (profile : String) : Vgpu := ⟨"NVIDIA", "A10", profile⟩

def t4 (profile : String) : Vgpu := ⟨"NVIDIA", "T4", profile⟩

/-- An A10 and a T4, both with the profile `4Q`. -/
def mixedFleet : GpuFleet where
  hypers := [oneCard "hyper-a10" true 0 (a10 "4Q") 6, oneCard "hyper-t4" true 0 (t4 "4Q") 4]
  idsNodup := by decide

/-- Two A10 with the profile `4Q`, and a T4 with the profile `2Q`. -/
def distinctFleet : GpuFleet where
  hypers :=
    [oneCard "hyper-1" true 0 (a10 "4Q") 6, oneCard "hyper-2" true 0 (a10 "4Q") 6,
      oneCard "hyper-t4" true 0 (t4 "2Q") 8]
  idsNodup := by decide

end Chamaleon

end IsardVDI.Orchestrator
