import IsardVDI.Migration.Selection

/-!
# `lib/storage/migration.py` — `scope_conflict`

A new migration is refused when its scope overlaps that of an active one. Scopes are compared
twice: by the disks they resolve to now, and, when one of the two jobs is recurring, by claims on
pools and paths that do not depend on the disks there are. What a recurring job moves later is
resolved again, with everything that is derived from the disks it selects then.

* **`accepted_jobs_share_derivative`** — a claim on a pool says nothing of the derivatives that
  live elsewhere.
-/

namespace IsardVDI.Migration

open List

/-! ## Claims -/

/-- A claim: a pool, or none if it could not be resolved, and a path in it, or all of it. -/
structure Claim (G : Type) where
  pool : Option G
  path : Option Path
  deriving DecidableEq

structure Pools (G K : Type) where
  assigned : Option K → List G
  defaultPool : G
  /-- `StoragePool.get_by_path`. -/
  byPath : Path → Option G

section Claims

variable {I G K : Type} [DecidableEq I] [DecidableEq G] [DecidableEq K]

variable (pools : Pools G K)

def Pools.forCategory (category : Option K) : List G :=
  match pools.assigned category with
  | [] => [pools.defaultPool]
  | assigned => assigned

def descriptorClaims (kind : SelectionKind) (srcPoolId : Option G) (pathPrefix : Option Path)
    (categoryPools : List G) : List (Claim G) :=
  match kind with
  | .pool => if srcPoolId.isSome then [⟨srcPoolId, none⟩] else []
  | .path => [⟨srcPoolId, some (pathPrefix.getD [])⟩]
  | .category => categoryPools.map fun pool => ⟨some pool, none⟩

def descriptorClaimsFor (selection : Selection I G K) : List (Claim G) :=
  match selection.kind with
  | .category =>
    descriptorClaims .category none none (pools.forCategory selection.categoryId)
  | .path =>
    descriptorClaims .path
      (selection.srcPoolId.or (pools.byPath (selection.pathPrefix.getD [])))
      selection.pathPrefix []
  | .pool => descriptorClaims .pool selection.srcPoolId none []

def claimOverlap (a b : Claim G) : Bool :=
  if a.pool.isSome ∧ b.pool.isSome ∧ a.pool ≠ b.pool then false
  else
    match a.path, b.path with
    | some pathA, some pathB => pathB.isPrefixOf pathA || pathA.isPrefixOf pathB
    | _, _ => true

def descriptorsOverlap (claimsA claimsB : List (Claim G)) : Bool :=
  claimsA.any fun a => claimsB.any fun b => claimOverlap a b

def scopesOverlap (a b : List I) : Bool := a.any (· ∈ b)

/-! ## The decision -/

/-- An active job, as `scope_conflict` is told of it. -/
structure ExistingJob (J I G : Type) where
  id : J
  recurring : Bool
  reservedIds : List I
  claims : List (Claim G)

/-- `scope_conflict`: the first active job the new selection conflicts with. -/
def scopeConflict {J : Type} (newIds : List I) (newClaims : List (Claim G)) (newRecurring : Bool)
    (existing : List (ExistingJob J I G)) : Option J :=
  (existing.find? fun job =>
    ((newRecurring || job.recurring) && descriptorsOverlap newClaims job.claims)
      || scopesOverlap newIds job.reservedIds).map (·.id)

structure ActiveJob (J I G K : Type) where
  id : J
  selection : Selection I G K
  recurring : Bool
  /-- The disks its ledger still holds: `reserving_items`. -/
  held : List I

/-- What a job reserves: a recurring one also what it would move now. -/
def ActiveJob.existing {J : Type} (pools : Pools G K) (estate : Estate I G K)
    (job : ActiveJob J I G K) : ExistingJob J I G where
  id := job.id
  recurring := job.recurring
  reservedIds :=
    if job.recurring then job.held ++ resolvedIds estate job.selection else job.held
  claims := descriptorClaimsFor pools job.selection

def checkNoOverlap {J : Type} (pools : Pools G K) (estate : Estate I G K)
    (active : List (ActiveJob J I G K)) (selection : Selection I G K) (recurring : Bool) :
    Option J :=
  scopeConflict (resolvedIds estate selection) (descriptorClaimsFor pools selection) recurring
    (active.map (·.existing pools estate))

end Claims

/-! ## Disks inside the claims -/

section Jobs

variable {I G K : Type} [DecidableEq G] (pools : Pools G K) {estate : Estate I G K}
  {selection : Selection I G K} {disk : Disk I G K}

def Claim.Holds (claim : Claim G) (disk : Disk I G K) : Prop :=
  (claim.pool = none ∨ claim.pool = disk.poolId) ∧ ∀ path, claim.path = some path →
    path <+: disk.directoryPath

def InClaims (selection : Selection I G K) (disk : Disk I G K) : Prop :=
  ∃ claim ∈ descriptorClaimsFor pools selection, claim.Holds disk

theorem claimOverlap_of_holds {a b : Claim G} (ha : a.Holds disk)
    (hb : b.Holds disk) : claimOverlap a b = true := by
  unfold claimOverlap
  split
  · rename_i hpools
    obtain ⟨hsomeA, hsomeB, hne⟩ := hpools
    -- two pools that are resolved are both the pool of the disk
    have hpoolA : a.pool = disk.poolId := ha.1.resolve_left fun h => by simp [h] at hsomeA
    have hpoolB : b.pool = disk.poolId := hb.1.resolve_left fun h => by simp [h] at hsomeB
    exact absurd (hpoolA.trans hpoolB.symm) hne
  · split
    · rename_i pathA pathB hpathA hpathB
      have hprefixA := ha.2 pathA hpathA
      have hprefixB := hb.2 pathB hpathB
      rcases prefix_or_prefix_of_prefix hprefixA hprefixB with h | h
      · simp [ isPrefixOf_iff_prefix.mpr h]
      · simp [ isPrefixOf_iff_prefix.mpr h]
    · rfl

/-- No disk is inside the claims of two selections that do not overlap. -/
theorem not_inClaims_both {other : Selection I G K}
    (h : descriptorsOverlap (descriptorClaimsFor pools selection)
      (descriptorClaimsFor pools other) = false) :
    ¬ (InClaims pools selection disk ∧ InClaims pools other disk) := by
  rintro ⟨⟨claimA, hclaimA, hholdsA⟩, claimB, hclaimB, hholdsB⟩
  have hoverlap : descriptorsOverlap (descriptorClaimsFor pools selection)
      (descriptorClaimsFor pools other) = true :=
    any_eq_true.mpr ⟨claimA, hclaimA, any_eq_true.mpr
      ⟨claimB, hclaimB, claimOverlap_of_holds hholdsA hholdsB⟩⟩
  rw [h] at hoverlap
  cases hoverlap

variable [DecidableEq K]

/-- The row of a selected disk is covered, if the disks are not named one by one. -/
theorem covers_of_selects (hdisk : disk ∈ estate.disks) (htrees : selection.treeIds = [])
    (h : Selects estate selection disk.id) : selection.covers disk = true := by
  obtain ⟨disk', hrow, hid, hcovers⟩ := h
  obtain rfl := Estate.disk_eq (mem_of_mem_filter hrow) hdisk hid
  simpa [htrees] using hcovers

/-- The selections that keep to their claims: by a pool, or by a path below which every disk is in
the pool of the claim. A category may have disks in any pool, and so may a list of disks. -/
inductive Selection.Claimed (estate : Estate I G K) (selection : Selection I G K) : Prop
  | pool (hkind : selection.kind = .pool) (htrees : selection.treeIds = [])
    (hpool : selection.srcPoolId.isSome)
  | path (hkind : selection.kind = .path) (htrees : selection.treeIds = [])
    (hpool : ∀ disk ∈ estate.disks, selection.pathPrefix.getD [] <+: disk.directoryPath →
      selection.srcPoolId.or (pools.byPath (selection.pathPrefix.getD [])) = disk.poolId)

theorem Selection.Claimed.inClaims (h : selection.Claimed pools estate)
    (hdisk : disk ∈ estate.disks) (hselects : Selects estate selection disk.id) :
    InClaims pools selection disk := by
  cases h with
  | pool hkind htrees hpool =>
    have hsame : disk.poolId = selection.srcPoolId := by
      simpa [Selection.covers, hkind] using covers_of_selects hdisk htrees hselects
    refine ⟨⟨selection.srcPoolId, none⟩, ?_, .inr hsame.symm, nofun⟩
    simp [descriptorClaimsFor, hkind, descriptorClaims, hpool]
  | path hkind htrees hpool =>
    have hbelow : selection.pathPrefix.getD [] <+: disk.directoryPath := by
      simpa [Selection.covers, hkind] using covers_of_selects hdisk htrees hselects
    refine ⟨_, by rw [descriptorClaimsFor, hkind]; exact .head _,
      .inr (hpool disk hdisk hbelow), ?_⟩
    rintro path ⟨⟩
    exact hbelow

/-! ## Two accepted jobs -/

variable [DecidableEq I] (estate : Estate I G K) (a b : Selection I G K)

def Apart : Prop :=
  ∀ id, ¬ (Selects estate a id ∧ Selects estate b id)

def Unrelated : Prop :=
  ∀ idA idB, Selects estate a idA → Selects estate b idB → idA ≠ idB →
    ¬ estate.Derived idA idB ∧ ¬ estate.Derived idB idA

theorem disjoint_iff : (resolvedIds estate a).Disjoint (resolvedIds estate b)
      ↔ Apart estate a b ∧ Unrelated estate a b := by
  constructor
  · intro hdisjoint
    have hnot : ∀ {idA idB id}, Selects estate a idA → Selects estate b idB →
        estate.Derived idA id → estate.Derived idB id → False :=
      fun {idA idB id} hA hB hderA hderB =>
        hdisjoint (mem_resolvedIds.mpr ⟨idA, hA, hderA⟩) (mem_resolvedIds.mpr ⟨idB, hB, hderB⟩)
    refine ⟨fun id h => hnot h.1 h.2 .refl .refl, fun idA idB hA hB _ => ⟨?_, ?_⟩⟩
    · exact fun hderived => hnot hA hB hderived .refl
    · exact fun hderived => hnot hA hB .refl hderived
  · rintro ⟨hapart, hunrelated⟩ id hidA hidB
    obtain ⟨idA, hA, hderA⟩ := mem_resolvedIds.mp hidA
    obtain ⟨idB, hB, hderB⟩ := mem_resolvedIds.mp hidB
    -- the two selected disks are on one chain
    by_cases heq : idA = idB
    · exact hapart idA ⟨hA, heq ▸ hB⟩
    · rcases comparable_of_common hderA hderB with h | h
      · exact (hunrelated idA idB hA hB heq).1 h
      · exact (hunrelated idA idB hA hB heq).2 h

theorem claims_apart {J : Type} {pools : Pools G K} {estate : Estate I G K}
    {active : List (ActiveJob J I G K)} {selection : Selection I G K} {recurring : Bool}
    (haccepted : checkNoOverlap pools estate active selection recurring = none)
    {job : ActiveJob J I G K} (hjob : job ∈ active)
    (hrecurring : recurring = true ∨ job.recurring = true) :
    descriptorsOverlap (descriptorClaimsFor pools selection)
      (descriptorClaimsFor pools job.selection) = false := by
  have hnone := find?_eq_none.mp (Option.map_eq_none_iff.mp haccepted)
    (job.existing pools estate) (mem_map_of_mem hjob)
  have hany : (recurring || job.recurring) = true := by
    rcases hrecurring with h | h <;> simp [h]
  simp only [ActiveJob.existing, hany, Bool.true_and, Bool.or_eq_true, not_or,
    Bool.not_eq_true] at hnone
  exact hnone.1

/-- **Two accepted jobs**, at least one of them recurring, in every later estate. The guard keeps
the disks apart that are inside the claims of their selections, and nothing else: the jobs move no
disk in common exactly when a disk that both select is inside both claims, and no disk that one
selects is derived from another that the other one selects. For two pools, or paths that keep to
their pool, the latter is all. -/
theorem accepted_disjoint_iff {J : Type} {pools : Pools G K} {estate : Estate I G K}
    {active : List (ActiveJob J I G K)} {selection : Selection I G K} {recurring : Bool}
    (haccepted : checkNoOverlap pools estate active selection recurring = none)
    {job : ActiveJob J I G K} (hjob : job ∈ active)
    (hrecurring : recurring = true ∨ job.recurring = true) (later : Estate I G K) :
    ((resolvedIds later job.selection).Disjoint (resolvedIds later selection)
        ↔ (∀ disk ∈ later.disks, Selects later selection disk.id →
            Selects later job.selection disk.id →
              InClaims pools selection disk ∧ InClaims pools job.selection disk)
          ∧ Unrelated later job.selection selection)
      ∧ (selection.Claimed pools later → job.selection.Claimed pools later →
        ((resolvedIds later job.selection).Disjoint (resolvedIds later selection)
          ↔ Unrelated later job.selection selection)) := by
  rw [disjoint_iff]
  have hapart : Apart later job.selection selection
      ↔ ∀ disk ∈ later.disks, Selects later selection disk.id →
          Selects later job.selection disk.id →
            InClaims pools selection disk ∧ InClaims pools job.selection disk := by
    refine ⟨fun hapart disk _ hnew hold => absurd ⟨hold, hnew⟩ (hapart disk.id), ?_⟩
    intro hclaims id hboth
    obtain ⟨disk, hmem, rfl, -⟩ := hboth.1
    exact not_inClaims_both pools (claims_apart haccepted hjob hrecurring)
      (hclaims disk (mem_of_mem_filter hmem) hboth.2 hboth.1)
  refine ⟨and_congr_left fun _ => hapart, fun hnew hold => and_iff_right (hapart.mpr ?_)⟩
  intro disk hdisk hselects hselects'
  exact ⟨hnew.inClaims pools hdisk hselects, hold.inClaims pools hdisk hselects'⟩

end Jobs

/-! ## A derivative in the other pool

The estate is empty when both jobs are accepted. Later disk 0 is in pool 0, and disk 1 in pool 1
is derived from it: both jobs move disk 1. -/

def twoPools : Pools Nat Nat := ⟨fun _ => [], 0, fun _ => none⟩

def emptyEstate : Estate Nat Nat Nat := ⟨[], by decide, fun _ => 0, by simp⟩

def derivedElsewhere : Estate Nat Nat Nat where
  disks := [⟨0, none, .ready, some 0, none, [], []⟩, ⟨1, some 0, .ready, some 1, none, [], []⟩]
  nodup := by decide
  acyclic := ⟨id, by simp⟩

def drainPool (pool : Nat) : Selection Nat Nat Nat := { srcPoolId := some pool }

def drainJob : ActiveJob Nat Nat Nat Nat := ⟨7, drainPool 0, true, []⟩

theorem accepted_jobs_share_derivative :
    checkNoOverlap twoPools emptyEstate [drainJob] (drainPool 1) true = none
      ∧ 1 ∈ resolvedIds derivedElsewhere (drainPool 0)
      ∧ 1 ∈ resolvedIds derivedElsewhere (drainPool 1) := by
  decide

def unrelatedDisks : Estate Nat Nat Nat where
  disks := [⟨0, none, .ready, some 0, none, [], []⟩, ⟨1, none, .ready, some 1, none, [], []⟩]
  nodup := by decide
  acyclic := ⟨id, by simp⟩

/-- Two disks that back nothing, one in each pool. -/
theorem accepted_jobs_disjoint : (resolvedIds unrelatedDisks (drainPool 0)).Disjoint
    (resolvedIds unrelatedDisks (drainPool 1)) := by
  have haccepted : checkNoOverlap twoPools emptyEstate [drainJob] (drainPool 1) true = none := by
    decide
  refine ((accepted_disjoint_iff haccepted (.head _) (.inl rfl) unrelatedDisks).2
    (.pool rfl rfl rfl) (.pool rfl rfl rfl)).mpr ?_
  -- no disk has a derivative
  have hnone : ∀ idA idB, idA ≠ idB → ¬ unrelatedDisks.Derived idA idB := by
    intro idA idB hne hderived
    rcases Relation.ReflTransGen.cases_tail hderived with rfl | ⟨parent, -, hchild⟩
    · exact hne rfl
    · simp [Estate.children, unrelatedDisks] at hchild
  exact fun idA idB _ _ hne => ⟨hnone idA idB hne, hnone idB idA hne.symm⟩

end IsardVDI.Migration
