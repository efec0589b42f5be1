import IsardVDI.Lib.Machine
import IsardVDI.Storage.Rows

/-!
# `task_results/storage.py` — `_apply_storage_update`

A reading of a disk is written to its row, and what depends on the disk follows. `write_reading`
decides whether the row takes the status: a recycled row and a damaged one do not. When a disk is
found gone, every disk behind it becomes an orphan; when it is found again, the orphans whose
backing link still leads to it become ready.
-/

namespace IsardVDI.ChangeHandler.StorageUpdate

open IsardVDI.Storage
open List

/-! ## Domains -/

/-- The statuses of a domain `_promote_domains_to_stopped` tells apart. -/
inductive DomainStatus where
  | downloading
  | downloaded
  | diskNew
  | unknown
  | creatingDomain
  | creatingDomainFromDisk
  | creatingTemplate
  | maintenance
  | stopped
  | failed
  /-- Running, or on its way to another status. -/
  | other
  deriving DecidableEq, Repr

def DomainStatus.preReady : DomainStatus → Bool
  | .downloading | .downloaded | .diskNew | .unknown | .creatingDomain | .creatingDomainFromDisk
  | .creatingTemplate | .maintenance => true
  | .stopped | .failed | .other => false

structure Domain (I : Type) where
  status : DomainStatus
  storages : List I
  deriving DecidableEq, Repr

/-- A result of a task that looked at a disk, and the call that applies it. -/
structure Reading (I P : Type) where
  id : I
  status : Option StorageStatus
  fullBackingFilename : Option P
  /-- The task does not own the row. -/
  observer : Bool
  /-- When the reading started. -/
  readAt : Option Nat
  /-- When it is applied. -/
  now : Nat

structure State (I P : Type) where
  table : Table I P
  domains : List (Domain I)

/-- What `_recover_orphan_dependents` works on, and the rows it has restored. -/
abbrev Acc (I P : Type) := State I P × List I

section Update

variable {I P : Type}

/-! ## The row -/

/-- `keep` of `Storage.write_reading`: the row drops this status. -/
def Reading.keeps (reading : Reading I P) (status : StorageStatus) (row : Row I P) : Bool :=
  row.status = some .recycled
    || (reading.observer && row.status = some .maintenance)
    || (status ≠ .deleted && row.status = some .damaged)
    || (status ≠ .deleted && row.status = some .deleted && reading.readAt.any (· < row.statusTime))

def Reading.write (reading : Reading I P) (row : Row I P) : Row I P :=
  let measured := { row with
    fullBackingFilename := reading.fullBackingFilename.or row.fullBackingFilename }
  match reading.status with
  | none => measured
  | some status =>
    if reading.keeps status row then measured
    else { measured with status := some status, statusTime := reading.now }

variable (reading : Reading I P) (row : Row I P)

theorem parent_write : (reading.write row).parent = row.parent := by
  unfold Reading.write
  split
  · rfl
  · split <;> rfl

theorem status_write :
    (reading.write row).status = match reading.status with
      | none => row.status
      | some status => if reading.keeps status row then row.status else some status := by
  unfold Reading.write
  split
  · rfl
  · split <;> rfl

/-- The row leaves the two statuses only for `deleted`. -/
def StickyRow (before after : Option StorageStatus) : Prop :=
  (before = some .recycled → after = some .recycled ∨ after = some .deleted)
    ∧ (before = some .damaged → after = some .damaged ∨ after = some .deleted)

theorem StickyRow.of_eq {before after : Option StorageStatus} (h : after = before) :
    StickyRow before after := ⟨fun hb => .inl (h.trans hb), fun hb => .inl (h.trans hb)⟩

theorem stickyRow_write : StickyRow row.status (reading.write row).status := by
  rw [status_write]
  split
  · exact .of_eq rfl
  · rename_i status _
    split
    · exact .of_eq rfl
    · rename_i hkeeps
      constructor
      · intro hrec
        exact absurd (by simp [Reading.keeps, hrec]) hkeeps
      · intro hdam
        by_cases hdel : status = .deleted
        · exact .inr (by rw [hdel])
        · exact absurd (by simp [Reading.keeps, hdam, hdel]) hkeeps

variable [DecidableEq I]

def writeReading (table : Table I P) (reading : Reading I P) : Table I P :=
  table.modify reading.id reading.write

variable (table : Table I P) (s : State I P)

theorem status_modify (id id' : I) (f : Row I P → Row I P) :
    (table.modify id f).status id' =
      if id' = id then (table.get id').bind fun row => (f row).status else table.status id' := by
  rw [Table.status, Table.get_modify, Table.status]
  cases table.get id' with
  | none => simp
  | some row => split <;> simp [*]

theorem status_writeReading_of_ne {table : Table I P} {reading : Reading I P} {id : I}
    (h : id ≠ reading.id) : (writeReading table reading).status id = table.status id := by
  simp [writeReading, status_modify, h]

theorem status_writeReading_self :
    (writeReading table reading).status reading.id
      = (table.get reading.id).bind fun row => (reading.write row).status := by
  simp [writeReading, status_modify]

theorem stickyRow_writeReading (id : I) :
    StickyRow (table.status id) ((writeReading table reading).status id) := by
  by_cases hid : id = reading.id
  · subst hid
    rw [status_writeReading_self, Table.status]
    cases table.get reading.id with
    | none => exact .of_eq rfl
    | some row => exact stickyRow_write reading row
  · exact .of_eq (status_writeReading_of_ne hid)

/-- The statuses that take the disk away from what depends on it. -/
def gone : StorageStatus → Bool
  | .deleted | .orphan | .brokenChain => true
  | .ready | .maintenance | .recycled | .damaged => false

/-- The row takes a status that says the disk is gone. -/
def Takes (table : Table I P) (reading : Reading I P) : Prop :=
  ∃ status row, reading.status = some status ∧ gone status = true
    ∧ table.get reading.id = some row ∧ reading.keeps status row = false

theorem cascades_iff {table : Table I P} {reading : Reading I P} {status : StorageStatus}
    (h : (writeReading table reading).status reading.id = some status) :
    (reading.status = some status ∧ gone status = true) ↔ Takes table reading := by
  rw [status_writeReading_self] at h
  obtain ⟨row, hget, hwrite⟩ := Option.bind_eq_some_iff.mp h
  rw [status_write] at hwrite
  constructor
  · rintro ⟨hstatus, hgone⟩
    refine ⟨status, row, hstatus, hgone, hget, ?_⟩
    -- a row that keeps its status has none that the reading could report as gone
    by_contra hkeeps
    rw [hstatus] at hwrite
    simp only [hkeeps, if_true] at hwrite
    simp only [Reading.keeps, hwrite] at hkeeps
    cases status <;> simp [gone] at hgone hkeeps
  · rintro ⟨status', row', hstatus, hgone, hget', hkeeps⟩
    rw [hget] at hget'
    cases hget'
    simp only [hstatus, hkeeps, Bool.false_eq_true, if_false] at hwrite
    cases hwrite
    exact ⟨hstatus, hgone⟩

/-! ## What depends on it -/

def promoteDomainsToStopped (domains : List (Domain I)) (id : I) : List (Domain I) :=
  domains.map fun domain =>
    if id ∈ domain.storages ∧ domain.status.preReady then { domain with status := .stopped }
    else domain

/-- The domains of the disks are set to `Failed`. -/
def failDomains (domains : List (Domain I)) (ids : List I) : List (Domain I) :=
  domains.map fun domain =>
    if ∃ id ∈ ids, id ∈ domain.storages then { domain with status := .failed } else domain

/-- `update_document_if` with `excluding=("deleted",)`. -/
def orphanUnlessDeleted (now : Nat) (table : Table I P) (id : I) : Table I P :=
  table.modify id fun row =>
    if row.status = some .deleted then row
    else { row with status := some .orphan, statusTime := now }

/-- The disk is gone: the domains on it and behind it fail, the disks behind it are orphans. -/
def orphanDependents (s : State I P) (id : I) (now : Nat) : State I P where
  domains := failDomains s.domains (id :: s.table.dependents id true)
  table := (s.table.dependents id true).foldl (orphanUnlessDeleted now) s.table

def restoreOrphanToReady (s : State I P) (id : I) (now : Nat) : State I P :=
  if s.table.status id = some .orphan then
    { table := s.table.modify id fun row => { row with status := some .ready, statusTime := now }
      domains := promoteDomainsToStopped s.domains id }
  else s

theorem status_orphans (now : Nat) (ids : List I) (table : Table I P) (id : I) :
    (ids.foldl (orphanUnlessDeleted now) table).status id =
      if id ∈ ids ∧ table.status id ≠ some .deleted ∧ (table.get id).isSome then some .orphan
      else table.status id := by
  induction ids generalizing table with
  | nil => simp
  | cons first ids ih =>
    rw [foldl_cons, ih]
    have hget : ((orphanUnlessDeleted now table first).get id).isSome = (table.get id).isSome := by
      simp [orphanUnlessDeleted, Table.get_modify]
    rw [hget]
    by_cases hid : id = first
    · subst hid
      -- the row itself is written now, and the rest of the loop finds an orphan or a deleted row
      cases hrow : table.get id with
      | none => simp [orphanUnlessDeleted, Table.status, hrow]
      | some row =>
        by_cases hdel : row.status = some .deleted <;>
          simp [orphanUnlessDeleted, Table.status, hrow, hdel]
    · have hsame : (orphanUnlessDeleted now table first).status id = table.status id := by
        simp [orphanUnlessDeleted, status_modify, hid]
      simp [hsame, hid]

/-- No row but an orphan has another status. -/
def RecoversOrphans (table table' : Table I P) : Prop :=
  ∀ id, table.status id ≠ some .orphan → table'.status id = table.status id

theorem RecoversOrphans.refl : RecoversOrphans table table := fun _ _ => rfl

theorem RecoversOrphans.trans {a b c : Table I P} (h : RecoversOrphans a b)
    (h' : RecoversOrphans b c) : RecoversOrphans a c := by
  intro id hid
  have hb := h id hid
  rw [← hb]
  exact h' id (hb ▸ hid)

theorem recoversOrphans_restore (id : I) (now : Nat) :
    RecoversOrphans s.table (restoreOrphanToReady s id now).table := by
  intro id' hid'
  unfold restoreOrphanToReady
  split
  · rename_i horphan
    have hne : id' ≠ id := fun heq => hid' (heq ▸ horphan)
    simp [status_modify, hne]
  · rfl

/-- The rows that are not restored yet. -/
def unseen (acc : Acc I P) : Nat :=
  ((acc.1.table.rows.map (·.id)).filter (· ∉ acc.2)).length

theorem ids_restoreOrphanToReady (id : I) (now : Nat) :
    (restoreOrphanToReady s id now).table.rows.map (·.id) = s.table.rows.map (·.id) := by
  unfold restoreOrphanToReady
  split
  · exact Table.map_id_modify _ _ _
  · rfl

/-- `acc'` comes after `acc`: the same rows, no fewer of them seen, only orphans recovered. -/
structure Later (acc acc' : Acc I P) : Prop where
  ids : acc'.1.table.rows.map (·.id) = acc.1.table.rows.map (·.id)
  seen : acc.2 ⊆ acc'.2
  recovers : RecoversOrphans acc.1.table acc'.1.table

theorem Later.refl (acc : Acc I P) : Later acc acc := ⟨rfl, fun _ h => h, .refl _⟩

theorem Later.trans {a b c : Acc I P} (h : Later a b) (h' : Later b c) : Later a c :=
  ⟨h'.ids.trans h.ids, fun _ hx => h'.seen (h.seen hx), h.recovers.trans h'.recovers⟩

variable {acc : Acc I P}

theorem Later.unseen_le {acc' : Acc I P} (h : Later acc acc') : unseen acc' ≤ unseen acc := by
  rw [unseen, unseen, h.ids]
  refine Sublist.length_le (monotone_filter_right _ fun id hid => ?_)
  simp only [decide_eq_true_eq] at hid ⊢
  exact fun hmem => hid (h.seen hmem)

variable [DecidableEq P]

/-- A child `_recover_orphan_dependents` brings back: an orphan whose own backing link leads to
the path. -/
def recovers (table : Table I P) (seen : List I) (path : P) (child : I) : Bool :=
  match table.get child with
  | some row => child ∉ seen && row.status = some .orphan && row.fullBackingFilename = some path
  | none => false

/-- One turn of the loop over the children. `recurse` is the nested call. -/
def recoverChild (recurse : Acc I P → I → Acc I P) (now : Nat) (path : P)
    (acc : Acc I P) (child : I) : Acc I P :=
  if recovers acc.1.table acc.2 path child then
    recurse (restoreOrphanToReady acc.1 child now, child :: acc.2) child
  else acc

/-- `_recover_orphan_dependents`, with the rows it has restored. Every nested call has one more
of them, so there are no more nested calls than rows. -/
def recoverOrphanDependents (now : Nat) : Nat → Acc I P → I → Acc I P
  | 0, acc, _ => acc
  | turns + 1, acc, id =>
    match acc.1.table.get id with
    | none => acc
    | some parent => (acc.1.table.getChildren [id] false).foldl
        (recoverChild (recoverOrphanDependents now turns) now parent.path) acc

/-! ## `_apply_storage_update` -/

def applyStorageUpdate (s : State I P) (reading : Reading I P) :
    State I P × Option StorageStatus :=
  let table := writeReading s.table reading
  match table.status reading.id with
  | none => ({ s with table }, none)
  | some status =>
    let s := { s with table }
    let s := if reading.status = some status ∧ gone status then
        orphanDependents s reading.id reading.now
      else s
    let s := if reading.status = some .ready ∧ status = .ready then
        (recoverOrphanDependents reading.now s.table.rows.length
          ({ s with domains := promoteDomainsToStopped s.domains reading.id }, [reading.id])
          reading.id).1
      else s
    (s, some status)

def machine : Machine (State I P) (Reading I P) :=
  ⟨fun s reading => some (applyStorageUpdate s reading).1⟩

/-! ## The recursion ends

A nested call has a row more in `seen`, and `seen` only grows. -/

theorem later_recoverChild {recurse : Acc I P → I → Acc I P}
    (hrecurse : ∀ acc id, Later acc (recurse acc id)) (now : Nat) (path : P) (acc : Acc I P)
    (child : I) : Later acc (recoverChild recurse now path acc child) := by
  unfold recoverChild
  split
  · refine .trans ⟨?_, fun _ hx => .tail _ hx, ?_⟩ (hrecurse _ child)
    · exact ids_restoreOrphanToReady acc.1 child now
    · exact recoversOrphans_restore acc.1 child now
  · exact .refl acc

variable (now turns : Nat)

theorem later_recoverOrphanDependents (acc : Acc I P) (id : I) :
    Later acc (recoverOrphanDependents now turns acc id) := by
  induction turns generalizing acc id with
  | zero => exact .refl acc
  | succ turns ih =>
    rw [recoverOrphanDependents]
    split
    · exact .refl acc
    · exact foldlRecOn _ _ (.refl acc) fun _ h child _ =>
        h.trans (later_recoverChild ih now _ _ child)

theorem unseen_restored {path : P} {child : I} (h : recovers acc.1.table acc.2 path child = true) :
    unseen (restoreOrphanToReady acc.1 child now, child :: acc.2) < unseen acc := by
  cases hget : acc.1.table.get child with
  | none => simp [recovers, hget] at h
  | some row =>
    simp only [recovers, hget, Bool.and_eq_true, decide_eq_true_eq] at h
    have hmem : child ∈ acc.1.table.rows.map (·.id) := by
      rw [← Table.get_id hget]
      exact mem_map_of_mem (Table.get_mem hget)
    have hsub : (acc.1.table.rows.map (·.id)).filter (· ∉ child :: acc.2)
        = ((acc.1.table.rows.map (·.id)).filter (· ∉ acc.2)).filter (· ≠ child) := by
      rw [filter_filter]
      refine filter_congr fun id _ => ?_
      simp
    rw [unseen, unseen, ids_restoreOrphanToReady, hsub]
    refine length_filter_lt_length_iff_exists.mpr ⟨child, ?_, by simp⟩
    exact mem_filter.mpr ⟨hmem, by simpa using h.1.1⟩

theorem foldl_recoverChild {r r' : Acc I P → I → Acc I P} {bound : Nat}
    (hlater : ∀ acc id, Later acc (r' acc id))
    (hrec : ∀ acc id, unseen acc < bound → r acc id = r' acc id) (path : P) (children : List I)
    (h : unseen acc ≤ bound) :
    children.foldl (recoverChild r now path) acc
      = children.foldl (recoverChild r' now path) acc := by
  induction children generalizing acc with
  | nil => rfl
  | cons child children ih =>
    have hchild : recoverChild r now path acc child = recoverChild r' now path acc child := by
      unfold recoverChild
      split
      · exact hrec _ child ((unseen_restored now ‹_›).trans_le h)
      · rfl
    rw [foldl_cons, foldl_cons, hchild]
    exact ih ((later_recoverChild hlater now path acc child).unseen_le.trans h)

theorem recoverOrphanDependents_fuel (acc : Acc I P) (id : I) (h : unseen acc < turns) :
    recoverOrphanDependents now (turns + 1) acc id = recoverOrphanDependents now turns acc id := by
  induction turns generalizing acc id with
  | zero => cases h
  | succ turns ih =>
    rw [recoverOrphanDependents, recoverOrphanDependents]
    split
    · rfl
    · exact foldl_recoverChild now (later_recoverOrphanDependents now turns) ih _ _
        (Nat.le_of_lt_succ h)

/-- **The recursion ends**, on every table, also one whose backing links form a cycle: more turns
than rows make no difference. -/
theorem recoverOrphanDependents_ends (id : I) (more : Nat) :
    recoverOrphanDependents now (s.table.rows.length + more) (s, [id]) id
      = recoverOrphanDependents now s.table.rows.length (s, [id]) id := by
  induction more with
  | zero => rfl
  | succ more ih =>
    rw [← ih]
    cases hget : s.table.get id with
    | none =>
      have hsame : ∀ turns, recoverOrphanDependents now turns (s, [id]) id = (s, [id]) := by
        intro turns
        cases turns <;> simp [recoverOrphanDependents, hget]
      rw [hsame, hsame]
    | some row =>
      -- the row itself counts as seen
      have hlt : unseen (s, [id]) < s.table.rows.length := by
        rw [← length_map (·.id)]
        refine length_filter_lt_length_iff_exists.mpr ⟨id, ?_, by simp⟩
        exact mem_map.mpr ⟨row, Table.get_mem hget, Table.get_id hget⟩
      exact recoverOrphanDependents_fuel now _ _ id (Nat.lt_add_right more hlt)

/-! ## Recycled and damaged rows -/

def Sticky (s s' : State I P) : Prop := ∀ id, StickyRow (s.table.status id) (s'.table.status id)

/-- The disk is taken away, and a recycled or damaged one depends on it. -/
def Strands (s : State I P) (reading : Reading I P) : Prop :=
  Takes s.table reading ∧ ∃ id, s.table.DependsOn true id reading.id
    ∧ (s.table.status id = some .recycled ∨ s.table.status id = some .damaged)

theorem applyStorageUpdate_cases (s : State I P) (reading : Reading I P) :
    let table := writeReading s.table reading
    (Takes s.table reading
      ∧ (applyStorageUpdate s reading).1.table
        = (table.dependents reading.id true).foldl (orphanUnlessDeleted reading.now) table)
    ∨ (¬ Takes s.table reading
      ∧ RecoversOrphans table (applyStorageUpdate s reading).1.table) := by
  intro table
  cases hstatus : (writeReading s.table reading).status reading.id with
  | none =>
    refine .inr ⟨?_, ?_⟩
    · rintro ⟨status, row, hreading, -, hget, hkeeps⟩
      rw [status_writeReading_self, hget, Option.bind_some, status_write] at hstatus
      simp [hreading, hkeeps] at hstatus
    · simp only [applyStorageUpdate, hstatus]
      exact .refl _
  | some status =>
    by_cases hgone : reading.status = some status ∧ gone status = true
    · refine .inl ⟨(cascades_iff hstatus).mp hgone, ?_⟩
      have hready : ¬ (reading.status = some .ready ∧ status = .ready) := by
        rintro ⟨-, rfl⟩
        cases hgone.2
      simp only [applyStorageUpdate, hstatus, if_pos hgone, if_neg hready]
      rfl
    · refine .inr ⟨fun h => hgone ((cascades_iff hstatus).mpr h), ?_⟩
      simp only [applyStorageUpdate, hstatus, if_neg hgone]
      split
      · exact (later_recoverOrphanDependents reading.now _
          ({ s with
              table := writeReading s.table reading
              domains := promoteDomainsToStopped s.domains reading.id }, [reading.id])
          reading.id).recovers
      · exact .refl _

/-- **One reading.** It leaves the recycled and the damaged rows alone, unless it takes away the
disk they depend on. -/
theorem sticky_iff : Sticky s (applyStorageUpdate s reading).1 ↔ ¬ Strands s reading := by
  have hdep : ∀ id, id ∈ (writeReading s.table reading).dependents reading.id true
      ↔ s.table.DependsOn true id reading.id := fun id =>
    Table.mem_dependents.trans (Table.dependsOn_modify (parent_write reading))
  rcases applyStorageUpdate_cases s reading with ⟨htakes, htable⟩ | ⟨hnot, hrec⟩
  · constructor
    · -- a dependent with one of the two statuses became an orphan
      rintro hsticky ⟨-, id, hdepends, hstatus⟩
      have hwritten : (writeReading s.table reading).status id = s.table.status id :=
        status_writeReading_of_ne hdepends.1
      have hafter : (applyStorageUpdate s reading).1.table.status id = some .orphan := by
        rw [htable, status_orphans, if_pos]
        refine ⟨(hdep id).mpr hdepends, ?_, ?_⟩
        · rw [hwritten]
          rcases hstatus with hstatus | hstatus <;> rw [hstatus] <;> nofun
        · have hsome : ((writeReading s.table reading).status id).isSome := by
            rw [hwritten]
            rcases hstatus with hstatus | hstatus <;> rw [hstatus] <;> rfl
          exact Option.isSome_of_isSome_bind hsome
      have hrow := hsticky id
      rw [hafter] at hrow
      rcases hstatus with hstatus | hstatus
      · rcases hrow.1 hstatus with h | h <;> cases h
      · rcases hrow.2 hstatus with h | h <;> cases h
    · intro hstrands id
      rw [htable, status_orphans]
      split
      · rename_i hmem
        have hdepends := (hdep id).mp hmem.1
        have hclean : s.table.status id ≠ some .recycled ∧ s.table.status id ≠ some .damaged := by
          constructor <;> intro hstatus <;> refine hstrands ⟨htakes, id, hdepends, ?_⟩
          · exact .inl hstatus
          · exact .inr hstatus
        exact ⟨fun h => absurd h hclean.1, fun h => absurd h hclean.2⟩
      · exact stickyRow_writeReading reading s.table id
  · refine iff_of_true (fun id => ?_) fun h => hnot h.1
    have hwrite := stickyRow_writeReading reading s.table id
    -- a row with one of the two statuses is not an orphan after the write, so it is not recovered
    constructor
    · intro hstatus
      rcases hwrite.1 hstatus with h | h <;> rw [hrec id (by rw [h]; nofun), h] <;> simp
    · intro hstatus
      rcases hwrite.2 hstatus with h | h <;> rw [hrec id (by rw [h]; nofun), h] <;> simp

/-- **Every sequence of readings.** All steps are sticky exactly when no step takes away a disk
with a recycled or damaged one behind it. -/
theorem sticky_run_iff (s : State I P) (readings : List (Reading I P)) :
    machine.Meets (fun s reading => Sticky s (applyStorageUpdate s reading).1) s readings
      ↔ machine.Meets (fun s reading => ¬ Strands s reading) s readings := by
  induction readings generalizing s with
  | nil => exact Iff.rfl
  | cons reading readings ih =>
    have hnext : machine.next s reading = some (applyStorageUpdate s reading).1 := rfl
    rw [machine.meets_cons hnext, machine.meets_cons hnext, ih, sticky_iff]

end Update

/-! ## A parent that disappears and comes back

Disk 1 is in the recycle bin and backed by disk 0. The file of disk 0 is not found, then found
again: disk 1 is ready, and out of the bin. -/

def binnedChild : State Nat Nat where
  table :=
    { rows := [⟨0, none, some .ready, 0, 100, none⟩, ⟨1, some 0, some .recycled, 0, 101, some 100⟩]
      nodup := by decide }
  domains := []

def seenGone : Reading Nat Nat := ⟨0, some .deleted, none, false, none, 1⟩
def seenAgain : Reading Nat Nat := ⟨0, some .ready, none, false, none, 2⟩

theorem binnedChild_restored :
    binnedChild.table.status 1 = some .recycled
      ∧ ∃ s, machine.run binnedChild [seenGone, seenAgain] = some s
        ∧ s.table.status 1 = some .ready := by
  refine ⟨by decide, _, rfl, ?_⟩
  decide

end IsardVDI.ChangeHandler.StorageUpdate
