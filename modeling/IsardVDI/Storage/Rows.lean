import IsardVDI.Lib.Worklist

/-!
# `models/storage.py` — storage rows and what depends on them

The `storage` table, by id. `parent` is a plain field with no referential integrity: it may name a
row that is not there, and corrupt rows may form a cycle.

* `Row`, `Table` — the columns the disk readings touch; ids are unique.
* `Table.modify` — an update of one row by id. An update never creates a row and never renames one.
* **`mem_dependents`** — the walk finds every row whose chain of parents leads to the row.
-/

namespace IsardVDI.Storage

open List

/-- `StorageStatusEnum`, and `broken_chain`, which only a reading writes. -/
inductive StorageStatus where
  | ready
  | maintenance
  | recycled
  | orphan
  | deleted
  | damaged
  | brokenChain
  deriving DecidableEq, Repr

structure Row (I P : Type) where
  id : I
  parent : Option I
  status : Option StorageStatus
  statusTime : Nat
  path : P
  /-- `full-backing-filename` of `qemu-img-info`. -/
  fullBackingFilename : Option P
  deriving DecidableEq, Repr

structure Table (I P : Type) where
  rows : List (Row I P)
  nodup : (rows.map (·.id)).Nodup

namespace Table

variable {I P : Type} [DecidableEq I]

variable (table : Table I P)

def get (id : I) : Option (Row I P) := table.rows.find? (·.id = id)

def status (id : I) : Option StorageStatus := (table.get id).bind (·.status)

theorem map_id_modify (rows : List (Row I P)) (id : I) (f : Row I P → Row I P) :
    (rows.map fun row => if row.id = id then { f row with id := row.id } else row).map (·.id)
      = rows.map (·.id) := by
  rw [map_map]
  refine map_congr_left fun row _ => ?_
  show (if row.id = id then { f row with id := row.id } else row).id = row.id
  split <;> rfl

def modify (id : I) (f : Row I P → Row I P) : Table I P where
  rows := table.rows.map fun row => if row.id = id then { f row with id := row.id } else row
  nodup := by
    rw [map_id_modify]
    exact table.nodup

variable {table : Table I P} {id child : I} {row : Row I P}

theorem get_id (h : table.get id = some row) : row.id = id := by
  simpa using find?_some h

theorem get_mem (h : table.get id = some row) :
    row ∈ table.rows := mem_of_find?_eq_some h

theorem get_of_mem (h : row ∈ table.rows) : table.get row.id = some row := by
  cases hget : table.get row.id with
  | none => simpa using find?_eq_none.mp hget row h
  | some row' =>
    have hid := get_id hget
    have hinj := inj_on_of_nodup_map table.nodup (get_mem hget) h hid
    rw [hinj]

section

variable (table : Table I P)

theorem get_modify (id id' : I) (f : Row I P → Row I P) : (table.modify id f).get id' =
      (table.get id').map fun row => if id' = id then { f row with id := row.id } else row := by
  have hcomp : ∀ row : Row I P,
      (if row.id = id then { f row with id := row.id } else row).id = row.id := by
    intro row
    split <;> rfl
  unfold get modify
  rw [find?_map]
  have hpred : ((fun row : Row I P => decide (row.id = id')) ∘ fun row =>
      if row.id = id then { f row with id := row.id } else row)
      = fun row => decide (row.id = id') := by
    funext row
    simp only [Function.comp_apply, hcomp]
  rw [hpred]
  cases hfind : table.rows.find? (fun row => decide (row.id = id')) with
  | none => rfl
  | some row =>
    have hid : row.id = id' := by simpa using find?_some hfind
    simp [hid]

@[simp] theorem get_modify_self (id : I) (f : Row I P → Row I P) :
    (table.modify id f).get id = (table.get id).map fun row => { f row with id := row.id } := by
  simp [get_modify]

/-! ## Children and dependents -/

def getChildren (ids : List I) (includeDeleted : Bool) : List I :=
  (table.rows.filter fun row =>
    row.parent.any (· ∈ ids) && (includeDeleted || row.status ≠ some .deleted)).map (·.id)

/-- `Storage.dependent_levels`. There are no more levels than rows. -/
def dependentLevels (id : I) (includeDeleted : Bool) : List (List I) :=
  Worklist.levels (table.getChildren · includeDeleted) table.rows.length [id] [id]

def dependents (id : I) (includeDeleted : Bool) : List I :=
  (table.dependentLevels id includeDeleted).flatten

def Backs (includeDeleted : Bool) (parent child : I) : Prop :=
  ∃ row, table.get child = some row ∧ row.parent = some parent
    ∧ (includeDeleted = true ∨ row.status ≠ some .deleted)

/-- The chain of parents of `child` leads to `id`. -/
def DependsOn (includeDeleted : Bool) (child id : I) : Prop :=
  child ≠ id ∧ Relation.TransGen (table.Backs includeDeleted) id child

end

variable {includeDeleted : Bool}

theorem mem_getChildren {ids : List I} :
    child ∈ table.getChildren ids includeDeleted
      ↔ ∃ parent ∈ ids, table.Backs includeDeleted parent child := by
  constructor
  · intro h
    obtain ⟨row, hrow, rfl⟩ := mem_map.mp h
    obtain ⟨hmem, hkeep⟩ := mem_filter.mp hrow
    simp only [Bool.and_eq_true, Option.any_eq_true, decide_eq_true_eq, Bool.or_eq_true] at hkeep
    obtain ⟨⟨parent, hparent, hin⟩, hstatus⟩ := hkeep
    exact ⟨parent, hin, row, get_of_mem hmem, hparent, by simpa using hstatus⟩
  · rintro ⟨parent, hin, row, hget, hparent, hstatus⟩
    refine mem_map.mpr ⟨row, mem_filter.mpr ⟨get_mem hget, ?_⟩, get_id hget⟩
    simpa [hparent, hin] using hstatus

theorem mem_dependents :
    child ∈ table.dependents id includeDeleted ↔ table.DependsOn includeDeleted child id := by
  have hmembers : ∀ a b, table.Backs includeDeleted a b → b ∈ (table.rows.map (·.id)).toFinset := by
    rintro a b ⟨row, hget, -, -⟩
    rw [mem_toFinset, ← get_id hget]
    exact mem_map_of_mem (get_mem hget)
  have hcard : ((table.rows.map (·.id)).toFinset).card ≤ table.rows.length := by
    simpa using toFinset_card_le (table.rows.map (·.id))
  exact Worklist.mem_levels (fun _ _ => mem_getChildren) hmembers hcard child

variable {f : Row I P → Row I P}

theorem backs_modify {parent : I} (hf : ∀ row, (f row).parent = row.parent) :
    (table.modify id f).Backs true parent child ↔ table.Backs true parent child := by
  simp only [Backs, get_modify, Option.map_eq_some_iff, true_or, and_true]
  constructor
  · rintro ⟨_, ⟨row, hget, rfl⟩, hparent⟩
    refine ⟨row, hget, ?_⟩
    split at hparent
    · rw [← hf row]
      exact hparent
    · exact hparent
  · rintro ⟨row, hget, hparent⟩
    refine ⟨_, ⟨row, hget, rfl⟩, ?_⟩
    split
    · exact (hf row).trans hparent
    · exact hparent

theorem dependsOn_modify {id' : I} (hf : ∀ row, (f row).parent = row.parent) :
    (table.modify id f).DependsOn true child id' ↔ table.DependsOn true child id' := by
  have hbacks : (table.modify id f).Backs true = table.Backs true := by
    funext parent child
    exact propext (backs_modify hf)
  rw [DependsOn, DependsOn, hbacks]

end Table

end IsardVDI.Storage
