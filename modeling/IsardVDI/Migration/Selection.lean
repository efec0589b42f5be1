import IsardVDI.Storage.Rows

/-!
# `lib/storage/migration.py` — selections, roots and subtrees

A migration names disks by their pool, their category, a path or by id. What moves is more than
what is named: the roots of the selected set and everything that is derived from them, in the
selection or not.

* `Disk`, `Estate` — the `storage` table, with the pool and the category resolved for each row. The
  backing links of an estate form a forest.
-/

namespace IsardVDI.Migration

open IsardVDI.Storage
open List

abbrev Path := List Char

structure Disk (I G K : Type) where
  id : I
  parent : Option I
  status : StorageStatus
  poolId : Option G
  /-- The category of its owner. -/
  category : Option K
  directoryPath : Path
  type : Path
  deriving DecidableEq

structure Estate (I G K : Type) where
  disks : List (Disk I G K)
  nodup : (disks.map (·.id)).Nodup
  acyclic : ∃ depth : I → Nat, ∀ disk ∈ disks, ∀ parent, disk.parent = some parent →
    depth parent < depth disk.id

inductive SelectionKind where
  | pool
  | path
  | category
  deriving DecidableEq, Repr

structure Selection (I G K : Type) where
  kind : SelectionKind := .pool
  srcPoolId : Option G := none
  categoryId : Option K := none
  pathPrefix : Option Path := none
  treeIds : List I := []

section Selection

variable {I G K : Type} [DecidableEq I] [DecidableEq G] [DecidableEq K]

/-! ## Roots -/

variable (estate : Estate I G K)

/-- `_enumerate_storages`: the rows a selection is read from are ready. -/
def Estate.rows : List (Disk I G K) :=
  estate.disks.filter (·.status = .ready)

variable (selection : Selection I G K)

/-- `_selection_members`, row by row. -/
def Selection.covers (disk : Disk I G K) : Bool :=
  match selection.kind with
  | .pool => disk.poolId = selection.srcPoolId
  | .category => disk.category = selection.categoryId
  | .path => (selection.pathPrefix.getD []).isPrefixOf disk.directoryPath

variable (rows : List (Disk I G K))

def selectionMembers (selection : Selection I G K) : List I :=
  (rows.filter selection.covers).map (·.id)

/-- The explicit ids: those that exist, each once, in their order. -/
def explicitRoots (treeIds : List I) : List I :=
  treeIds.foldl (fun out id => if id ∈ rows.map (·.id) ∧ id ∉ out then out ++ [id] else out) []

def computeRoots (selection : Selection I G K) : List I :=
  if selection.treeIds ≠ [] then explicitRoots rows selection.treeIds
  else
    (rows.filter fun disk => disk.id ∈ selectionMembers rows selection ∧
      disk.parent.all (· ∉ selectionMembers rows selection)).map (·.id)

def rootsForSelection : List I :=
  computeRoots estate.rows selection

/-! ## Subtrees -/

def Estate.children (id : I) : List I :=
  (estate.disks.filter fun disk => disk.parent = some id ∧ disk.status ≠ .deleted).map (·.id)

/-- `walk_tree_topo`. Every disk is the child of one other, so the queue has no more turns than
disks and the root. -/
def walkTreeTopo (root : I) : List I :=
  Worklist.bfs estate.children (estate.disks.length + 1) [] [root]

def resolvedIds : List I :=
  (rootsForSelection estate selection).flatMap (walkTreeTopo estate)

def Estate.Derived (ancestor disk : I) : Prop :=
  Worklist.Reaches estate.children ancestor disk

end Selection

section Forest

variable {I G K : Type} [DecidableEq I]

namespace Estate

variable {estate : Estate I G K}

theorem mem_children {id child : I} : child ∈ estate.children id ↔ ∃ disk ∈ estate.disks,
    disk.id = child ∧ disk.parent = some id ∧ disk.status ≠ .deleted := by
  simp only [children, mem_map, mem_filter, decide_eq_true_eq]
  constructor
  · rintro ⟨disk, ⟨hmem, hparent, hstatus⟩, rfl⟩
    exact ⟨disk, hmem, rfl, hparent, hstatus⟩
  · rintro ⟨disk, hmem, rfl, hparent, hstatus⟩
    exact ⟨disk, ⟨hmem, hparent, hstatus⟩, rfl⟩

omit [DecidableEq I] in
theorem disk_eq {a b : Disk I G K} (ha : a ∈ estate.disks) (hb : b ∈ estate.disks)
    (h : a.id = b.id) : a = b := inj_on_of_nodup_map estate.nodup ha hb h

theorem parent_unique {a b child : I} (ha : child ∈ estate.children a)
    (hb : child ∈ estate.children b) : a = b := by
  obtain ⟨disk, hmem, hid, hparent, -⟩ := mem_children.mp ha
  obtain ⟨disk', hmem', hid', hparent', -⟩ := mem_children.mp hb
  rw [disk_eq hmem hmem' (hid.trans hid'.symm)] at hparent
  exact Option.some.inj (hparent.symm.trans hparent')

theorem sum_filter_parent_le (disks : List (Disk I G K)) (members : Finset I) :
    ∑ id ∈ members, (disks.filter fun disk =>
      disk.parent = some id ∧ disk.status ≠ .deleted).length ≤ disks.length := by
  induction disks with
  | nil => simp
  | cons disk disks ih =>
    have hcons : ∀ id, ((disk :: disks).filter fun disk =>
        disk.parent = some id ∧ disk.status ≠ .deleted).length
        ≤ (if disk.parent = some id then 1 else 0) + (disks.filter fun disk =>
          disk.parent = some id ∧ disk.status ≠ .deleted).length := by
      intro id
      rw [filter_cons]
      split_ifs with hkeep hparent hparent <;> simp_all
    have hone : ∑ id ∈ members, (if disk.parent = some id then 1 else 0) ≤ 1 := by
      cases hparent : disk.parent with
      | none => simp
      | some parent =>
        have heq : ∀ id, (some parent = some id) ↔ parent = id := fun id => by simp
        simp only [heq, Finset.sum_ite_eq]
        split <;> omega
    have hsum := Finset.sum_le_sum fun id (_ : id ∈ members) => hcons id
    rw [Finset.sum_add_distrib] at hsum
    rw [length_cons]
    omega

end Estate

/-- **The walk of a subtree** visits what is derived from its root, every disk once and every
parent before its children. -/
theorem walkTreeTopo_order (estate : Estate I G K) (root : I) :
    Worklist.Order estate.children root (walkTreeTopo estate root) := by
  refine Worklist.bfs_order (insert root (estate.disks.map (·.id)).toFinset)
    (Finset.mem_insert_self _ _) ?_ ?_
  · intro a _ b hb
    obtain ⟨disk, hmem, rfl, -⟩ := Estate.mem_children.mp hb
    exact Finset.mem_insert_of_mem (mem_toFinset.mpr (mem_map_of_mem hmem))
  · have hle := Estate.sum_filter_parent_le estate.disks
      (insert root (estate.disks.map (·.id)).toFinset)
    simp only [Estate.children, length_map]
    omega

theorem comparable_of_common {estate : Estate I G K} {a b disk : I} (ha : estate.Derived a disk)
    (hb : estate.Derived b disk) : estate.Derived a b ∨ estate.Derived b a := by
  have hunique : Relator.RightUnique (Function.swap fun a b => b ∈ estate.children a) :=
    fun _ _ _ h h' => Estate.parent_unique h h'
  have ha' := Relation.reflTransGen_swap.mpr ha
  have hb' := Relation.reflTransGen_swap.mpr hb
  rcases Relation.ReflTransGen.total_of_right_unique hunique ha' hb' with h | h
  · exact .inr (Relation.reflTransGen_swap.mp h)
  · exact .inl (Relation.reflTransGen_swap.mp h)

end Forest

/-! ## What a selection resolves to -/

section Resolve

variable {I G K : Type} [DecidableEq I] {estate : Estate I G K} {id : I}

theorem mem_explicitRoots {rows : List (Disk I G K)} {treeIds : List I} :
    id ∈ explicitRoots rows treeIds ↔ id ∈ treeIds ∧ id ∈ rows.map (·.id) := by
  suffices hgen : ∀ out : List I, (id ∈ treeIds.foldl (fun out id =>
      if id ∈ rows.map (·.id) ∧ id ∉ out then out ++ [id] else out) out
      ↔ id ∈ out ∨ id ∈ treeIds ∧ id ∈ rows.map (·.id)) by
    simpa [explicitRoots] using hgen []
  induction treeIds with
  | nil => simp
  | cons first treeIds ih =>
    intro out
    rw [foldl_cons, ih]
    by_cases hin : first ∈ rows.map (·.id) ∧ first ∉ out
    · rw [if_pos hin, mem_append, mem_singleton, mem_cons]
      constructor
      · rintro ((h | rfl) | ⟨h, h'⟩)
        · exact .inl h
        · exact .inr ⟨.inl rfl, hin.1⟩
        · exact .inr ⟨.inr h, h'⟩
      · rintro (h | ⟨rfl | h, h'⟩)
        · exact .inl (.inl h)
        · exact .inl (.inr rfl)
        · exact .inr ⟨h, h'⟩
    · rw [if_neg hin, mem_cons]
      constructor
      · rintro (h | ⟨h, h'⟩)
        · exact .inl h
        · exact .inr ⟨.inr h, h'⟩
      · rintro (h | ⟨rfl | h, h'⟩)
        · exact .inl h
        · exact .inl (by_contra fun hout => hin ⟨h', hout⟩)
        · exact .inr ⟨h, h'⟩

variable [DecidableEq G] [DecidableEq K] {selection : Selection I G K}

/-- The disk is ready, and named by the selection: explicitly, or by what it covers. -/
def Selects (estate : Estate I G K) (selection : Selection I G K) (id : I) : Prop :=
  ∃ disk ∈ estate.rows, disk.id = id ∧
    if selection.treeIds ≠ [] then id ∈ selection.treeIds else selection.covers disk = true

omit [DecidableEq I] in
theorem mem_selectionMembers (htrees : selection.treeIds = []) :
    id ∈ selectionMembers estate.rows selection ↔ Selects estate selection id := by
  simp only [selectionMembers, Selects, htrees, mem_map, mem_filter, ne_eq,
    not_true_eq_false, if_false]
  constructor
  · rintro ⟨disk, ⟨hmem, hcovers⟩, rfl⟩
    exact ⟨disk, hmem, rfl, hcovers⟩
  · rintro ⟨disk, hmem, rfl, hcovers⟩
    exact ⟨disk, ⟨hmem, hcovers⟩, rfl⟩

theorem selects_of_mem_roots {root : I} (h : root ∈ rootsForSelection estate selection) :
    Selects estate selection root := by
  unfold rootsForSelection computeRoots at h
  split at h
  · rename_i htrees
    obtain ⟨htree, hrow⟩ := mem_explicitRoots.mp h
    obtain ⟨disk, hmem, rfl⟩ := mem_map.mp hrow
    exact ⟨disk, hmem, rfl, by simpa [htrees] using htree⟩
  · rename_i htrees
    obtain ⟨disk, hmem, rfl⟩ := mem_map.mp h
    have hmember := (mem_filter.mp hmem).2
    simp only [decide_eq_true_eq] at hmember
    exact (mem_selectionMembers (by simpa using htrees)).mp hmember.1

theorem exists_root (h : Selects estate selection id) :
    ∃ root ∈ rootsForSelection estate selection, estate.Derived root id := by
  by_cases htrees : selection.treeIds = []
  · -- up the chain of parents, as long as they are selected
    obtain ⟨depth, hdepth⟩ := estate.acyclic
    induction hn : depth id using Nat.strong_induction_on generalizing id with
    | _ n ih =>
      have hmember := (mem_selectionMembers htrees).mpr h
      obtain ⟨disk, hmem, rfl, -⟩ := h
      by_cases hroot : disk.parent.all (· ∉ selectionMembers estate.rows selection) = true
      · refine ⟨disk.id, ?_, Relation.ReflTransGen.refl⟩
        simp only [rootsForSelection, computeRoots, htrees, ne_eq, not_true_eq_false, if_false]
        exact mem_map_of_mem (mem_filter.mpr ⟨hmem, decide_eq_true ⟨hmember, hroot⟩⟩)
      · obtain ⟨parent, hparent, hin⟩ : ∃ parent, disk.parent = some parent
            ∧ parent ∈ selectionMembers estate.rows selection := by
          cases hparent : disk.parent with
          | none => simp [hparent] at hroot
          | some parent => exact ⟨parent, rfl, by simpa [hparent] using hroot⟩
        obtain ⟨hdisk, hready⟩ := mem_filter.mp hmem
        have hlt := hdepth disk hdisk parent hparent
        obtain ⟨root, hrootmem, hderived⟩ := ih (depth parent) (hn ▸ hlt)
          ((mem_selectionMembers htrees).mp hin) rfl
        refine ⟨root, hrootmem, hderived.tail (Estate.mem_children.mpr ?_)⟩
        exact ⟨disk, hdisk, rfl, hparent, by simp only [decide_eq_true_eq] at hready; simp [hready]⟩
  · obtain ⟨disk, hmem, rfl, htree⟩ := h
    refine ⟨disk.id, ?_, Relation.ReflTransGen.refl⟩
    simp only [htrees, ne_eq, not_false_eq_true, if_true] at htree
    simp only [rootsForSelection, computeRoots, htrees, ne_eq, not_false_eq_true, if_true]
    exact mem_explicitRoots.mpr ⟨htree, mem_map_of_mem hmem⟩

/-- **A selection resolves to what is derived from the disks it selects.** -/
theorem mem_resolvedIds :
    id ∈ resolvedIds estate selection
      ↔ ∃ selected, Selects estate selection selected ∧ estate.Derived selected id := by
  simp only [resolvedIds, mem_flatMap, (walkTreeTopo_order estate _).mem_iff]
  constructor
  · rintro ⟨root, hroot, hderived⟩
    exact ⟨root, selects_of_mem_roots hroot, hderived⟩
  · rintro ⟨selected, hselected, hderived⟩
    obtain ⟨root, hroot, habove⟩ := exists_root hselected
    exact ⟨root, hroot, habove.trans hderived⟩

theorem mem_disks_of_mem_resolvedIds (h : id ∈ resolvedIds estate selection) :
    ∃ disk ∈ estate.disks, disk.id = id := by
  obtain ⟨selected, ⟨disk, hrow, hid, -⟩, hderived⟩ := mem_resolvedIds.mp h
  rcases Relation.ReflTransGen.cases_tail hderived with rfl | ⟨parent, -, hchild⟩
  · exact ⟨disk, mem_of_mem_filter hrow, hid⟩
  · obtain ⟨disk', hmem, hid', -⟩ := Estate.mem_children.mp hchild
    exact ⟨disk', hmem, hid'⟩

end Resolve

end IsardVDI.Migration
