import IsardVDI.Migration.Plan
import IsardVDI.Migration.TreeRun

/-!
# The ledger that `create` writes, as the saga finds it

A plan of whole trees whose roots are in order gives the saga what it relies on: a ledger in
topological order, paths that name their disks, and every disk derived from a disk of the ledger in
the same tree, to be rebased onto the path that disk moves to.

* **`WholeTrees.laid`**, **`WholeTrees.behind`**, **`WholeTrees.mem_of_child`**
-/

namespace IsardVDI.Migration

open IsardVDI.Storage
open List

section Ledger

variable {M I G K D : Type}

def PlanItem.planned (row : PlanItem M I) : Saga.Planned I (DiskPath I) where
  storageId := row.storageId
  treeId := row.treeId
  topoIndex := row.topoIndex
  parentStorageId := row.parentStorageId
  srcPath := row.srcPath
  dstPath := row.dstPath
  parentDstPath := row.parentDstPath

def PlanItem.item (row : PlanItem M I) : Saga.Item I D (DiskPath I) := ⟨row.planned, {}⟩

variable [DecidableEq M] [DecidableEq I] [DecidableEq G] [DecidableEq K]

/-- Every disk the selection resolves to moves, has a place and is in a tree that is kept, and a
root that is derived from another one is listed before it. -/
structure WholeTrees (estate : Estate I G K) (planner : Planner I) (selection : Selection I G K) :
    Prop where
  all : ∀ id ∈ resolvedIds estate selection,
    moves estate planner id ∧ (planner.place id).isSome
      ∧ ∃ root ∈ keptRoots planner (rootsForSelection estate selection),
        id ∈ walkTreeTopo estate root
  order : RootsInOrder estate (resolvedIds estate selection)
    (keptRoots planner (rootsForSelection estate selection))

omit [DecidableEq G] [DecidableEq K] in
theorem rootsInOrder_cons {estate : Estate I G K} {disks roots : List I} {root : I} :
    RootsInOrder estate disks (root :: roots)
      ↔ ((∃ parent ∈ disks, estate.parentOf root = some parent) →
          ∃ other ∈ roots, root ∈ walkTreeTopo estate other)
        ∧ RootsInOrder estate disks roots := by
  constructor
  · refine fun h => ⟨h [] root roots rfl, fun before other after hroots => ?_⟩
    exact h (root :: before) other after (by rw [hroots, cons_append])
  · rintro ⟨hroot, hrest⟩ before other after hroots
    cases before with
    | nil =>
      obtain ⟨rfl, rfl⟩ := List.cons.inj hroots
      exact hroot
    | cons first before =>
      obtain ⟨-, hroots⟩ := List.cons.inj hroots
      exact hrest before other after hroots

instance decidableRootsInOrder (estate : Estate I G K) (disks : List I) :
    ∀ roots, Decidable (RootsInOrder estate disks roots)
  | [] => isTrue fun before root after h => by simp at h
  | _ :: roots =>
    have := decidableRootsInOrder estate disks roots
    decidable_of_iff _ rootsInOrder_cons.symm

instance (estate : Estate I G K) (planner : Planner I) (selection : Selection I G K) :
    Decidable (WholeTrees estate planner selection) :=
  decidable_of_iff (_ ∧ _) ⟨fun h => ⟨h.1, h.2⟩, fun h => ⟨h.all, h.order⟩⟩

end Ledger

section Created

variable {M I G K D : Type} [DecidableEq M] [DecidableEq I]
  {estate : Estate I G K} {preview planner : Planner I} {previewId migrationId : M}
  {selection : Selection I G K} {media : List MediaItem} {recurring : Bool}
  {ledger : List (PlanItem M I)}

theorem of_nodeInfo {moving : List I} {id : I} {info : NodeInfo I}
    (h : nodeInfo estate planner moving id = .ok info) :
    info.srcPath.id = id ∧ info.dstPath.id = id
      ∧ (∀ parent, info.parentStorageId = some parent → estate.parentOf id = some parent)
      ∧ ∀ path, info.parentDstPath = some path → estate.parentOf id = some path.id := by
  obtain ⟨disk, hfind, hdst, hsrc, parent, hparent, hid, hpath⟩ := nodeInfo_eq_ok h
  have hdisk := (Estate.find_eq_some.mp hfind).2
  obtain ⟨dir, -, hdst⟩ := dstPathOf_eq_ok.mp hdst
  have hof : estate.parentOf id = disk.parent := by rw [Estate.parentOf, hfind, Option.bind_some]
  refine ⟨by rw [hsrc]; exact hdisk, by rw [hdst]; exact hdisk, ?_⟩
  -- the parent is read from its own row
  rw [hid, hpath, hof]
  unfold parentInfo at hparent
  split at hparent
  · cases hparent
    exact ⟨by simp, by simp⟩
  · rename_i above habove
    obtain ⟨parentId, hlink, hrow⟩ := Option.bind_eq_some_iff.mp habove
    have habove := (Estate.find_eq_some.mp hrow).2
    rw [hlink, ← habove]
    split_ifs at hparent
    · obtain ⟨path, hplace, hparent⟩ := bind_eq_ok.mp hparent
      cases hparent
      obtain ⟨dir, -, rfl⟩ := dstPathOf_eq_ok.mp hplace
      exact ⟨by simp, by simp⟩
    · cases hparent
      exact ⟨by simp, by simp⟩

variable [DecidableEq G] [DecidableEq K]

variable {row parent : PlanItem M I}

namespace WholeTrees

variable (hwhole : WholeTrees estate planner selection)
  (h : create estate preview planner previewId migrationId selection media recurring = .ok ledger)

include hwhole h

theorem mem_resolvedIds (hrow : row ∈ ledger) : row.storageId ∈ resolvedIds estate selection := by
  obtain ⟨info, -, hledger⟩ := ledger_eq h fun id hid =>
    ⟨(hwhole.all id hid).1, (hwhole.all id hid).2.1⟩
  rw [hledger] at hrow
  obtain ⟨before, root, after, index, id, hroots, hget, rfl, -⟩ := mem_ledger.mp hrow
  have hroot : root ∈ keptRoots planner (rootsForSelection estate selection) := hroots ▸ by simp
  exact mem_flatMap.mpr ⟨root, (mem_filter.mp hroot).1, mem_of_getElem? hget⟩

theorem of_mem (hrow : row ∈ ledger) :
    row.srcPath.id = row.storageId ∧ row.dstPath.id = row.storageId
      ∧ (∀ parent, row.parentStorageId = some parent →
        estate.parentOf row.storageId = some parent)
      ∧ ∀ path, row.parentDstPath = some path → estate.parentOf row.storageId = some path.id := by
  have hid := hwhole.mem_resolvedIds h hrow
  obtain ⟨info, hinfo, hledger⟩ := ledger_eq h fun id hid =>
    ⟨(hwhole.all id hid).1, (hwhole.all id hid).2.1⟩
  rw [hledger] at hrow
  obtain ⟨before, root, after, index, id, -, -, rfl, -⟩ := mem_ledger.mp hrow
  obtain ⟨hsrc, hdst, hparent, hpath⟩ := of_nodeInfo (hinfo id hid)
  refine ⟨hsrc, hdst, hparent, fun path hrow => hpath path ?_⟩
  change (if index = 0 then none else (info id).parentDstPath) = some path at hrow
  split_ifs at hrow
  exact hrow

theorem behind {child : PlanItem M I} (hchild : child ∈ ledger) (hparent : parent ∈ ledger)
    (hof : estate.parentOf child.storageId = some parent.storageId) :
    child.treeId = parent.treeId ∧ parent.topoIndex < child.topoIndex
      ∧ child.parentDstPath = some parent.dstPath :=
  (wellFormed_of_rootsInOrder h hwhole.all hwhole.order).behind child hchild parent hparent
    (hwhole.mem_resolvedIds h hchild) (hwhole.mem_resolvedIds h hparent) hof

theorem mem_of_child (hparent : parent ∈ ledger) {child : I}
    (hchild : child ∈ estate.children parent.storageId) :
    ∃ row ∈ ledger, row.storageId = child := by
  obtain ⟨root, hroot, hwalk⟩ := mem_flatMap.mp (hwhole.mem_resolvedIds h hparent)
  have hmem : child ∈ resolvedIds estate selection :=
    mem_flatMap.mpr ⟨root, hroot, mem_walk_of_child hwalk hchild⟩
  exact (length_filter_eq_one h).mp
    ((wellFormed_of_rootsInOrder h hwhole.all hwhole.order).one child hmem)

theorem laid : Saga.Laid (ledger.map PlanItem.planned) := by
  refine ⟨?_, ?_, ?_⟩
  · rw [map_map]
    exact nodup_created h
  · intro a ha b hb htree hindex
    obtain ⟨row, hrow, rfl⟩ := mem_map.mp ha
    obtain ⟨row', hrow', rfl⟩ := mem_map.mp hb
    obtain ⟨info, -, hledger⟩ := ledger_eq h fun id hid =>
      ⟨(hwhole.all id hid).1, (hwhole.all id hid).2.1⟩
    rw [hledger] at hrow hrow'
    obtain ⟨before, root, after, index, id, -, hget, rfl, -⟩ := mem_ledger.mp hrow
    obtain ⟨before', root', after', index', id', -, hget', rfl, -⟩ := mem_ledger.mp hrow'
    change root = root' at htree
    change index = index' at hindex
    subst htree hindex
    rw [Option.some.inj (hget.symm.trans hget')]
  · intro a ha p hp _ hparent
    obtain ⟨row, hrow, rfl⟩ := mem_map.mp ha
    obtain ⟨above, habove, rfl⟩ := mem_map.mp hp
    exact (hwhole.behind h hrow habove ((hwhole.of_mem h hrow).2.2.1 above.storageId hparent)).2.1

end WholeTrees

end Created

end IsardVDI.Migration
