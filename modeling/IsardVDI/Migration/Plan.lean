import IsardVDI.Lib.Fallible
import IsardVDI.Lib.Keyed
import IsardVDI.Migration.Selection

/-!
# `lib/storage/migration.py` — `build_plan_for_roots`, and `create`

The plan of a migration: the subtree of every root is walked, and every disk of it gets an item
with its place in the walk and the path its parent moves to. `create` writes the items into the
ledger by their id, which is made of the migration and the disk.

* `Planner`, `NodeInfo`, `PlanItem`, `splitMovingSubtrees`, `buildPlanForRoots`, `create` — the
  source's functions. A disk without a place at the destination takes its whole tree out of the
  plan, and so does a usage date outside the threshold.
-/

namespace IsardVDI.Migration

open List Option

/-! ## What a plan is made of -/

inductive ItemKind where
  | desktop
  | template
  | media
  deriving DecidableEq, Repr

structure DiskPath (I : Type) where
  dir : Path
  id : I
  type : Path
  deriving DecidableEq

def Disk.path {I G K : Type} (disk : Disk I G K) : DiskPath I :=
  ⟨disk.directoryPath, disk.id, disk.type⟩

/-- What one call asks of the destination pool, of the domains and of the clock. -/
structure Planner (I : Type) where
  /-- `get_storage_pool_path`, drawn once for every disk of the call. -/
  place : I → Option Path
  domainKinds : I → List ItemKind
  /-- The role of the directory a disk lives in. -/
  poolUsage : I → Option ItemKind
  sizeOf : I → Nat
  /-- `item_kinds`: no kinds are all kinds. -/
  itemKinds : List ItemKind
  /-- `usage_age_days` is set. -/
  usageAge : Bool
  /-- `tree_within_age_threshold`, by the key of the tree. -/
  withinAge : I → Bool

structure NodeInfo (I : Type) where
  kind : ItemKind
  srcPath : DiskPath I
  dstPath : DiskPath I
  sizeBytes : Nat
  parentStorageId : Option I
  parentDstPath : Option (DiskPath I)

structure PlanItem (M I : Type) where
  migrationId : M
  storageId : I
  treeId : I
  topoIndex : Nat
  kind : ItemKind
  srcPath : DiskPath I
  dstPath : DiskPath I
  parentStorageId : Option I
  parentDstPath : Option (DiskPath I)
  sizeBytes : Nat
  deriving DecidableEq

def PlanItem.id {M I : Type} (item : PlanItem M I) : M × I := (item.migrationId, item.storageId)

/-- An item of the media half of a plan, whose rows have ids of their own. -/
structure MediaItem where
  srcPath : Path
  dstPath : Path

section Plan

variable {M I G K : Type} [DecidableEq M] [DecidableEq I] [DecidableEq G] [DecidableEq K]

/-! ## One tree -/

def classifyKind (hasChildren : Bool) (domainKinds : List ItemKind) (pathUsage : Option ItemKind) :
    ItemKind :=
  if hasChildren then .template
  else if .template ∈ domainKinds then .template
  else if .desktop ∈ domainKinds then .desktop
  else if pathUsage = some .desktop then .desktop
  else .template

variable (estate : Estate I G K) (planner : Planner I)

def kindOf (id : I) : ItemKind :=
  classifyKind (!(estate.children id).isEmpty) (planner.domainKinds id) (planner.poolUsage id)

def moves (id : I) : Bool :=
  planner.itemKinds.isEmpty || kindOf estate planner id ∈ planner.itemKinds

def Estate.find (id : I) : Option (Disk I G K) :=
  estate.disks.find? (·.id = id)

def Estate.parentOf (id : I) : Option I :=
  (estate.find id).bind (·.parent)

/-- `dst_path_of`. A disk that has no place is reported. -/
def Planner.dstPathOf (disk : Disk I G K) : Except I (DiskPath I) :=
  match planner.place disk.id with
  | some dir => .ok ⟨dir, disk.id, disk.type⟩
  | none => .error disk.id

/-- The parent of a disk as its item names it: the row may be gone, and it may stay put. -/
def parentInfo (moving : List I) (disk : Disk I G K) : Except I (Option I × Option (DiskPath I)) :=
  match disk.parent.bind estate.find with
  | none => .ok (none, none)
  | some parent =>
    if parent.id ∈ moving then do
      let path ← planner.dstPathOf parent
      return (some parent.id, some path)
    else .ok (some parent.id, none)

/-- `node_info`. What is walked has a row. -/
def nodeInfo (moving : List I) (id : I) : Except I (NodeInfo I) :=
  match estate.find id with
  | none => .error id
  | some disk => do
    let dstPath ← planner.dstPathOf disk
    let parent ← parentInfo estate planner moving disk
    return ⟨kindOf estate planner id, disk.path, dstPath, planner.sizeOf id, parent.1, parent.2⟩

variable (migrationId : M)

/-- The item of the disk at this place of a tree. The root has no parent to rebase onto. -/
def buildItem (root : I) (index : Nat) (id : I) (info : NodeInfo I) : PlanItem M I where
  migrationId := migrationId
  storageId := id
  treeId := root
  topoIndex := index
  kind := info.kind
  srcPath := info.srcPath
  dstPath := info.dstPath
  parentStorageId := info.parentStorageId
  parentDstPath := if index = 0 then none else info.parentDstPath
  sizeBytes := info.sizeBytes

def buildTreeItems (root : I) (info : I → Except I (NodeInfo I))
    (order : List I) : Except I (List (PlanItem M I)) :=
  order.zipIdx.mapM fun (id, index) => do
    let info ← info id
    return buildItem migrationId root index id info

def addToGroup (groups : List (I × List I)) (root id : I) : List (I × List I) :=
  if groups.any (·.1 = root) then
    groups.map fun group => if group.1 = root then (group.1, group.2 ++ [id]) else group
  else groups ++ [(root, [id])]

/-- One turn of `split_moving_subtrees`: the topmost moving ancestor of every disk so far, and the
groups. -/
def splitStep (parentOf : I → Option I) (moves : I → Bool)
    (acc : List (I × I) × List (I × List I)) (id : I) : List (I × I) × List (I × List I) :=
  if moves id then
    let root := ((parentOf id).bind fun parent => List.lookup parent acc.1).getD id
    ((id, root) :: acc.1, addToGroup acc.2 root id)
  else acc

def splitMovingSubtrees (order : List I) (parentOf : I → Option I) (moves : I → Bool) :
    List (I × List I) :=
  (order.foldl (splitStep parentOf moves) ([], [])).2

def strandedBySelection (order : List I) (parentOf : I → Option I) (moves : I → Bool) :
    List (I × I) :=
  order.filterMap fun id =>
    match parentOf id with
    | some parent => if !moves id && moves parent then some (parent, id) else none
    | none => none

/-! ## The plan -/

def parentWithin (walked : List I) (id : I) : Option I :=
  (estate.parentOf id).filter (· ∈ walked)

def treeItems (walked : List I) (root : I) : Except I (List (PlanItem M I)) := do
  let groups ← (splitMovingSubtrees (walkTreeTopo estate root) (parentWithin estate walked)
    (moves estate planner)).mapM fun (subRoot, order) =>
      buildTreeItems migrationId subRoot
        (nodeInfo estate planner (walked.filter (moves estate planner))) order
  return groups.flatten

/-- A plan: its items, and the trees left out with the disk that has no place. -/
structure Plan (M I : Type) where
  items : List (PlanItem M I) := []
  excluded : List (I × I) := []

def Plan.addTree (plan : Plan M I) (root : I) : Except I (List (PlanItem M I)) → Plan M I
  | .ok items => { plan with items := plan.items ++ items }
  | .error id => { plan with excluded := plan.excluded ++ [(root, id)] }

def Plan.keepWithinAge (plan : Plan M I) (planner : Planner I) : Plan M I :=
  { plan with items := plan.items.filter fun item =>
      !planner.usageAge || planner.withinAge item.treeId }

inductive CreateError (I : Type) where
  /-- Selection matched no migratable disks. -/
  | noDisks
  /-- `storage_migration_would_strand_derivative`. -/
  | wouldStrand (parent child : I)
  /-- Selection matched no migratable disks within the usage-age threshold. -/
  | noneWithinAge
  /-- Selection resolves entirely in-place. -/
  | allInPlace

def buildPlanForRoots (roots : List I) : Except (CreateError I) (Plan M I) :=
  let walked := roots.flatMap (walkTreeTopo estate)
  match roots.flatMap fun root => strandedBySelection (walkTreeTopo estate root)
      (parentWithin estate walked) (moves estate planner) with
  | (parent, child) :: _ => .error (.wouldStrand parent child)
  | [] => .ok ((roots.foldl (fun (plan : Plan M I) root =>
      plan.addTree root (treeItems estate planner migrationId walked root)) {}).keepWithinAge
        planner)

def PlanItem.inPlace (item : PlanItem M I) : Bool := item.dstPath = item.srcPath

def MediaItem.inPlace (item : MediaItem) : Bool := item.dstPath = item.srcPath

def allInPlace (items : List (PlanItem M I)) (media : List MediaItem) : Bool :=
  !(items.isEmpty && media.isEmpty) && items.all (·.inPlace) && media.all (·.inPlace)

/-- `create`: the rows it leaves for the disks. The plan is built twice, for a preview and to be
written, and every build draws the directories anew. -/
def create (preview planner : Planner I) (previewId migrationId : M)
    (selection : Selection I G K) (media : List MediaItem) (recurring : Bool) :
    Except (CreateError I) (List (PlanItem M I)) :=
  let roots := rootsForSelection estate selection
  if roots.isEmpty && media.isEmpty && !recurring then .error .noDisks
  else do
    let shown ← buildPlanForRoots estate preview previewId roots
    if preview.usageAge && shown.items.isEmpty && media.isEmpty && !recurring then
      .error .noneWithinAge
    else if allInPlace shown.items media then .error .allInPlace
    else do
      let plan ← buildPlanForRoots estate planner migrationId roots
      return plan.items.foldl (Keyed.upsert PlanItem.id) []

/-! ## The ledger of a plan -/

/-- The ledger has one row for every disk the selection resolves to, and a row whose parent has
one is behind it in the same tree, to be rebased onto the path its parent moves to. -/
structure WellFormed (estate : Estate I G K) (selection : Selection I G K)
    (ledger : List (PlanItem M I)) : Prop where
  one : ∀ id ∈ resolvedIds estate selection, (ledger.filter (·.storageId = id)).length = 1
  behind : ∀ child ∈ ledger, ∀ parent ∈ ledger, child.storageId ∈ resolvedIds estate selection →
    parent.storageId ∈ resolvedIds estate selection →
    estate.parentOf child.storageId = some parent.storageId →
    child.treeId = parent.treeId ∧ parent.topoIndex < child.topoIndex
      ∧ child.parentDstPath = some parent.dstPath

def keptRoots (roots : List I) : List I :=
  roots.filter fun root => !planner.usageAge || planner.withinAge root

/-- A root whose parent is among the disks is listed before another root it is derived from. -/
def RootsInOrder (disks roots : List I) : Prop :=
  ∀ before root after, roots = before ++ root :: after →
    (∃ parent ∈ disks, estate.parentOf root = some parent) →
    ∃ other ∈ after, root ∈ walkTreeTopo estate other

end Plan

section Build

variable {M I G K : Type} {estate : Estate I G K} {planner : Planner I} {migrationId : M}
  {disk : Disk I G K} {roots : List I}

theorem exists_last {p : I → Prop} {l : List I} (h : ∃ a ∈ l, p a) :
    ∃ before a after, l = before ++ a :: after ∧ p a ∧ ∀ b ∈ after, ¬ p b := by
  induction l with
  | nil => simp at h
  | cons first l ih =>
    by_cases hl : ∃ a ∈ l, p a
    · obtain ⟨before, a, after, rfl, ha, hafter⟩ := ih hl
      exact ⟨first :: before, a, after, rfl, ha, hafter⟩
    · obtain ⟨a, hmem, ha⟩ := h
      rcases mem_cons.mp hmem with rfl | hmem
      · exact ⟨[], a, l, rfl, ha, fun b hb hpb => hl ⟨b, hb, hpb⟩⟩
      · exact absurd ⟨a, hmem, ha⟩ hl

theorem last_unique {P : I → Prop} {before before' after after' : List I} {a a' : I}
    (h : before ++ a :: after = before' ++ a' :: after') (ha : P a) (hafter : ∀ b ∈ after, ¬ P b)
    (ha' : P a') (hafter' : ∀ b ∈ after', ¬ P b) : a = a' := by
  rcases append_eq_append_iff.mp h with ⟨mid, -, hmid⟩ | ⟨mid, -, hmid⟩
  · cases mid with
    | nil => exact (List.cons.inj hmid).1
    | cons first mid =>
      obtain ⟨-, rfl⟩ := List.cons.inj hmid
      exact absurd ha' (hafter a' (by simp))
  · cases mid with
    | nil => exact (List.cons.inj hmid).1.symm
    | cons first mid =>
      obtain ⟨-, rfl⟩ := List.cons.inj hmid
      exact absurd ha (hafter' a (by simp))

theorem foldl_addTree (built : I → Except I (List (PlanItem M I))) (roots : List I)
    (plan : Plan M I) :
    (roots.foldl (fun plan root => plan.addTree root (built root)) plan).items
      = plan.items ++ roots.flatMap fun root => (built root).toOption.getD [] := by
  induction roots generalizing plan with
  | nil => simp
  | cons root roots ih =>
    rw [foldl_cons, ih, flatMap_cons]
    cases built root with
    | ok items | error id => simp [Plan.addTree, Except.toOption]

theorem filter_flatMap_rows (keep : I → Bool) {rows : I → List (PlanItem M I)}
    (htree : ∀ root ∈ roots, ∀ row ∈ rows root, row.treeId = root) :
    (roots.flatMap rows).filter (fun row => keep row.treeId)
      = (roots.filter keep).flatMap rows := by
  induction roots with
  | nil => rfl
  | cons root roots ih =>
    rw [flatMap_cons, filter_append,
      ih fun other hother => htree other (.tail _ hother), filter_cons]
    have hroot : ∀ row ∈ rows root, keep row.treeId = keep root :=
      fun row hrow => by rw [htree root (.head _) row hrow]
    split_ifs with hkeep
    · rw [flatMap_cons, filter_eq_self.mpr fun row hrow => (hroot row hrow).trans hkeep]
    · rw [filter_eq_nil_iff.mpr fun row hrow => by rw [hroot row hrow]; exact hkeep]
      rfl

/-! ## Disks and their paths -/

theorem dstPathOf_eq_ok {path : DiskPath I} :
    planner.dstPathOf disk = .ok path
      ↔ ∃ dir, planner.place disk.id = some dir ∧ path = ⟨dir, disk.id, disk.type⟩ := by
  unfold Planner.dstPathOf
  cases planner.place disk.id with
  | none => simp
  | some dir => simp [eq_comm]

variable [DecidableEq I]

theorem Estate.find_eq_some {id : I} :
    estate.find id = some disk ↔ disk ∈ estate.disks ∧ disk.id = id := by
  constructor
  · intro h
    exact ⟨mem_of_find?_eq_some h, by simpa using find?_some h⟩
  · rintro ⟨hmem, rfl⟩
    cases hfind : estate.find disk.id with
    | none => simpa using find?_eq_none.mp hfind disk hmem
    | some other =>
      have hid : other.id = disk.id := by simpa using find?_some hfind
      rw [estate.disk_eq (mem_of_find?_eq_some hfind) hmem hid]

theorem Estate.parentOf_of_mem_children {id child : I} (h : child ∈ estate.children id) :
    estate.parentOf child = some id := by
  obtain ⟨disk, hmem, rfl, hparent, -⟩ := mem_children.mp h
  rw [parentOf, find_eq_some.mpr ⟨hmem, rfl⟩]
  exact hparent

variable {moving : List I}

theorem nodeInfo_eq_ok {id : I} {info : NodeInfo I}
    (h : nodeInfo estate planner moving id = .ok info) :
    ∃ disk, estate.find id = some disk ∧ planner.dstPathOf disk = .ok info.dstPath
      ∧ info.srcPath = disk.path ∧ ∃ parent, parentInfo estate planner moving disk = .ok parent
        ∧ info.parentStorageId = parent.1 ∧ info.parentDstPath = parent.2 := by
  unfold nodeInfo at h
  cases hfind : estate.find id with
  | none => simp [hfind] at h
  | some disk =>
    rw [hfind] at h
    obtain ⟨dst, hdst, h⟩ := bind_eq_ok.mp h
    obtain ⟨parent, hparent, h⟩ := bind_eq_ok.mp h
    cases h
    exact ⟨disk, rfl, hdst, rfl, parent, hparent, rfl, rfl⟩

theorem place_of_nodeInfo {id : I} {info : NodeInfo I}
    (h : nodeInfo estate planner moving id = .ok info) : (planner.place id).isSome := by
  obtain ⟨disk, hfind, hdst, -⟩ := nodeInfo_eq_ok h
  obtain ⟨dir, hplace, -⟩ := dstPathOf_eq_ok.mp hdst
  rw [(Estate.find_eq_some.mp hfind).2] at hplace
  simp [hplace]

variable {parent : I}

theorem parentDstPath_eq {id : I} {info parentInfo : NodeInfo I}
    (h : nodeInfo estate planner moving id = .ok info)
    (hparent : nodeInfo estate planner moving parent = .ok parentInfo)
    (hof : estate.parentOf id = some parent) (hmoving : parent ∈ moving) :
    info.parentDstPath = some parentInfo.dstPath := by
  obtain ⟨disk, hfind, -, -, pair, hpair, -, hpath⟩ := nodeInfo_eq_ok h
  obtain ⟨above, habove, hdst, -⟩ := nodeInfo_eq_ok hparent
  have hlink : disk.parent = some parent := by simpa [Estate.parentOf, hfind] using hof
  have hid := (Estate.find_eq_some.mp habove).2
  simp only [Migration.parentInfo, hlink, bind_some, habove] at hpair
  rw [if_pos (hid ▸ hmoving), hdst] at hpair
  cases hpair
  exact hpath

theorem nodeInfo_isOk {id : I} (hfind : estate.find id = some disk)
    (hplace : (planner.place id).isSome) (hmoving : ∀ other ∈ moving, (planner.place other).isSome)
    : ∃ info, nodeInfo estate planner moving id = .ok info := by
  obtain ⟨dir, hdir⟩ := isSome_iff_exists.mp hplace
  have hid := (Estate.find_eq_some.mp hfind).2
  have hdst := dstPathOf_eq_ok.mpr ⟨dir, hid ▸ hdir, rfl⟩
  obtain ⟨pair, hpair⟩ : ∃ pair, parentInfo estate planner moving disk = .ok pair := by
    unfold parentInfo
    split
    · exact ⟨_, rfl⟩
    · split_ifs with hin
      · obtain ⟨dir', hdir'⟩ := isSome_iff_exists.mp (hmoving _ hin)
        rw [dstPathOf_eq_ok.mpr ⟨dir', hdir', rfl⟩]
        exact ⟨_, rfl⟩
      · exact ⟨_, rfl⟩
  simp only [nodeInfo, hfind, hdst, hpair]
  exact ⟨_, rfl⟩

/-! ## Groups

A disk is grouped only if it moves. When every disk of a walk moves there is one group, the walk:
each disk but the first has its parent before it. -/

variable {root : I} {group : I × List I}

theorem mem_addToGroup {groups : List (I × List I)} {id : I} {member : I}
    (h : group ∈ addToGroup groups root id) (hmember : member ∈ group.2) :
    member = id ∨ ∃ old ∈ groups, member ∈ old.2 := by
  unfold addToGroup at h
  split_ifs at h
  · obtain ⟨old, hold, rfl⟩ := mem_map.mp h
    split_ifs at hmember with hroot
    · rcases mem_append.mp hmember with hin | hin
      · exact .inr ⟨old, hold, hin⟩
      · exact .inl (mem_singleton.mp hin)
    · exact .inr ⟨old, hold, hmember⟩
  · rcases mem_append.mp h with hold | hnew
    · exact .inr ⟨group, hold, hmember⟩
    · rw [mem_singleton.mp hnew] at hmember
      exact .inl (mem_singleton.mp hmember)

theorem mem_splitMovingSubtrees {order : List I} {parentOf : I → Option I} {moves : I → Bool}
    {id : I} (h : group ∈ splitMovingSubtrees order parentOf moves) (hid : id ∈ group.2) :
    moves id := by
  suffices hgen : ∀ acc : List (I × I) × List (I × List I),
      group ∈ (order.foldl (splitStep parentOf moves) acc).2 →
      moves id ∨ ∃ old ∈ acc.2, id ∈ old.2 by
    rcases hgen ([], []) h with hmoves | ⟨old, hold, -⟩
    · exact hmoves
    · cases hold
  clear h
  induction order with
  | nil => exact fun acc h => .inr ⟨group, h, hid⟩
  | cons first order ih =>
    intro acc h
    rcases ih _ h with hmoves | ⟨old, hold, hin⟩
    · exact .inl hmoves
    · unfold splitStep at hold
      split_ifs at hold with hfirst
      · rcases mem_addToGroup hold hin with rfl | hold
        · exact .inl hfirst
        · exact .inr hold
      · exact .inr ⟨old, hold, hin⟩

theorem foldl_splitStep {parentOf : I → Option I} {moves : I → Bool} (done rest : List I)
    (subRoot : List (I × I)) (hmoves : ∀ id ∈ rest, moves id)
    (hsub : ∀ id ∈ done, List.lookup id subRoot = some root)
    (hparent : ∀ before id after, rest = before ++ id :: after →
      ∃ parent ∈ done ++ before, parentOf id = some parent) :
    (rest.foldl (splitStep parentOf moves) (subRoot, [(root, done)])).2
      = [(root, done ++ rest)] := by
  induction rest generalizing done subRoot with
  | nil => simp
  | cons id rest ih =>
    obtain ⟨parent, hin, hof⟩ := hparent [] id rest rfl
    have hroot : ((parentOf id).bind fun parent => List.lookup parent subRoot).getD id = root := by
      rw [hof, bind_some, hsub parent (by simpa using hin), getD_some]
    have hstep : splitStep parentOf moves (subRoot, [(root, done)]) id
        = ((id, root) :: subRoot, [(root, done ++ [id])]) := by
      simp [splitStep, hmoves id (.head _), hroot, addToGroup]
    rw [foldl_cons, hstep, ih (done ++ [id]) _ (fun x hx => hmoves x (.tail _ hx))]
    · simp
    · intro x hx
      rw [lookup_cons]
      by_cases hxid : x = id
      · simp [hxid]
      · have hx' : x ∈ done := by simpa [hxid] using hx
        simp [beq_false_of_ne hxid, hsub x hx']
    · rintro before x after rfl
      obtain ⟨parent, hin, hof⟩ := hparent (id :: before) x after rfl
      exact ⟨parent, by simpa using hin, hof⟩

variable {walked : List I}

theorem split_walk {moves : I → Bool} (hsub : ∀ id ∈ walkTreeTopo estate root, id ∈ walked)
    (hmoves : ∀ id ∈ walkTreeTopo estate root, moves id) :
    splitMovingSubtrees (walkTreeTopo estate root) (parentWithin estate walked) moves
      = [(root, walkTreeTopo estate root)] := by
  have horder := walkTreeTopo_order estate root
  obtain ⟨rest, hwalk⟩ := horder.head
  rw [hwalk] at hsub hmoves horder ⊢
  have hfirst : splitStep (parentWithin estate walked) moves ([], []) root
      = ([(root, root)], [(root, [root])]) := by
    simp [splitStep, hmoves root (.head _), addToGroup]
  rw [splitMovingSubtrees, foldl_cons, hfirst, foldl_splitStep [root] rest]
  · simp
  · exact fun id hid => hmoves id (.tail _ hid)
  · intro id hid
    simp [mem_singleton.mp hid]
  · rintro before id after rfl
    rcases horder.ordered (root :: before) id after rfl with rfl | ⟨parent, hin, hchild⟩
    · exact absurd horder.nodup (by simp)
    · refine ⟨parent, hin, ?_⟩
      rw [parentWithin, Estate.parentOf_of_mem_children hchild]
      have hwalked : parent ∈ walked := hsub parent (by
        exact mem_append_left _ hin)
      simp [hwalked]

theorem parent_before {id : I} {index : Nat} (hget : (walkTreeTopo estate root)[index]? = some id)
    (hne : id ≠ root) (hparent : estate.parentOf id = some parent) :
    id ∈ estate.children parent
      ∧ ∃ place < index, (walkTreeTopo estate root)[place]? = some parent := by
  obtain ⟨hlt, heq⟩ := List.getElem?_eq_some_iff.mp hget
  have hsplit : walkTreeTopo estate root = (walkTreeTopo estate root).take index ++ id ::
      (walkTreeTopo estate root).drop (index + 1) := by
    rw [← heq, cons_getElem_drop_succ, take_append_drop]
  obtain ⟨above, habove, hchild⟩ :=
    ((walkTreeTopo_order estate root).ordered _ _ _ hsplit).resolve_left hne
  obtain rfl : above = parent :=
    Option.some.inj ((Estate.parentOf_of_mem_children hchild).symm.trans hparent)
  obtain ⟨place, hplace⟩ := mem_iff_getElem?.mp habove
  obtain ⟨hplt, -⟩ := List.getElem?_eq_some_iff.mp hplace
  rw [length_take] at hplt
  rw [getElem?_take_of_lt (by omega)] at hplace
  exact ⟨hchild, place, by omega, hplace⟩

theorem place_unique {id : I} {index index' : Nat}
    (h : (walkTreeTopo estate root)[index]? = some id)
    (h' : (walkTreeTopo estate root)[index']? = some id) : index = index' := by
  obtain ⟨hlt, -⟩ := List.getElem?_eq_some_iff.mp h
  exact (getElem?_inj hlt (walkTreeTopo_order estate root).nodup).mp (h.trans h'.symm)

theorem mem_walk_of_child {child : I} (h : parent ∈ walkTreeTopo estate root)
    (hchild : child ∈ estate.children parent) : child ∈ walkTreeTopo estate root :=
  ((walkTreeTopo_order estate root).mem_iff child).mpr
    ((((walkTreeTopo_order estate root).mem_iff parent).mp h).tail hchild)

/-! ## The items of a tree -/

theorem of_mem_treeItems {items : List (PlanItem M I)}
    (h : treeItems estate planner migrationId walked root = .ok items) {item : PlanItem M I}
    (hitem : item ∈ items) :
    item.migrationId = migrationId ∧ moves estate planner item.storageId
      ∧ (planner.place item.storageId).isSome := by
  obtain ⟨groups, hgroups, h⟩ := bind_eq_ok.mp h
  cases h
  obtain ⟨tree, htree, hitem⟩ := mem_flatten.mp hitem
  obtain ⟨group, hgroup, hbuild⟩ := exists_of_mem_mapM hgroups htree
  obtain ⟨⟨id, index⟩, hpair, hbuilt⟩ := exists_of_mem_mapM hbuild hitem
  obtain ⟨info, hinfo, h⟩ := bind_eq_ok.mp hbuilt
  cases h
  have hid : id ∈ group.2 := mem_of_getElem? (mem_zipIdx_iff_getElem?.mp hpair)
  exact ⟨rfl, mem_splitMovingSubtrees hgroup hid, place_of_nodeInfo hinfo⟩

def treeRows (estate : Estate I G K) (migrationId : M) (info : I → NodeInfo I) (root : I) :
    List (PlanItem M I) :=
  (walkTreeTopo estate root).zipIdx.map fun (id, index) =>
    buildItem migrationId root index id (info id)

variable {info : I → NodeInfo I} {row : PlanItem M I}

theorem mem_treeRows :
    row ∈ treeRows estate migrationId info root ↔ ∃ index id,
      (walkTreeTopo estate root)[index]? = some id
        ∧ row = buildItem migrationId root index id (info id) := by
  simp only [treeRows, List.mem_map, Prod.exists, mem_zipIdx_iff_getElem?]
  constructor
  · rintro ⟨id, index, hget, rfl⟩
    exact ⟨index, id, hget, rfl⟩
  · rintro ⟨index, id, hget, rfl⟩
    exact ⟨id, index, hget, rfl⟩

theorem treeItems_eq (hsub : ∀ id ∈ walkTreeTopo estate root, id ∈ walked)
    (hmoves : ∀ id ∈ walked, moves estate planner id) (hinfo : ∀ id ∈ walked,
      nodeInfo estate planner (walked.filter (moves estate planner)) id = .ok (info id)) :
    treeItems estate planner migrationId walked root
      = .ok (treeRows estate migrationId info root) := by
  have hbuild : buildTreeItems migrationId root
      (nodeInfo estate planner (walked.filter (moves estate planner)))
      (walkTreeTopo estate root) = .ok (treeRows estate migrationId info root) := by
    refine mapM_eq_ok_map fun ⟨id, index⟩ hpair => ?_
    have hid := mem_of_getElem? (mem_zipIdx_iff_getElem?.mp hpair)
    simp only [hinfo id (hsub id hid)]
    rfl
  rw [treeItems, split_walk hsub fun id hid => hmoves id (hsub id hid), mapM_cons]
  dsimp only
  rw [hbuild]
  simp [pure, bind, Except.bind, Except.pure]

theorem nodup_treeRows : ((treeRows estate migrationId info root).map PlanItem.id).Nodup := by
  have hids : (treeRows estate migrationId info root).map PlanItem.id
      = (walkTreeTopo estate root).map (migrationId, ·) := by
    rw [treeRows, List.map_map]
    show List.map ((migrationId, ·) ∘ Prod.fst) _ = _
    rw [← List.map_map, zipIdx_map_fst]
  rw [hids]
  exact (walkTreeTopo_order estate root).nodup.map fun a b h => (Prod.mk.inj h).2

/-! ## The rows of a plan -/

def rootItems (estate : Estate I G K) (planner : Planner I) (migrationId : M) (walked : List I)
    (root : I) : List (PlanItem M I) :=
  (treeItems estate planner migrationId walked root).toOption.getD []

/-! ## Which tree a row is of

A disk in several trees has an item in each, and the last one is left. -/

variable [DecidableEq M]

theorem mem_ledger :
    row ∈ (roots.flatMap (treeRows estate migrationId info)).foldl (Keyed.upsert PlanItem.id) []
      ↔ ∃ before root after index id, roots = before ++ root :: after
        ∧ (walkTreeTopo estate root)[index]? = some id
        ∧ row = buildItem migrationId root index id (info id)
        ∧ ∀ other ∈ after, id ∉ walkTreeTopo estate other := by
  rw [Keyed.mem_foldl_upsert_flatMap fun root _ => nodup_treeRows]
  constructor
  · rintro ⟨before, root, after, rfl, hrow, hafter⟩
    obtain ⟨index, id, hget, rfl⟩ := mem_treeRows.mp hrow
    refine ⟨before, root, after, index, id, rfl, hget, rfl, fun other hother hid => ?_⟩
    obtain ⟨index', hget'⟩ := mem_iff_getElem?.mp hid
    exact hafter other hother _ (mem_treeRows.mpr ⟨index', id, hget', rfl⟩) rfl
  · rintro ⟨before, root, after, index, id, rfl, hget, rfl, hafter⟩
    refine ⟨before, root, after, rfl, mem_treeRows.mpr ⟨index, id, hget, rfl⟩, ?_⟩
    intro other hother row hrow hkey
    obtain ⟨index', id', hget', rfl⟩ := mem_treeRows.mp hrow
    obtain rfl : id' = id := (Prod.mk.inj hkey).2
    exact hafter other hother (mem_of_getElem? hget')

/-! ## Well-formed ledgers -/

variable [DecidableEq G] [DecidableEq K] {preview : Planner I} {previewId : M}
  {selection : Selection I G K} {media : List MediaItem} {recurring : Bool}
  {ledger : List (PlanItem M I)}

section

variable
  (h : create estate preview planner previewId migrationId selection media recurring = .ok ledger)

include h

theorem create_eq_ok :
    ledger = (((rootsForSelection estate selection).flatMap
      (rootItems estate planner migrationId (resolvedIds estate selection))).filter fun item =>
        !planner.usageAge || planner.withinAge item.treeId).foldl
          (Keyed.upsert PlanItem.id) [] := by
  unfold create at h
  dsimp only at h
  split_ifs at h
  obtain ⟨shown, -, h⟩ := bind_eq_ok.mp h
  split_ifs at h
  obtain ⟨plan, hplan, h⟩ := bind_eq_ok.mp h
  cases h
  unfold buildPlanForRoots at hplan
  dsimp only at hplan
  split at hplan
  · cases hplan
  · cases hplan
    simp only [Plan.keepWithinAge, foldl_addTree, nil_append]
    rfl

theorem ledger_eq (hall : ∀ id ∈ resolvedIds estate selection,
      moves estate planner id ∧ (planner.place id).isSome) :
    ∃ info : I → NodeInfo I,
      (∀ id ∈ resolvedIds estate selection, nodeInfo estate planner
        ((resolvedIds estate selection).filter (moves estate planner)) id = .ok (info id))
      ∧ ledger = ((keptRoots planner (rootsForSelection estate selection)).flatMap
        (treeRows estate migrationId info)).foldl (Keyed.upsert PlanItem.id) [] := by
  have hexists : ∀ id, ∃ info, id ∈ resolvedIds estate selection → nodeInfo estate planner
      ((resolvedIds estate selection).filter (moves estate planner)) id = .ok info := by
    intro id
    by_cases hid : id ∈ resolvedIds estate selection
    · obtain ⟨disk, hmem, rfl⟩ := mem_disks_of_mem_resolvedIds hid
      obtain ⟨info, hinfo⟩ := nodeInfo_isOk (Estate.find_eq_some.mpr ⟨hmem, rfl⟩) (hall _ hid).2
        fun other hother => (hall other (mem_of_mem_filter hother)).2
      exact ⟨info, fun _ => hinfo⟩
    · exact ⟨⟨.desktop, ⟨[], id, []⟩, ⟨[], id, []⟩, 0, none, none⟩, fun h => absurd h hid⟩
  choose info hinfo using hexists
  refine ⟨info, hinfo, ?_⟩
  have hrows : (rootsForSelection estate selection).flatMap
      (rootItems estate planner migrationId (resolvedIds estate selection))
      = (rootsForSelection estate selection).flatMap (treeRows estate migrationId info) := by
    refine flatMap_congr fun root hroot => ?_
    have hsub : ∀ id ∈ walkTreeTopo estate root, id ∈ resolvedIds estate selection :=
      fun id hid => mem_flatMap.mpr ⟨root, hroot, hid⟩
    rw [rootItems, treeItems_eq hsub (fun id hid => (hall id hid).1) hinfo]
    rfl
  rw [create_eq_ok h, hrows, keptRoots]
  congr 1
  refine filter_flatMap_rows (fun root => !planner.usageAge || planner.withinAge root) ?_
  intro root _ row hrow
  obtain ⟨index, id, -, rfl⟩ := mem_treeRows.mp hrow
  rfl

theorem of_mem_created (hrow : row ∈ ledger) :
    row.migrationId = migrationId ∧ moves estate planner row.storageId
      ∧ (planner.place row.storageId).isSome := by
  rw [create_eq_ok h] at hrow
  have hitem := (Keyed.mem_of_mem_foldl_upsert hrow).resolve_right (not_mem_nil)
  obtain ⟨root, -, hitem⟩ := mem_flatMap.mp (mem_of_mem_filter hitem)
  unfold rootItems at hitem
  cases hitems : treeItems estate planner migrationId (resolvedIds estate selection) root with
  | error id => simp [hitems, Except.toOption] at hitem
  | ok items =>
    rw [hitems] at hitem
    exact of_mem_treeItems hitems hitem

theorem nodup_created : (ledger.map (·.storageId)).Nodup := by
  have hkeys : (ledger.map PlanItem.id).Nodup := by
    rw [create_eq_ok h]
    exact Keyed.nodup_foldl_upsert (by simp) _
  refine Nodup.map_on (fun a ha b hb hab => ?_) hkeys.of_map
  refine inj_on_of_nodup_map hkeys ha hb ?_
  exact Prod.ext ((of_mem_created h ha).1.trans (of_mem_created h hb).1.symm) hab

theorem length_filter_eq_one {id : I} :
    (ledger.filter (·.storageId = id)).length = 1 ↔ ∃ row ∈ ledger, row.storageId = id := by
  have hcount : (ledger.filter (·.storageId = id)).length
      = (ledger.map (·.storageId)).count id := by
    rw [← countP_eq_length_filter, count, countP_map]
    rfl
  rw [hcount, ← List.mem_map]
  constructor
  · intro hone
    exact count_pos_iff.mp (hone ▸ Nat.one_pos)
  · exact count_eq_one_of_mem (nodup_created h)

theorem wellFormed_of_rootsInOrder (hall : ∀ id ∈ resolvedIds estate selection,
      moves estate planner id ∧ (planner.place id).isSome
        ∧ ∃ root ∈ keptRoots planner (rootsForSelection estate selection),
          id ∈ walkTreeTopo estate root)
    (horder : RootsInOrder estate (resolvedIds estate selection)
      (keptRoots planner (rootsForSelection estate selection))) :
    WellFormed estate selection ledger := by
  obtain ⟨info, hinfo, hledger⟩ := ledger_eq h fun id hid => ⟨(hall id hid).1, (hall id hid).2.1⟩
  refine ⟨fun id hid => (length_filter_eq_one h).mpr ?_, ?_⟩
  · obtain ⟨before, root, after, hroots, hwalk, hafter⟩ := exists_last (hall id hid).2.2
    obtain ⟨index, hget⟩ := mem_iff_getElem?.mp hwalk
    refine ⟨buildItem migrationId root index id (info id), ?_, rfl⟩
    rw [hledger]
    exact mem_ledger.mpr ⟨before, root, after, index, id, hroots, hget, rfl, hafter⟩
  · intro child hchild parent hparent hid hpid hof
    rw [hledger] at hchild hparent
    obtain ⟨before, root, after, index, id, hroots, hget, rfl, hafter⟩ := mem_ledger.mp hchild
    obtain ⟨before', root', after', index', pid, hroots', hget', rfl, hafter'⟩ :=
      mem_ledger.mp hparent
    -- the last root of the child is not the child: a later root would have it
    have hne : id ≠ root := by
      rintro rfl
      obtain ⟨other, hother, hin⟩ := horder before id after hroots ⟨pid, hpid, hof⟩
      exact hafter other hother hin
    obtain ⟨hlink, place, hlt, hplace⟩ := parent_before hget hne hof
    -- so its walk has the parent, and a later walk with the parent would have the child
    obtain rfl : root = root' := by
      refine last_unique (P := fun root => pid ∈ walkTreeTopo estate root)
        (hroots.symm.trans hroots') (mem_of_getElem? hplace) ?_
        (mem_of_getElem? hget') hafter'
      exact fun other hother hin => hafter other hother (mem_walk_of_child hin hlink)
    obtain rfl := place_unique hplace hget'
    refine ⟨rfl, hlt, ?_⟩
    show (if index = 0 then none else (info id).parentDstPath) = some (info pid).dstPath
    rw [if_neg (by omega)]
    exact parentDstPath_eq (hinfo id hid) (hinfo pid hpid) hof
      (mem_filter.mpr ⟨hpid, (hall pid hpid).1⟩)

theorem rootsInOrder_of_wellFormed (hall : ∀ id ∈ resolvedIds estate selection,
      moves estate planner id ∧ (planner.place id).isSome)
    (hwell : WellFormed estate selection ledger) :
    RootsInOrder estate (resolvedIds estate selection)
      (keptRoots planner (rootsForSelection estate selection)) := by
  obtain ⟨info, -, hledger⟩ := ledger_eq h hall
  rintro before root after hroots ⟨pid, hpid, hof⟩
  by_contra hlast
  have hafter : ∀ other ∈ after, root ∉ walkTreeTopo estate other :=
    fun other hother hin => hlast ⟨other, hother, hin⟩
  obtain ⟨rest, hwalk⟩ := (walkTreeTopo_order estate root).head
  have hkept : root ∈ keptRoots planner (rootsForSelection estate selection) := by
    rw [hroots]
    simp
  have hid : root ∈ resolvedIds estate selection :=
    mem_flatMap.mpr ⟨root, mem_of_mem_filter hkept, hwalk ▸ (.head _)⟩
  have hrow : buildItem migrationId root 0 root (info root) ∈ ledger := by
    rw [hledger]
    exact mem_ledger.mpr ⟨before, root, after, 0, root, hroots, by rw [hwalk]; rfl, rfl, hafter⟩
  obtain ⟨parent, hparent, rfl⟩ := (length_filter_eq_one h).mp (hwell.one pid hpid)
  obtain ⟨-, hlt, -⟩ := hwell.behind _ hrow parent hparent hid hpid hof
  exact Nat.not_lt_zero _ hlt

end

/-- **A plan is well-formed** exactly when every disk moves, has a place and a tree that is kept,
and no root comes after the roots it is derived from. -/
theorem create_wellFormed_iff
    (h : create estate preview planner previewId migrationId selection media recurring
      = .ok ledger) :
    WellFormed estate selection ledger
      ↔ (∀ id ∈ resolvedIds estate selection,
          moves estate planner id ∧ (planner.place id).isSome
            ∧ ∃ root ∈ keptRoots planner (rootsForSelection estate selection),
              id ∈ walkTreeTopo estate root)
        ∧ RootsInOrder estate (resolvedIds estate selection)
          (keptRoots planner (rootsForSelection estate selection)) := by
  refine ⟨fun hwell => ?_, fun ⟨hall, horder⟩ => wellFormed_of_rootsInOrder h hall horder⟩
  have hmoved : ∀ id ∈ resolvedIds estate selection,
      moves estate planner id ∧ (planner.place id).isSome := by
    intro id hid
    obtain ⟨row, hrow, rfl⟩ := (length_filter_eq_one h).mp (hwell.one id hid)
    exact (of_mem_created h hrow).2
  refine ⟨fun id hid => ⟨(hmoved id hid).1, (hmoved id hid).2, ?_⟩,
    rootsInOrder_of_wellFormed h hmoved hwell⟩
  -- its row is of a tree that is kept
  obtain ⟨row, hrow, rfl⟩ := (length_filter_eq_one h).mp (hwell.one id hid)
  obtain ⟨info, -, hledger⟩ := ledger_eq h hmoved
  rw [hledger] at hrow
  obtain ⟨before, root, after, index, id, hroots, hget, rfl, -⟩ := mem_ledger.mp hrow
  exact ⟨root, hroots ▸ by simp, mem_of_getElem? hget⟩

/-! ## A chain that leaves the pool and comes back -/

def placeAll (dir : Path) : Planner Nat where
  place _ := some dir
  domainKinds _ := []
  poolUsage _ := none
  sizeOf _ := 1
  itemKinds := []
  usageAge := false
  withinAge _ := true

/-- Disks 0 and 2 are in the pool 0, and disk 1 between them in another pool. -/
def reentrant : Estate Nat Nat Nat where
  disks := [⟨0, none, .ready, some 0, none, ['a'], ['q']⟩,
    ⟨1, some 0, .ready, some 1, none, ['b'], ['q']⟩,
    ⟨2, some 1, .ready, some 0, none, ['a'], ['q']⟩]
  nodup := by decide
  acyclic := ⟨id, by simp⟩

def wholePool : Selection Nat Nat Nat := { srcPoolId := some 0 }

/-- Disk 2 is a root of its own and in the tree of disk 0. Its second item replaces the first, and
nothing rebases it onto the path disk 1 moves to. -/
theorem nested_roots_split :
    ∃ ledger, create reentrant (placeAll ['c']) (placeAll ['c']) false true wholePool [] false
        = .ok ledger
      ∧ (∃ child ∈ ledger, ∃ parent ∈ ledger,
        reentrant.parentOf child.storageId = some parent.storageId
          ∧ child.treeId ≠ parent.treeId ∧ child.parentDstPath = none)
      ∧ ¬ WellFormed reentrant wholePool ledger := by
  obtain ⟨ledger, hledger, hrows⟩ : ∃ ledger, create reentrant (placeAll ['c']) (placeAll ['c'])
      false true wholePool [] false = .ok ledger
      ∧ ∃ child ∈ ledger, ∃ parent ∈ ledger, child.storageId ∈ resolvedIds reentrant wholePool
        ∧ parent.storageId ∈ resolvedIds reentrant wholePool
        ∧ reentrant.parentOf child.storageId = some parent.storageId
        ∧ child.treeId ≠ parent.treeId ∧ child.parentDstPath = none :=
    ⟨_, rfl, by decide⟩
  obtain ⟨child, hchild, parent, hparent, hid, hpid, hof, htree, hpath⟩ := hrows
  refine ⟨ledger, hledger, ⟨child, hchild, parent, hparent, hof, htree, hpath⟩, fun hwell => ?_⟩
  exact htree (hwell.behind child hchild parent hparent hid hpid hof).1

/-- The chain from its middle disk on, the derived disk named first. -/
def namedTrees : Selection Nat Nat Nat := { treeIds := [2, 1] }

theorem namedTrees_inOrder : RootsInOrder reentrant (resolvedIds reentrant namedTrees)
    (keptRoots (placeAll ['c']) (rootsForSelection reentrant namedTrees)) := by
  have hroots : keptRoots (placeAll ['c']) (rootsForSelection reentrant namedTrees) = [2, 1] := rfl
  have hmiddle : ¬ ∃ parent ∈ resolvedIds reentrant namedTrees,
      reentrant.parentOf 1 = some parent := by decide
  rw [hroots]
  intro before root after hsplit hparent
  match before with
  | [] =>
    obtain ⟨rfl, rfl⟩ := List.cons.inj hsplit
    exact ⟨1, mem_singleton_self 1, by decide⟩
  | [_] =>
    obtain ⟨-, hsplit⟩ := List.cons.inj hsplit
    obtain ⟨rfl, -⟩ := List.cons.inj hsplit
    exact absurd hparent hmiddle
  | _ :: _ :: _ => simp at hsplit

theorem namedTrees_wellFormed :
    ∃ ledger, create reentrant (placeAll ['c']) (placeAll ['c']) false true namedTrees [] false
        = .ok ledger
      ∧ ledger.length = 2 ∧ WellFormed reentrant namedTrees ledger := by
  have hledger : create reentrant (placeAll ['c']) (placeAll ['c']) false true namedTrees [] false
      = .ok _ := rfl
  exact ⟨_, hledger, by decide,
    (create_wellFormed_iff hledger).mpr ⟨by decide, namedTrees_inOrder⟩⟩

end Build

end IsardVDI.Migration
