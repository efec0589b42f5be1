import IsardVDI.Migration.Ledger
import IsardVDI.Migration.Rebased
import IsardVDI.Migration.Restore

/-!
# Disks that are derived while a migration is planned and runs

A disk may be derived from another as long as the row of that one is ready, and the ledger of a
migration has the disks there were when it was planned. The release of a disk removes its source
whatever is based on it by then.

* `Site`, `siteMachine` — the storage rows with their parents, the ledger, the files, and the tasks
  with what has become of them. A task that waits may do its work any number of times.
* `Careful` — a plan of whole trees, no disk derived from one that is still to be moved, no repair
  where a disk stays in place below one that moves, and no step that takes a task for dead which
  still works.
* `Site.Ok` — what holds of the site along a run: a file is based on a file of its parent, and what
  is derived from a disk of the ledger is behind it in its tree, unless the disk is ended.
-/

namespace IsardVDI.Migration.Saga

open IsardVDI.Storage
open List Function Option

/-! ## The site -/

structure Site (I D : Type) where
  /-- The storage rows there are or have been. -/
  ids : List I
  parent : I → Option I
  ledger : State I D (DiskPath I)
  files : Files (DiskPath I)
  life : Nat → Life
  planned : Bool

def live : Option StorageStatus → Bool
  | none | some .deleted => false
  | some _ => true

inductive SiteEvent (M I G K D : Type) where
  /-- A disk is made, new or derived from another. -/
  | make (parent : Option I) (id : I) (dir type : Path)
  | outside (status : I → Option StorageStatus) (domains : D → DomainState)
  /-- `create`, with the storage rows it reads. -/
  | plan (estate : Estate I G K) (preview planner : Planner I) (previewId migrationId : M)
      (selection : Selection I G K) (media : List MediaItem) (recurring : Bool)
  | runner (e : Event I D (DiskPath I))
  /-- A task that waits does its work. -/
  | work (n : Nat)
  /-- It ends well. -/
  | finish (n : Nat)
  /-- It fails, or is lost. -/
  | die (n : Nat)

section Site

variable {M I G K D : Type} {w w' : Site I D} {s : State I D (DiskPath I)}
  {job : Job I (DiskPath I)} {n : Nat} {estate : Estate I G K}

variable (w) in
def Site.Shows (estate : Estate I G K) : Prop :=
  estate.disks.map (·.id) = w.ids.filter (fun id => (w.ledger.status id).isSome)
    ∧ ∀ disk ∈ estate.disks, w.parent disk.id = disk.parent
      ∧ w.ledger.status disk.id = some disk.status ∧ w.ledger.path disk.id = disk.path

theorem Site.Shows.mem_disks (h : w.Shows estate) {id : I} (hid : id ∈ w.ids)
    (hsome : (w.ledger.status id).isSome) : ∃ disk ∈ estate.disks, disk.id = id := by
  have hmem : id ∈ estate.disks.map (·.id) := by
    rw [h.1]
    exact mem_filter.mpr ⟨hid, hsome⟩
  exact mem_map.mp hmem

variable [DecidableEq I]

theorem Site.Shows.parent_eq (h : w.Shows estate) {disk : Disk I G K} (hdisk : disk ∈ estate.disks)
    : estate.parentOf disk.id = w.parent disk.id := by
  rw [Estate.parentOf, Estate.find_eq_some.mpr ⟨hdisk, rfl⟩, bind_some]
  exact (h.2 disk hdisk).1.symm

section

variable [DecidableEq M] [DecidableEq G] [DecidableEq K] [DecidableEq D] (w : Site I D)

instance (w : Site I D) (estate : Estate I G K) : Decidable (w.Shows estate) :=
  inferInstanceAs (Decidable (_ ∧ ∀ disk ∈ estate.disks, _))

/-- What the runner does by itself. -/
def Event.own : Event I D (DiskPath I) → Bool
  | .outside .. => false
  | _ => true

/-- A new row, with a file based on where the parent is now. -/
def Site.make (parent : Option I) (id : I) (path : DiskPath I) : Site I D :=
  { w with
    ids := w.ids ++ [id]
    parent := update w.parent id parent
    ledger := { w.ledger with
      status := update w.ledger.status id (some .ready)
      path := update w.ledger.path id path }
    files := update w.files path (some (parent.map w.ledger.path)) }

def siteMachine : Machine (Site I D) (SiteEvent M I G K D) where
  next w
    | .make parent id dir type =>
      if id ∉ w.ids ∧ ∀ p ∈ parent, p ∈ w.ids ∧ w.ledger.status p = some .ready then
        some (w.make parent id ⟨dir, id, type⟩)
      else none
    | .outside status domains =>
      -- a row that is gone or deleted does not come back
      if ∀ id ∈ w.ids, live (w.ledger.status id) = false → live (status id) = false then
        some { w with ledger := { w.ledger with status, domains } }
      else none
    | .plan estate preview planner previewId migrationId selection media recurring =>
      if w.planned = false ∧ w.Shows estate then
        match create estate preview planner previewId migrationId selection media recurring with
        | .ok rows =>
          some { w with
            ledger := { w.ledger with items := rows.map PlanItem.item }
            planned := true }
        | .error _ => none
      else none
    | .runner e =>
      if w.planned = true ∧ e.own = true then
        (machine.next w.ledger e).map fun ledger => { w with ledger }
      else none
    | .work n =>
      if w.life n = .waiting then
        (w.ledger.jobs[n]?).map fun job => { w with files := job.work w.files }
      else none
    | .finish n =>
      if w.life n = .waiting then
        (w.ledger.jobs[n]?).bind fun job => (job.finish w.files).map fun files =>
          { w with files, life := update w.life n .finished }
      else none
    | .die n =>
      if w.life n = .waiting ∧ n < w.ledger.jobs.length then
        some { w with life := update w.life n .dead }
      else none

def Careful : SiteEvent M I G K D → Prop
  | .make (some parent) _ _ _ =>
    ∀ it ∈ w.ledger.items, it.storageId = parent → it.state.terminal = true
  | .plan estate _ planner _ _ selection _ _ => WholeTrees estate planner selection
  | .runner (.step _ t env _) => Agrees w.life w.ledger.jobs.length env.jobStatus
    ∧ (env.repairs = true → ∀ it ∈ w.ledger.tree t, it.inPlace = true → it.isRoot = true)
  | _ => True

end

variable (w) in
def Site.plan : List (Planned I (DiskPath I)) := w.ledger.items.map (·.toPlanned)

/-- Before a migration is planned. A file is named by its disk and based on a file of its
parent. -/
structure Site.Start (w : Site I D) : Prop where
  planned : w.planned = false
  items : w.ledger.items = []
  snapshot : w.ledger.snapshot = none
  jobs : w.ledger.jobs = []
  finished : w.ledger.finished = []
  reached : w.ledger.reached = []
  life : ∀ n, w.life n = .waiting
  named : ∀ id ∈ w.ids, (w.ledger.path id).id = id
  known : ∀ path, w.files path ≠ none → path.id ∈ w.ids
  backing : ∀ path q, w.files path = some (some q) → w.parent path.id = some q.id

/-- The row of a disk derived from another, in a ledger that has both. -/
def Behind (x y : Planned I (DiskPath I)) : Prop :=
  y.treeId = x.treeId ∧ y.topoIndex ≠ 0 ∧ y.parentDstPath = some x.dstPath

structure Site.Ok (w : Site I D) : Prop where
  blank : w.planned = false → w.ledger.items = [] ∧ w.ledger.snapshot = none ∧ w.ledger.jobs = []
    ∧ w.ledger.finished = [] ∧ w.ledger.reached = []
  fresh : ∀ n, w.ledger.jobs.length ≤ n → w.life n = .waiting
  named : ∀ id ∈ w.ids, (w.ledger.path id).id = id
  known : ∀ path, w.files path ≠ none → path.id ∈ w.ids
  backing : ∀ path q, w.files path = some (some q) → w.parent path.id = some q.id
  laid : Laid w.plan
  inv : Inv w.plan ∅ w.ledger
  located : w.ledger.Located
  listed : ∀ x ∈ w.plan, x.storageId ∈ w.ids
  paths : ∀ x ∈ w.plan, x.srcPath.id = x.storageId ∧ x.dstPath.id = x.storageId
    ∧ ∀ q, x.parentDstPath = some q → w.parent x.storageId = some q.id
  children : ∀ x ∈ w.ledger.items, ∀ id ∈ w.ids, w.parent id = some x.storageId →
    x.state.terminal = true ∨ (∃ y ∈ w.plan, y.storageId = id ∧ Behind x.toPlanned y)
      ∨ id ∉ w.plan.map (·.storageId) ∧ live (w.ledger.status id) = false
  jobs : ∀ job ∈ w.ledger.jobs, JobOf w.plan job
  disk : ∀ it ∈ w.ledger.items, DiskOk w.ledger.jobs w.life w.files it.toPlanned it.core

theorem blank_inv (hitems : s.items = []) (hsnapshot : s.snapshot = none) (hjobs : s.jobs = [])
    (hfinished : s.finished = []) (hreached : s.reached = []) :
    Laid (s.items.map (·.toPlanned)) ∧ Inv (s.items.map (·.toPlanned)) ∅ s := by
  have hlaid : Laid (s.items.map (·.toPlanned)) := by
    rw [hitems]
    exact ⟨nodup_nil, by simp, by simp⟩
  refine ⟨hlaid, State.Start.inv_settled ⟨hlaid, hsnapshot, hjobs, hfinished, ?_, ?_⟩ ?_⟩
  · rw [hitems, hreached]
    rfl
  · simp [hitems]
  · simp [State.Settled, hitems]

theorem Site.Start.ok (h : w.Start) : w.Ok := by
  obtain ⟨hlaid, hinv⟩ := blank_inv h.items h.snapshot h.jobs h.finished h.reached
  have hplan : w.plan = [] := by rw [Site.plan, h.items, map_nil]
  exact {
    blank := fun _ => ⟨h.items, h.snapshot, h.jobs, h.finished, h.reached⟩
    fresh := fun n _ => h.life n
    named := h.named
    known := h.known
    backing := h.backing
    laid := hlaid
    inv := hinv
    located := by simp [State.Located, h.items]
    listed := by simp [hplan]
    paths := by simp [hplan]
    children := by simp [h.items]
    jobs := by simp [h.jobs]
    disk := by simp [h.items] }

theorem Site.Ok.own (h : w.Ok) {x y : Planned I (DiskPath I)} (hx : x ∈ w.plan) (hy : y ∈ w.plan)
    (hpath : y.dstPath = x.dstPath) : y = x := by
  refine inj_on_of_nodup_map h.laid.ids hy hx ?_
  rw [← (h.paths x hx).2.1, ← (h.paths y hy).2.1, hpath]

/-! ## Files -/

theorem Site.Ok.of_files (h : w.Ok) {files : Files (DiskPath I)} {life : Nat → Life}
    (hfresh : ∀ n, w.ledger.jobs.length ≤ n → life n = .waiting)
    (hknown : ∀ path, files path ≠ none → path.id ∈ w.ids)
    (hbacking : ∀ path q, files path = some (some q) → w.parent path.id = some q.id)
    (hdisk : ∀ it ∈ w.ledger.items, DiskOk w.ledger.jobs life files it.toPlanned it.core) :
    ({ w with files, life } : Site I D).Ok :=
  { h with fresh := hfresh, known := hknown, backing := hbacking, disk := hdisk }

theorem Site.Ok.work_files (h : w.Ok) (hjob : job ∈ w.ledger.jobs) :
    (∀ path, job.work w.files path ≠ none → path.id ∈ w.ids)
      ∧ ∀ path q, job.work w.files path = some (some q) → w.parent path.id = some q.id := by
  have hof := h.jobs job hjob
  have hwrite : ∀ (path : DiskPath I) (file : Option (Option (DiskPath I))),
      (file ≠ none → path.id ∈ w.ids) →
      (∀ q, file = some (some q) → w.parent path.id = some q.id) →
      (∀ other, update w.files path file other ≠ none → other.id ∈ w.ids)
        ∧ ∀ other q, update w.files path file other = some (some q) →
          w.parent other.id = some q.id := by
    intro path file hfile hq
    refine ⟨fun other => ?_, fun other q => ?_⟩ <;> by_cases heq : other = path
    · rw [heq, update_self]
      exact hfile
    · rw [update_of_ne heq]
      exact h.known other
    · rw [heq, update_self]
      exact hq q
    · rw [update_of_ne heq]
      exact h.backing other q
  cases job with
  | preflight | verify | repair => exact ⟨h.known, h.backing⟩
  | removeSource id path | removeDestination id path => exact hwrite path none (by simp) (by simp)
  | move id srcPath dstPath =>
    simp only [Job.work]
    cases hsrc : w.files srcPath with
    | none => exact ⟨h.known, h.backing⟩
    | some backing =>
      -- both paths are of one disk
      obtain ⟨x, hx, rfl, rfl, rfl⟩ := hof
      have hids : x.dstPath.id = x.srcPath.id := ((h.paths x hx).2.1).trans (h.paths x hx).1.symm
      refine hwrite x.dstPath (some backing) (fun _ => ?_) fun q hq => ?_
      · rw [hids]
        exact h.known x.srcPath (by simp [hsrc])
      · rw [hids]
        exact h.backing x.srcPath q (hsrc.trans hq)
  | rebase id childPath newBackingPath =>
    obtain ⟨x, hx, rfl, rfl, rfl⟩ := hof
    refine hwrite x.dstPath _ (fun hfile => ?_) fun q hq => ?_
    · refine h.known x.dstPath fun hnone => hfile ?_
      rw [hnone]
      rfl
    · obtain ⟨_, -, hq⟩ := map_eq_some_iff.mp hq
      rw [(h.paths x hx).2.1]
      exact (h.paths x hx).2.2 q hq

theorem Site.Ok.work (h : w.Ok) (hjob : w.ledger.jobs[n]? = some job)
    (hlife : w.life n = .waiting) : ({ w with files := job.work w.files } : Site I D).Ok := by
  have hmem := mem_of_getElem? hjob
  obtain ⟨hknown, hbacking⟩ := h.work_files hmem
  refine h.of_files h.fresh hknown hbacking fun it hit => ?_
  have hx : it.toPlanned ∈ w.plan := mem_map_of_mem hit
  exact (h.disk it hit).work (fun y hy hpath => h.own hx hy hpath) (h.jobs job hmem) hjob hlife

theorem Site.Ok.finish (h : w.Ok) {files : Files (DiskPath I)} (hjob : w.ledger.jobs[n]? = some job)
    (hlife : w.life n = .waiting) (hfinish : job.finish w.files = some files) :
    ({ w with files, life := update w.life n .finished } : Site I D).Ok := by
  have hmem := mem_of_getElem? hjob
  have hlt := (List.getElem?_eq_some_iff.mp hjob).1
  have hfiles : (∀ path, files path ≠ none → path.id ∈ w.ids)
      ∧ ∀ path q, files path = some (some q) → w.parent path.id = some q.id := by
    rcases Job.finish_files hfinish with rfl | rfl
    · exact ⟨h.known, h.backing⟩
    · exact h.work_files hmem
  refine h.of_files (fun m hm => ?_) hfiles.1 hfiles.2 fun it hit => ?_
  · rw [update_of_ne (by omega)]
    exact h.fresh m hm
  · have hx : it.toPlanned ∈ w.plan := mem_map_of_mem hit
    refine (h.disk it hit).finish (fun y hy hpath => h.own hx hy hpath)
      (fun y hy hid => inj_on_of_nodup_map h.laid.ids hy hx hid) (h.jobs job hmem) hjob hlife
      hfinish fun hstate v hslot => ?_
    exact ((h.inv.disk it hit).slot hstate v hslot).1

theorem Site.Ok.die (h : w.Ok) (hlt : n < w.ledger.jobs.length) :
    ({ w with life := update w.life n .dead } : Site I D).Ok := by
  refine h.of_files (fun m hm => ?_) h.known h.backing fun it hit => (h.disk it hit).die n
  rw [update_of_ne (by omega)]
  exact h.fresh m hm

/-! ## Rows -/

theorem Site.Ok.make (h : w.Ok) {parent : Option I} (path : DiskPath I) (hnew : path.id ∉ w.ids)
    (hparent : ∀ p ∈ parent, p ∈ w.ids)
    (hended : ∀ p ∈ parent, ∀ it ∈ w.ledger.items, it.storageId = p → it.state.terminal = true) :
    (w.make parent path.id path).Ok := by
  have hne : ∀ id ∈ w.ids, id ≠ path.id := fun id hid heq => hnew (heq ▸ hid)
  have hitem : ∀ it ∈ w.ledger.items, it.storageId ∈ w.ids := fun it hit =>
    h.listed it.toPlanned (mem_map_of_mem hit)
  refine { h with
    named := fun id hid => ?_
    known := fun other hother => ?_
    backing := fun other q hq => ?_
    inv := h.inv.of_same rfl rfl rfl rfl h.inv.kept
    located := fun it hit hstate => ?_
    listed := fun x hx => mem_append_left _ (h.listed x hx)
    paths := fun x hx => ?_
    children := fun x hx id hid hof => ?_
    disk := fun it hit => (h.disk it hit).of_files fun _ _ hrebased => ?_ }
  · change (update w.ledger.path path.id path id).id = id
    rcases mem_append.mp hid with hid | hid
    · rw [update_of_ne (hne id hid)]
      exact h.named id hid
    · rw [mem_singleton.mp hid, update_self]
  · change update w.files path _ other ≠ none at hother
    by_cases heq : other = path
    · exact mem_append_right _ (mem_singleton.mpr (heq ▸ rfl))
    · rw [update_of_ne heq] at hother
      exact mem_append_left _ (h.known other hother)
  · change update w.files path _ other = _ at hq
    change update w.parent path.id parent other.id = _
    by_cases heq : other = path
    · rw [heq, update_self] at hq
      rw [heq, update_self]
      obtain ⟨p, hp, rfl⟩ := map_eq_some_iff.mp (Option.some.inj hq)
      rw [hp, h.named p (hparent p hp)]
    · rw [update_of_ne heq] at hq
      have hid := h.known other (by simp [hq])
      rw [update_of_ne (hne _ hid)]
      exact h.backing other q hq
  · change update w.ledger.path path.id path it.storageId = it.dstPath
    rw [update_of_ne (hne _ (hitem it hit))]
    exact h.located it hit hstate
  · change _ ∧ _ ∧ ∀ q, _ → update w.parent path.id parent x.storageId = _
    rw [update_of_ne (hne _ (h.listed x hx))]
    exact h.paths x hx
  · change update w.parent path.id parent id = _ at hof
    rcases mem_append.mp hid with hid | hid
    · rw [update_of_ne (hne id hid)] at hof
      refine (h.children x hx id hid hof).imp_right (.imp_right fun hgone => ⟨hgone.1, ?_⟩)
      change live (update w.ledger.status path.id _ id) = false
      rw [update_of_ne (hne id hid)]
      exact hgone.2
    · rw [mem_singleton.mp hid, update_self] at hof
      exact .inl (hended x.storageId hof x hx rfl)
  · -- the new file is of no disk of the ledger
    have hdst : it.dstPath ≠ path := fun heq => by
      have hid := (h.paths it.toPlanned (mem_map_of_mem hit)).2.1
      exact hnew (heq ▸ hid ▸ hitem it hit)
    intro q hindex hq
    change update w.files path _ it.dstPath = none
      ∨ update w.files path _ it.dstPath = _
    rw [update_of_ne hdst]
    exact hrebased q hindex hq

theorem Site.Ok.outside (h : w.Ok) {status : I → Option StorageStatus} {domains : D → DomainState}
    (hgone : ∀ id ∈ w.ids, live (w.ledger.status id) = false → live (status id) = false) :
    ({ w with ledger := { w.ledger with status, domains } } : Site I D).Ok :=
  { h with
    inv := h.inv.of_same rfl rfl rfl rfl h.inv.kept
    children := fun x hx id hid hof => (h.children x hx id hid hof).imp_right
      (.imp_right fun hdead => ⟨hdead.1, hgone id hid hdead.2⟩) }

/-! ## The plan -/

section

variable [DecidableEq M] [DecidableEq G] [DecidableEq K]

theorem Site.Ok.plan_created (h : w.Ok) (hblank : w.planned = false) (hshows : w.Shows estate)
    {preview planner : Planner I} {previewId migrationId : M} {selection : Selection I G K}
    {media : List MediaItem} {recurring : Bool} {rows : List (PlanItem M I)}
    (hwhole : WholeTrees estate planner selection)
    (hrows : create estate preview planner previewId migrationId selection media recurring
      = .ok rows) :
    ({ w with
      ledger := { w.ledger with items := rows.map PlanItem.item }
      planned := true } : Site I D).Ok := by
  obtain ⟨-, hsnapshot, hjobs, hfinished, hreached⟩ := h.blank hblank
  have hplan : (rows.map PlanItem.item).map (Item.toPlanned (D := D))
      = rows.map PlanItem.planned := by
    rw [List.map_map]
    rfl
  have hlaid := hwhole.laid hrows
  rw [← hplan] at hlaid
  have hpending : ∀ it ∈ rows.map (PlanItem.item (D := D)), it.state = .pending := by
    intro it hit
    obtain ⟨row, -, rfl⟩ := mem_map.mp hit
    rfl
  -- the disks of the rows are those of the site
  have hdisk : ∀ row ∈ rows, ∃ disk ∈ estate.disks, disk.id = row.storageId := by
    intro row hrow
    obtain ⟨disk, hdisk, hid⟩ :=
      mem_disks_of_mem_resolvedIds (hwhole.mem_resolvedIds hrows hrow)
    exact ⟨disk, hdisk, hid⟩
  have hlisted : ∀ row ∈ rows, row.storageId ∈ w.ids := by
    intro row hrow
    obtain ⟨disk, hdisk, hid⟩ := hdisk row hrow
    have hmem : disk.id ∈ estate.disks.map (·.id) := mem_map_of_mem hdisk
    rw [hshows.1, hid] at hmem
    exact (mem_filter.mp hmem).1
  have hparent : ∀ row ∈ rows, estate.parentOf row.storageId = w.parent row.storageId := by
    intro row hrow
    obtain ⟨disk, hdisk, hid⟩ := hdisk row hrow
    rw [← hid]
    exact hshows.parent_eq hdisk
  have hstart : State.Start { w.ledger with items := rows.map (PlanItem.item (D := D)) } := by
    refine ⟨hlaid, hsnapshot, hjobs, hfinished, ?_, ?_⟩
    · rw [hreached, filter_eq_nil_iff.mpr, map_nil]
      intro it hit
      simp [hpending it hit]
    · intro it hit _
      obtain ⟨row, -, rfl⟩ := mem_map.mp hit
      exact ⟨rfl, rfl, rfl, rfl⟩
  refine { h with
    blank := fun hfalse => by cases hfalse
    laid := hlaid
    inv := hstart.inv_settled fun it hit hlost => by cases (hpending it hit ▸ hlost :)
    located := fun it hit hstate => ?_
    listed := fun x hx => ?_
    paths := fun x hx => ?_
    children := fun x hx id hid hof => ?_
    jobs := fun job hjob => ?_
    disk := fun it hit => ?_ }
  · rw [hpending it hit] at hstate
    rcases hstate with hs | hs <;> cases hs
  · change x ∈ (rows.map PlanItem.item).map _ at hx
    rw [hplan] at hx
    obtain ⟨row, hrow, rfl⟩ := mem_map.mp hx
    exact hlisted row hrow
  · change x ∈ (rows.map PlanItem.item).map _ at hx
    rw [hplan] at hx
    obtain ⟨row, hrow, rfl⟩ := mem_map.mp hx
    obtain ⟨hsrc, hdst, -, hpath⟩ := hwhole.of_mem hrows hrow
    exact ⟨hsrc, hdst, fun q hq => (hparent row hrow).symm.trans (hpath q hq)⟩
  · obtain ⟨row, hrow, rfl⟩ := mem_map.mp hx
    -- a row that is in the ledger is behind its parent
    have hbehind : ∀ child ∈ rows, child.storageId = id → ∃ y ∈
        (rows.map (PlanItem.item (D := D))).map (·.toPlanned), y.storageId = id
          ∧ Behind row.planned y := by
      intro child hchild hid
      obtain ⟨htree, hlt, hpath⟩ := hwhole.behind hrows hchild hrow
        ((hparent child hchild).trans (hid ▸ hof))
      refine ⟨child.planned, hplan ▸ mem_map_of_mem hchild, hid, htree, ?_, hpath⟩
      exact Nat.ne_of_gt (Nat.zero_lt_of_lt hlt)
    by_cases hin : ∃ child ∈ rows, child.storageId = id
    · obtain ⟨child, hchild, hid⟩ := hin
      exact .inr (.inl (hbehind child hchild hid))
    · refine .inr (.inr ⟨fun hmem => hin ?_, ?_⟩)
      · change id ∈ ((rows.map PlanItem.item).map _).map _ at hmem
        rw [hplan, List.map_map] at hmem
        exact mem_map.mp hmem
      · -- it is deleted, or the walk would have it
        by_contra hlive
        have hsome : (w.ledger.status id).isSome := by
          cases hs : w.ledger.status id with
          | none => simp [hs, live] at hlive
          | some _ => rfl
        obtain ⟨disk, hmem, rfl⟩ := hshows.mem_disks hid hsome
        obtain ⟨hlink, hstatus, -⟩ := hshows.2 disk hmem
        refine hin (hwhole.mem_of_child hrows hrow (Estate.mem_children.mpr
          ⟨disk, hmem, rfl, hlink.symm.trans hof, fun hdeleted => hlive ?_⟩))
        rw [hstatus, hdeleted]
        rfl
  · rw [hjobs] at hjob
    cases hjob
  · obtain ⟨row, -, rfl⟩ := mem_map.mp hit
    refine .of_early (fun n srcPath dstPath hjob => ?_) (.inl rfl) rfl
    rw [hjobs] at hjob
    cases hjob

end

/-! ## The runner -/

section

variable (h : w.Ok) (hplanned : w.planned = true)

include h hplanned

theorem Site.Ok.of_ledger (hinv : Inv w.plan ∅ s) (hlocated : s.Located)
    (hpath : ∀ id ∈ w.ids, (s.path id).id = id)
    (hterminal : ∀ it' ∈ s.items, ∃ it ∈ w.ledger.items, it'.toPlanned = it.toPlanned
      ∧ (it.state.terminal = true → it'.state.terminal = true))
    (hstatus : ∀ id, id ∉ w.plan.map (·.storageId) → s.status id = w.ledger.status id)
    (hlength : w.ledger.jobs.length ≤ s.jobs.length) (hjobs : ∀ job ∈ s.jobs, JobOf w.plan job)
    (hdisk : ∀ it ∈ s.items, DiskOk s.jobs w.life w.files it.toPlanned it.core) :
    ({ w with ledger := s } : Site I D).Ok := by
  have hplan : ({ w with ledger := s } : Site I D).plan = w.plan := hinv.planned
  refine { h with
    blank := fun hfalse => by cases hplanned.symm.trans hfalse
    fresh := fun n hn => h.fresh n (hlength.trans hn)
    named := hpath
    laid := hplan ▸ h.laid
    inv := hplan ▸ hinv
    located := hlocated
    listed := hplan ▸ h.listed
    paths := hplan ▸ h.paths
    children := fun x hx id hid hof => ?_
    jobs := hplan ▸ hjobs
    disk := hdisk }
  obtain ⟨it, hit, hsame, hends⟩ := hterminal x hx
  rw [hplan]
  rw [hsame] at hof ⊢
  refine (h.children it hit id hid hof).imp hends (Or.imp_right ?_)
  exact fun hgone => ⟨hgone.1, (hstatus id hgone.1).symm ▸ hgone.2⟩

theorem Site.Ok.keep {snapshot : Option (List (Item I D (DiskPath I)))}
    (hinv : Inv w.plan ∅ { w.ledger with snapshot }) :
    ({ w with ledger := { w.ledger with snapshot } } : Site I D).Ok :=
  h.of_ledger hplanned hinv h.located h.named (fun it hit => ⟨it, hit, rfl, id⟩) (fun _ _ => rfl)
    le_rfl h.jobs h.disk

variable [DecidableEq D]

omit h hplanned in
theorem Inv.status_step {P : Type} [DecidableEq P] {plan : List (Planned I P)} {s : State I D P}
    (h : Inv plan ∅ s) {id : I} (hid : id ∉ plan.map (·.storageId)) (mode : Mode) (t : I)
    (env : Env I) (domainsOf : I → List D) :
    (s.step mode t env domainsOf).status id = s.status id := by
  have hout : id ∉ (s.tree t).map (·.storageId) := by
    intro hmem
    obtain ⟨it, hit, rfl⟩ := mem_map.mp hmem
    refine hid (mem_map.mpr ⟨it.toPlanned, ?_, rfl⟩)
    exact h.planned ▸ mem_map_of_mem (State.mem_tree.mp hit).1
  show (s.perform _).status id = s.status id
  rw [s.status_perform]
  refine statusAfter_of_not_mem fun new hmem => ?_
  cases (s.call mode t env domainsOf).stepTree_outcome with
  | idle hwaits => exact hwaits _ hmem
  | skipped hskips hwithin => exact hout (hwithin _ hmem)
  | @handled x action done hdecide hnext hhandler heffects =>
    have hx : x ∈ s.tree t := hnext.mem
    have hresult := Call.handler_outcome hnext (h.disk x (State.mem_tree.mp hx).1).fresh hhandler
    refine hout (h.within hx action hresult _ (?_ : .status id new ∈ done))
    rw [heffects, Call.guarded] at hmem
    split at hmem
    · exact hmem
    · simp only [mem_append, mem_singleton, reduceCtorEq, or_false] at hmem
      exact mem_of_mem_take hmem

theorem Site.Ok.step {mode : Mode} {t : I} {env : Env I} {domainsOf : I → List D}
    (hagrees : Agrees w.life w.ledger.jobs.length env.jobStatus) (hcareful : env.repairs = true →
      ∀ it ∈ w.ledger.tree t, it.inPlace = true → it.isRoot = true) :
    ({ w with ledger := w.ledger.step mode t env domainsOf } : Site I D).Ok := by
  have hjobs : (w.ledger.step mode t env domainsOf).jobs
      = w.ledger.jobs ++ placed (w.ledger.call mode t env domainsOf).stepTree :=
    w.ledger.jobs_perform _
  refine h.of_ledger hplanned (h.inv.step h.laid)
    (h.inv.located_step h.laid h.located mode t env domainsOf) ?_ ?_
    (fun id hid => h.inv.status_step hid mode t env domainsOf) ?_ ?_ ?_
  · intro id hid
    show ((w.ledger.perform _).path id).id = id
    rcases w.ledger.path_perform (w.ledger.call mode t env domainsOf).stepTree id with hsame | hmem
    · rw [hsame]
      exact h.named id hid
    · obtain ⟨x, action, effects, hnext, htakes, hin⟩ := Call.takes_of_critical
        (fun x hx => (h.inv.disk x (State.mem_tree.mp hx).1).fresh) hmem trivial
      obtain ⟨-, hid, hpath⟩ := htakes.1 _ hin
      have hx : x.toPlanned ∈ w.plan := mem_map_of_mem (State.mem_tree.mp hnext.mem).1
      rw [hpath, hid]
      exact (h.paths _ hx).2.1
  · intro it' hit'
    obtain ⟨it, hit, rfl⟩ := State.mem_items_perform.mp hit'
    refine ⟨it, hit, toPlanned_after _ _, fun hended => ?_⟩
    rcases h.inv.row_step h.laid hit mode t env domainsOf with ⟨hcore, -⟩ | hgiven | ⟨action, hopen,
      -, -, -⟩
    · rw [show (after _ it).state = it.state from congrArg Core.state hcore]
      exact hended
    · exact ItemState.terminal_of_givenUp hgiven
    · cases hopen.symm.trans hended
  · rw [hjobs, length_append]
    exact Nat.le_add_right _ _
  · rw [hjobs]
    intro job hjob
    rcases mem_append.mp hjob with hjob | hjob
    · exact h.jobs job hjob
    rcases h.inv.placed_of_step (mem_placed.mp hjob) with ⟨p, -, rfl, -⟩ | ⟨x, action, jobs, core,
      hnext, htrans, hin⟩
    · trivial
    have hx : x.toPlanned ∈ w.plan := mem_map_of_mem (State.mem_tree.mp hnext.mem).1
    cases job with
    | move id srcPath dstPath =>
      obtain ⟨-, hid, hsrc, hdst⟩ := htrans.placed hin
      exact ⟨_, hx, hid.symm, hsrc, hdst⟩
    | rebase id childPath newBackingPath =>
      obtain ⟨-, -, hid, hchild, hpath⟩ := htrans.placed hin
      exact ⟨_, hx, hid.symm, hchild, hpath⟩
    | verify id dstPath expectBacking =>
      obtain ⟨hid, hdst, hexpect⟩ := htrans.placed hin
      exact ⟨_, hx, hid.symm, hdst, hexpect⟩
    | _ => trivial
  · rw [hjobs]
    intro it' hit'
    obtain ⟨it, hit, rfl⟩ := State.mem_items_perform.mp hit'
    rw [toPlanned_after]
    rcases h.inv.row_step h.laid hit mode t env domainsOf with ⟨hcore, hmore⟩ | hgiven | ⟨action, -,
      hnext, hhandler, htakes⟩
    · rw [hcore]
      exact (h.disk it hit).follows hmore
    · exact .of_givenUp hgiven
    · refine (h.disk it hit).trans (h.inv.disk it hit) htakes.2 rfl hagrees h.fresh ?_
      rintro ⟨id, path, hrepair⟩ hplace
      have hrepairs := Call.repairs_of_place hhandler (mem_placed.mp hrepair)
      have hroot := hcareful hrepairs it hnext.mem (by simpa [Item.inPlace] using hplace)
      simpa [Item.isRoot] using hroot

theorem Site.Ok.skip (t : I) (hinv : Inv w.plan ∅ (w.ledger.skip t)) :
    ({ w with ledger := w.ledger.skip t } : Site I D).Ok := by
  have hjobs := w.ledger.skip_jobs t
  refine h.of_ledger hplanned hinv h.located.skip ?_ ?_ ?_ (by rw [hjobs]) ?_ ?_
  · intro id hid
    rw [w.ledger.skip_path]
    exact h.named id hid
  · intro it' hit'
    obtain ⟨it, hit, hplan, rfl | hgiven⟩ := State.skip_row hit'
    · exact ⟨_, hit, rfl, id⟩
    · exact ⟨it, hit, hplan, fun _ => ItemState.terminal_of_givenUp hgiven⟩
  · intro id _
    show (w.ledger.perform _).status id = w.ledger.status id
    rw [w.ledger.status_perform]
    refine statusAfter_of_not_mem fun new hmem => ?_
    obtain ⟨it, -, hset⟩ := mem_map.mp hmem
    cases hset
  · rw [hjobs]
    exact h.jobs
  · rw [hjobs]
    intro it' hit'
    obtain ⟨it, hit, hplan, rfl | hgiven⟩ := State.skip_row hit'
    · exact h.disk _ hit
    · exact .of_givenUp hgiven

theorem Site.Ok.runner [DecidableEq G] [DecidableEq K] {e : Event I D (DiskPath I)}
    (hown : e.own = true)
    (hcareful : Careful (M := M) (G := G) (K := K) w (.runner e))
    (hnext : machine.next w.ledger e = some s) : ({ w with ledger := s } : Site I D).Ok := by
  have hinv := h.inv.next h.laid hnext
  cases e with
  | step mode t env domainsOf =>
    cases hnext
    exact h.step hplanned hcareful.1 hcareful.2
  | skip t =>
    obtain ⟨-, ⟨⟩⟩ := ite_none_right_eq_some.mp hnext
    exact h.skip hplanned t hinv
  | load =>
    cases hnext
    exact h.keep hplanned hinv
  | forget =>
    cases hnext
    exact h.keep hplanned hinv
  | outside => cases hown

end

/-! ## Whole runs -/

variable [DecidableEq M] [DecidableEq G] [DecidableEq K] [DecidableEq D]

theorem Site.Ok.next (w : Site I D) (e : SiteEvent M I G K D) (w' : Site I D) (h : w.Ok)
    (hcareful : Careful w e) (hnext : siteMachine.next w e = some w') : w'.Ok := by
  cases e with
  | make parent id dir type =>
    obtain ⟨hguard, ⟨⟩⟩ := ite_none_right_eq_some.mp hnext
    refine h.make ⟨dir, id, type⟩ hguard.1 (fun p hp => (hguard.2 p hp).1) ?_
    rintro p rfl
    exact hcareful
  | outside status domains =>
    obtain ⟨hguard, ⟨⟩⟩ := ite_none_right_eq_some.mp hnext
    exact h.outside hguard
  | plan estate preview planner previewId migrationId selection media recurring =>
    obtain ⟨hguard, hnext⟩ := ite_none_right_eq_some.mp hnext
    split at hnext
    · rename_i rows hrows
      cases hnext
      exact h.plan_created hguard.1 hguard.2 hcareful hrows
    · cases hnext
  | runner e =>
    obtain ⟨hguard, hnext⟩ := ite_none_right_eq_some.mp hnext
    obtain ⟨s, hs, rfl⟩ := map_eq_some_iff.mp hnext
    exact h.runner hguard.1 hguard.2 hcareful hs
  | work n =>
    obtain ⟨hlife, hnext⟩ := ite_none_right_eq_some.mp hnext
    obtain ⟨job, hjob, rfl⟩ := map_eq_some_iff.mp hnext
    exact h.work hjob hlife
  | finish n =>
    obtain ⟨hlife, hnext⟩ := ite_none_right_eq_some.mp hnext
    obtain ⟨job, hjob, hnext⟩ := bind_eq_some_iff.mp hnext
    obtain ⟨files, hfinish, rfl⟩ := map_eq_some_iff.mp hnext
    exact h.finish hjob hlife hfinish
  | die n =>
    obtain ⟨hguard, ⟨⟩⟩ := ite_none_right_eq_some.mp hnext
    exact h.die hguard.2

/-- **A release strands no disk.** After a run of careful steps, when the removal of a source is
placed, no storage row that is left has a file based on it. -/
theorem release_strands_none {events : List (SiteEvent M I G K D)} (hstart : w.Start)
    (hcareful : siteMachine.Meets Careful w events) (hrun : siteMachine.run w events = some w')
    {mode : Mode} {t : I} {env : Env I} {domainsOf : I → List D} {x : I} {srcPath : DiskPath I}
    (hplace : .place (.removeSource x srcPath) ∈
      (w'.ledger.call mode t env domainsOf).stepTree)
    {id : I} (hid : id ∈ w'.ids) (hlive : live (w'.ledger.status id) = true) :
    w'.files (w'.ledger.path id) ≠ some (some srcPath) := by
  have h : w'.Ok := siteMachine.run_invariant Careful Site.Ok Site.Ok.next hstart.ok hcareful hrun
  intro hbased
  rcases h.inv.placed_of_step hplace with ⟨p, -, heq, -⟩ | ⟨item, action, jobs, core, hnext, htrans,
    hin⟩
  · cases heq
  obtain ⟨hstate, hplaced, rfl, rfl⟩ := htrans.placed hin
  obtain ⟨hmem, htree⟩ := State.mem_tree.mp hnext.mem
  have hitem : item.toPlanned ∈ w'.plan := mem_map_of_mem hmem
  -- the row is derived from the disk
  have hof := h.backing _ _ hbased
  rw [h.named id hid, (h.paths _ hitem).1] at hof
  rcases h.children item hmem id hid hof with hended | ⟨y, hy, rfl, htreeId, hindex, hparent⟩ |
    ⟨-, hgone⟩
  · rw [hstate] at hended
    cases hended
  · -- it is in the same tree, and so committed and rebased
    obtain ⟨it, hit, rfl⟩ := mem_map.mp hy
    have hintree : it ∈ w'.ledger.tree t := State.mem_tree.mpr ⟨hit, htreeId.trans htree⟩
    have hcommitted := h.inv.committed_of_release h.laid hnext hstate hintree
    have hpath := h.located it hit hcommitted
    rw [hpath] at hbased
    rcases (h.disk it hit).committed hcommitted _ hindex hparent with hnone | hrebased
    · cases hnone.symm.trans hbased
    · have hsame := Option.some.inj (Option.some.inj (hrebased.symm.trans hbased))
      simp [Item.inPlace, hsame] at hplaced
  · cases hgone.symm.trans hlive

end Site

/-! ## A chain of two disks -/

instance : ∀ (w : Site Nat Unit) (e : SiteEvent Bool Nat Nat Nat Unit), Decidable (Careful w e)
  | _, .make none .. => isTrue trivial
  | w, .make (some _) .. => inferInstanceAs (Decidable (∀ it ∈ w.ledger.items, _ → _))
  | _, .outside .. => isTrue trivial
  | _, .plan estate _ planner _ _ selection _ _ =>
    inferInstanceAs (Decidable (WholeTrees estate planner selection))
  | w, .runner (.step _ t _ _) =>
    inferInstanceAs (Decidable (Agrees .. ∧ (_ → ∀ it ∈ w.ledger.tree t, _ → _)))
  | _, .runner (.skip _) | _, .runner .load | _, .runner .forget | _, .runner (.outside ..) =>
    isTrue trivial
  | _, .work _ | _, .finish _ | _, .die _ => isTrue trivial

def vacant : Site Nat Unit where
  ids := []
  parent _ := none
  ledger :=
    { items := [], status := fun _ => none, path := fun id => ⟨[], id, []⟩
      domains := fun _ => .stopped }
  files _ := none
  life _ := .waiting
  planned := false

theorem vacant_start : vacant.Start where
  planned := rfl
  items := rfl
  snapshot := rfl
  jobs := rfl
  finished := rfl
  reached := rfl
  life _ := rfl
  named := by simp [vacant]
  known path h := absurd rfl h
  backing path q h := by cases h

def chain (last : Nat) : Estate Nat Nat Nat where
  disks := (List.range (last + 1)).map fun id =>
    ⟨id, if id = 0 then none else some (id - 1), .ready, some 0, none, ['a'], ['q']⟩
  nodup := by
    rw [List.map_map]
    exact (List.map_id _).symm ▸ List.nodup_range
  acyclic := by
    refine ⟨id, fun disk hdisk parent hparent => ?_⟩
    obtain ⟨n, -, rfl⟩ := List.mem_map.mp hdisk
    dsimp only at hparent
    split_ifs at hparent
    cases hparent
    exact Nat.sub_one_lt ‹_›

def makeDisk (parent : Option Nat) (id : Nat) : SiteEvent Bool Nat Nat Nat Unit :=
  .make parent id ['a'] ['q']

/-- The chain moves to the directory `b`. -/
def planChain (last : Nat) : SiteEvent Bool Nat Nat Nat Unit :=
  .plan (chain last) (placeAll ['b']) (placeAll ['b']) false true wholePool [] false

def driveSite : SiteEvent Bool Nat Nat Nat Unit :=
  .runner (.step .drive 0 { jobStatus := fun _ => some .finished } fun _ => [])

def Site.Releases (w : Site Nat Unit) : Prop :=
  .place (.removeSource 0 ⟨['a'], 0, ['q']⟩) ∈ (w.ledger.call .drive 0
    { jobStatus := fun _ => some .finished } fun _ => []).stepTree

def derivedLate : List (SiteEvent Bool Nat Nat Nat Unit) :=
  [makeDisk none 0, planChain 0, makeDisk (some 0) 1, driveSite, .finish 0, driveSite, .work 1,
    .finish 1, driveSite, driveSite, driveSite, .finish 2, driveSite, driveSite]

/-- The row of the derived disk is ready, and its file is based on the source that is removed. -/
theorem derived_stranded : vacant.Start ∧ ∃ w, siteMachine.run vacant derivedLate = some w
    ∧ w.Releases ∧ 1 ∈ w.ids ∧ w.ledger.status 1 = some .ready
    ∧ w.files (w.ledger.path 1) = some (some ⟨['a'], 0, ['q']⟩) :=
  ⟨vacant_start, _, rfl, mem_placed.mp (by decide), by decide, rfl, by decide⟩

def derivedEarly : List (SiteEvent Bool Nat Nat Nat Unit) :=
  [makeDisk none 0, makeDisk (some 0) 1, planChain 1, driveSite, .finish 0, driveSite, .work 1,
    .finish 1, driveSite, driveSite, driveSite, .finish 2, driveSite, .work 3, .finish 3, driveSite,
    driveSite, .finish 4, driveSite, driveSite, .finish 5, driveSite, .finish 6, driveSite,
    driveSite, driveSite, driveSite]

theorem derivedEarly_kept : ∃ w, siteMachine.run vacant derivedEarly = some w ∧ w.Releases
    ∧ 1 ∈ w.ids ∧ live (w.ledger.status 1) = true
    ∧ w.files (w.ledger.path 1) ≠ some (some ⟨['a'], 0, ['q']⟩) := by
  obtain ⟨w, hrun, hreleases, hid, hlive⟩ : ∃ w, siteMachine.run vacant derivedEarly = some w
      ∧ w.Releases ∧ 1 ∈ w.ids ∧ live (w.ledger.status 1) = true :=
    ⟨_, rfl, mem_placed.mp (by decide), by decide, by decide⟩
  exact ⟨w, hrun, hreleases, hid, hlive,
    release_strands_none vacant_start (by decide) hrun hreleases hid hlive⟩

end IsardVDI.Migration.Saga
