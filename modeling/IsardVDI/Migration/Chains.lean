import IsardVDI.Migration.Files

/-!
# Backing chains of a tree that is abandoned

The workers move, rebase and remove files while the runner steps the trees of a ledger. A disk that
stays in place is rebased like the others, and the file that is rebased is then its only one.

* `World`, `worldMachine` — a ledger and the files. A task may do its work at any time and any
  number of times, whatever status the runner sees; a copy may also be broken off.
-/

namespace IsardVDI.Migration.Saga

open IsardVDI.Storage
open List Function Option

section World

variable {I D P : Type}

structure World (I D P : Type) where
  ledger : State I D P
  files : Files P

inductive WorldEvent (I D P : Type) where
  /-- The runner, or others who write the rows of the disks and the domains. -/
  | ledger (e : Event I D P)
  /-- A task does its work. -/
  | work (job : Nat)
  /-- A copy is broken off, and leaves something at its destination or nothing. -/
  | tear (job : Nat) (left : Option (Option P))

/-- Nobody but the runner moves a row. -/
def Event.keepPath (path : I → P) : Event I D P → Event I D P
  | .outside status _ domains => .outside status path domains
  | e => e

def worldMachine [DecidableEq I] [DecidableEq D] [DecidableEq P] :
    Machine (World I D P) (WorldEvent I D P) where
  next w
    | .ledger e =>
      (machine.next w.ledger (e.keepPath w.ledger.path)).map fun ledger => { w with ledger }
    | .work job => (w.ledger.jobs[job]?).map fun job => { w with files := job.work w.files }
    | .tear job left =>
      match w.ledger.jobs[job]? with
      | some (.move _ _ dstPath) => some { w with files := update w.files dstPath left }
      | _ => none

/-! ## Plans and chains -/

def World.plan (w : World I D P) : List (Planned I P) := w.ledger.items.map (·.toPlanned)

def Foreign (plan : List (Planned I P)) (path : P) : Prop :=
  ∀ p ∈ plan, path ≠ p.srcPath ∧ path ≠ p.dstPath

/-- The backing file of a disk at the start: its parent in the plan, or a file the plan does not
know. -/
def World.Anchored (w : World I D P) (x : Planned I P) (backing : P) : Prop :=
  (∃ p ∈ w.plan, x.parentStorageId = some p.storageId ∧ backing = w.ledger.path p.storageId)
    ∨ Foreign w.plan backing ∧ w.files backing ≠ none

variable {w₀ w w' : World I D P} {s : State I D P} {job : Job I P} {x : Item I D P} {env : Env I}

theorem Trans.moving [DecidableEq P] {c : Call I D P} {jobs : List (Job I P)} {core : Core}
    (h : Trans c x jobs core) (hstate : core.state = .moving) :
    x.state = .moving ∨ x.inPlace = false := by
  cases h with
  | keep | rebase | verify | passed => exact .inl hstate
  | claimMove hx | move hx => exact hx.elim (fun hx => .inr hx.2) fun hx => .inl hx.1
  | repair _ _ hrepair => cases hrepair.symm.trans hstate
  | _ => cases hstate

variable [DecidableEq I]

/-- An attempt begins. The paths of two disks differ, as they are named by the disks; a disk that is
not ended is at its source, and in its tree none has been lost; and the backing files exist. -/
structure World.Start (w : World I D P) : Prop where
  ledger : w.ledger.Start
  settled : w.ledger.Settled
  apart : ∀ a ∈ w.plan, ∀ b ∈ w.plan, a.storageId ≠ b.storageId →
    a.srcPath ≠ b.srcPath ∧ a.srcPath ≠ b.dstPath ∧ a.dstPath ≠ b.dstPath
  row : ∀ x ∈ w.plan,
    w.ledger.path x.storageId = x.srcPath ∨ w.ledger.path x.storageId = x.dstPath
  opened : ∀ it ∈ w.ledger.items, it.state.terminal = false →
    w.ledger.path it.storageId = it.srcPath
  located : w.ledger.Located
  parent : ∀ x ∈ w.plan, x.topoIndex ≠ 0 → x.parentDstPath ≠ none → ∃ p ∈ w.plan,
    x.parentStorageId = some p.storageId ∧ x.parentDstPath = some p.dstPath
  file : ∀ x ∈ w.plan, w.files (w.ledger.path x.storageId) ≠ none
  backing : ∀ x ∈ w.plan, w.ledger.path x.storageId = x.srcPath →
    ∀ q, w.files x.srcPath = some (some q) → w.files q ≠ none ∧ w.Anchored x q

theorem World.Start.own (h : w.Start) {a b : Planned I P} (ha : a ∈ w.plan) (hb : b ∈ w.plan)
    {path : P} (hpath : path = a.srcPath ∨ path = a.dstPath)
    (hpath' : path = b.srcPath ∨ path = b.dstPath) : a = b := by
  have hid : a.storageId = b.storageId := by
    by_contra hne
    obtain ⟨hss, hsd, hdd⟩ := h.apart a ha b hb hne
    obtain ⟨-, hds, -⟩ := h.apart b hb a ha (Ne.symm hne)
    rcases hpath with rfl | rfl <;> rcases hpath' with heq | heq
    · exact hss heq
    · exact hsd heq
    · exact hds heq.symm
    · exact hdd heq
  exact inj_on_of_nodup_map h.ledger.laid.ids ha hb hid

/-- A disk whose parent is in the plan is in the tree of the parent, and stays in place only if the
parent does. -/
def Sound (plan : List (Planned I P)) : Prop :=
  ∀ x ∈ plan, ∀ p ∈ plan, x.parentStorageId = some p.storageId →
    x.treeId = p.treeId ∧ (x.dstPath = x.srcPath → p.dstPath = p.srcPath)

variable [DecidableEq P]

/-! ## What is kept -/

/-- What is known of a task: whose files it works on, and that a source is removed when the disks
derived from it are elsewhere. -/
def JobOk (w₀ w : World I D P) : Job I P → Prop
  | .move id srcPath dstPath => ∃ x ∈ w₀.plan, x.storageId = id ∧ srcPath = x.srcPath
    ∧ dstPath = x.dstPath ∧ x.dstPath ≠ x.srcPath ∧ w₀.ledger.path id = x.srcPath
  | .rebase id childPath newBackingPath => ∃ x ∈ w₀.plan, ∃ p ∈ w₀.plan, x.storageId = id
    ∧ childPath = x.dstPath ∧ x.parentStorageId = some p.storageId
    ∧ newBackingPath = some p.dstPath
  | .removeSource id path => ∃ p ∈ w₀.plan, p.storageId = id ∧ path = p.srcPath
    ∧ p.dstPath ≠ p.srcPath
    ∧ ∀ x ∈ w₀.plan, x.parentStorageId = some id → w.ledger.path x.storageId = x.dstPath
  | .removeDestination _ path => ∃ p ∈ w₀.plan, path = p.dstPath
    ∧ w₀.ledger.path p.storageId ≠ p.dstPath
  | .preflight .. | .verify .. | .repair .. => True

structure Kept (w₀ w : World I D P) : Prop where
  inv : Inv w₀.plan ∅ w.ledger
  located : w.ledger.Located
  copied : ∀ it ∈ w.ledger.items, it.state = .moving → it.inPlace = false
  opened : ∀ it ∈ w.ledger.items, it.state.terminal = false →
    w₀.ledger.path it.storageId = it.srcPath
  row : ∀ x ∈ w₀.plan, w.ledger.path x.storageId = w₀.ledger.path x.storageId
    ∨ w.ledger.path x.storageId = x.dstPath
  jobs : ∀ job ∈ w.ledger.jobs, JobOk w₀ w job
  backing : ∀ x ∈ w₀.plan, w₀.ledger.path x.storageId = x.srcPath →
    ∀ q, w.files x.srcPath = some (some q) → w₀.Anchored x q
  foreign : ∀ q, Foreign w₀.plan q → w₀.files q ≠ none → w.files q ≠ none
  file : ∀ p ∈ w₀.plan, (∀ path, .removeSource p.storageId path ∉ w.ledger.jobs) →
    w.files (w₀.ledger.path p.storageId) ≠ none

theorem World.Start.kept (h : w.Start) : Kept w w where
  inv := h.ledger.inv_settled h.settled
  located := h.located
  copied it hit hstate := by
    have hfresh := h.ledger.fresh it hit (by rw [hstate]; rfl)
    cases hstate.symm.trans hfresh.1
  opened := h.opened
  row x hx := .inl rfl
  jobs job hjob := by
    rw [h.ledger.jobs] at hjob
    cases hjob
  backing x hx hsrc q hq := (h.backing x hx hsrc q hq).2
  foreign q _ hq := hq
  file p hp _ := h.file p hp

/-! ## The workers -/

theorem Kept.write (h : Kept w₀ w) {path : P} {file : Option (Option P)}
    (hbacking : ∀ x ∈ w₀.plan, path = x.srcPath → w₀.ledger.path x.storageId = x.srcPath →
      ∀ q, file = some (some q) → w₀.Anchored x q)
    (hforeign : ¬Foreign w₀.plan path)
    (hfile : ∀ p ∈ w₀.plan, (∀ path, .removeSource p.storageId path ∉ w.ledger.jobs) →
      path = w₀.ledger.path p.storageId → file ≠ none) :
    Kept w₀ { w with files := update w.files path file } where
  inv := h.inv
  located := h.located
  copied := h.copied
  opened := h.opened
  row := h.row
  jobs := h.jobs
  backing x hx hsrc q hq := by
    change update w.files path file x.srcPath = some (some q) at hq
    by_cases heq : x.srcPath = path
    · rw [heq, update_self] at hq
      exact hbacking x hx heq.symm hsrc q hq
    · rw [update_of_ne heq] at hq
      exact h.backing x hx hsrc q hq
  foreign q hq hsome := by
    have hne : q ≠ path := fun heq => hforeign (heq ▸ hq)
    show update w.files path file q ≠ none
    rw [update_of_ne hne]
    exact h.foreign q hq hsome
  file p hp hkeep := by
    show update w.files path file _ ≠ none
    by_cases heq : w₀.ledger.path p.storageId = path
    · rw [heq, update_self]
      exact hfile p hp hkeep heq.symm
    · rw [update_of_ne heq]
      exact h.file p hp hkeep

theorem Kept.copy (hstart : w₀.Start) (h : Kept w₀ w) {id : I} {srcPath dstPath : P}
    (hok : JobOk w₀ w (.move id srcPath dstPath)) (file : Option (Option P)) :
    Kept w₀ { w with files := update w.files dstPath file } := by
  obtain ⟨x, hx, rfl, -, rfl, hmoves, hat⟩ := hok
  refine h.write ?_ (fun hforeign => (hforeign x hx).2 rfl) ?_
  · intro y hy hpath
    obtain rfl := hstart.own hx hy (.inr rfl) (.inl hpath)
    exact absurd hpath hmoves
  · intro p hp _ hpath
    have hrow := hstart.row p hp
    rw [← hpath] at hrow
    obtain rfl := hstart.own hx hp (.inr rfl) hrow
    exact absurd (hpath.trans hat) hmoves

theorem Kept.work (hstart : w₀.Start) (hsound : Sound w₀.plan) (h : Kept w₀ w)
    (hjob : job ∈ w.ledger.jobs) : Kept w₀ { w with files := job.work w.files } := by
  have hok := h.jobs job hjob
  cases job with
  | preflight | verify | repair => exact h
  | move id srcPath dstPath =>
    simp only [Job.work]
    split
    · exact h.copy hstart hok _
    · exact h
  | rebase id childPath newBackingPath =>
    obtain ⟨x, hx, p, hp, rfl, rfl, hparent, rfl⟩ := hok
    refine h.write ?_ (fun hforeign => (hforeign x hx).2 rfl) ?_
    · -- the disk is in place, and so is its parent
      intro y hy hpath _ q hq
      obtain rfl := hstart.own hx hy (.inr rfl) (.inl hpath)
      obtain ⟨_, -, hq⟩ := map_eq_some_iff.mp hq
      have hplace := (hsound x hx p hp hparent).2 hpath
      refine .inl ⟨p, hp, hparent, ?_⟩
      rw [← Option.some.inj hq]
      rcases hstart.row p hp with hrow | hrow
      · rw [hrow, hplace]
      · exact hrow.symm
    · intro p' hp' hkeep hpath
      have hfile := h.file p' hp' hkeep
      rw [← hpath] at hfile
      simpa using hfile
  | removeSource id path =>
    obtain ⟨p, hp, rfl, rfl, hmoves, -⟩ := hok
    refine h.write (by simp) (fun hforeign => (hforeign p hp).1 rfl) ?_
    intro p' hp' hkeep hpath
    have hrow := hstart.row p' hp'
    rw [← hpath] at hrow
    obtain rfl := hstart.own hp hp' (.inl rfl) hrow
    exact absurd hjob (hkeep _)
  | removeDestination id path =>
    obtain ⟨p, hp, rfl, helse⟩ := hok
    refine h.write (by simp) (fun hforeign => (hforeign p hp).2 rfl) ?_
    intro p' hp' _ hpath
    have hrow := hstart.row p' hp'
    rw [← hpath] at hrow
    obtain rfl := hstart.own hp hp' (.inr rfl) hrow
    exact absurd hpath.symm helse

/-! ## The runner -/

theorem Kept.ledger (h : Kept w₀ w) (hinv : Inv w₀.plan ∅ s) (hlocated : s.Located)
    (hrows : ∀ it' ∈ s.items, ∃ it ∈ w.ledger.items, it'.toPlanned = it.toPlanned
      ∧ (it'.state.terminal = false → it.state.terminal = false)
      ∧ (it'.state = .moving → it.state = .moving ∨ it.inPlace = false))
    (hpath : ∀ x ∈ w₀.plan, s.path x.storageId = w.ledger.path x.storageId
      ∨ s.path x.storageId = x.dstPath) (hold : ∀ job ∈ w.ledger.jobs, job ∈ s.jobs)
    (hnew : ∀ job ∈ s.jobs, job ∈ w.ledger.jobs ∨ JobOk w₀ { w with ledger := s } job) :
    Kept w₀ { w with ledger := s } where
  inv := hinv
  located := hlocated
  copied it' hit' hstate := by
    obtain ⟨it, hit, hplan, -, hmoving⟩ := hrows it' hit'
    rw [Item.inPlace, hplan]
    rcases hmoving hstate with hmoving | hplace
    · exact h.copied it hit hmoving
    · exact hplace
  opened it' hit' hopen := by
    obtain ⟨it, hit, hplan, hterminal, -⟩ := hrows it' hit'
    rw [hplan]
    exact h.opened it hit (hterminal hopen)
  row x hx := by
    rcases hpath x hx with hsame | hdst
    · show s.path _ = _ ∨ s.path _ = _
      rw [hsame]
      exact h.row x hx
    · exact .inr hdst
  jobs job hjob := by
    rcases hnew job hjob with hjob | hok
    · have hok := h.jobs job hjob
      cases job with
      | removeSource id path =>
        obtain ⟨p, hp, hid, hsrc, hmoves, hchildren⟩ := hok
        refine ⟨p, hp, hid, hsrc, hmoves, fun x hx hparent => ?_⟩
        rcases hpath x hx with hsame | hdst
        · exact hsame.trans (hchildren x hx hparent)
        · exact hdst
      | _ => exact hok
    · exact hok
  backing := h.backing
  foreign := h.foreign
  file p hp hkeep := h.file p hp fun path hjob => hkeep path (hold _ hjob)

theorem Inv.located_of_release {plan : List (Planned I P)} (h : Inv plan ∅ s) (hlaid : Laid plan)
    (hlocated : s.Located) {t : I} {action : Action}
    (hnext : Next (s.tree t) env.statusOf (some x) action) (hx : x.state = .dbUpdated)
    {it : Item I D P} (hit : it ∈ s.tree t) : s.path it.storageId = it.dstPath :=
  hlocated it (State.mem_tree.mp hit).1 (h.committed_of_release hlaid hnext hx hit)

theorem Kept.same (h : Kept w₀ w) (hinv : Inv w₀.plan ∅ s) (hitems : s.items = w.ledger.items)
    (hpath : s.path = w.ledger.path) (hjobs : s.jobs = w.ledger.jobs) :
    Kept w₀ { w with ledger := s } := by
  refine h.ledger hinv ?_ ?_ (fun x _ => .inl (by rw [hpath])) ?_ ?_
  · rw [State.Located, hitems, hpath]
    exact h.located
  · rw [hitems]
    exact fun it hit => ⟨it, hit, rfl, id, .inl⟩
  · rw [hjobs]
    exact fun job hjob => hjob
  · rw [hjobs]
    exact fun job hjob => .inl hjob

variable [DecidableEq D]

theorem Kept.placed (hstart : w₀.Start) (hsound : Sound w₀.plan) (h : Kept w₀ w) {mode : Mode}
    {t : I} {domainsOf : I → List D}
    (hjob : .place job ∈ (w.ledger.call mode t env domainsOf).stepTree) :
    JobOk w₀ { w with ledger := w.ledger.step mode t env domainsOf } job := by
  have hmem : ∀ {x : Item I D P}, x ∈ w.ledger.tree t → x.toPlanned ∈ w₀.plan := fun hx =>
    h.inv.planned ▸ mem_map_of_mem (State.mem_tree.mp hx).1
  rcases h.inv.placed_of_step hjob with ⟨p, hp, rfl, helse⟩ | ⟨x, action, jobs, core, hnext, htrans,
    hin⟩
  · refine ⟨p, hp, rfl, fun hat => helse ?_⟩
    rcases h.row p hp with hsame | hdst
    · exact hsame.trans hat
    · exact hdst
  have hx := hnext.mem
  have hxmem := (State.mem_tree.mp hx).1
  cases job with
  | preflight | verify | repair => trivial
  | move id srcPath dstPath =>
    obtain ⟨hmovable, rfl, rfl, rfl⟩ := htrans.placed hin
    have hplace : x.inPlace = false :=
      hmovable.elim (fun hx => hx.2) fun hx => h.copied x hxmem hx.1
    have hopen : x.state.terminal = false := by
      rcases hmovable with hx | hx <;> rw [hx.1] <;> rfl
    exact ⟨x.toPlanned, hmem hx, rfl, rfl, rfl, by simpa [Item.inPlace] using hplace,
      h.opened x hxmem hopen⟩
  | rebase id childPath newBackingPath =>
    obtain ⟨-, hroot, rfl, rfl, rfl⟩ := htrans.placed hin
    simp only [Item.isRoot, Bool.or_eq_false_iff, decide_eq_false_iff_not,
      isNone_eq_false_iff] at hroot
    obtain ⟨p, hp, hparent, hdst⟩ := hstart.parent _ (hmem hx) hroot.1
      (isSome_iff_ne_none.mp hroot.2)
    exact ⟨x.toPlanned, hmem hx, p, hp, rfl, rfl, hparent, hdst⟩
  | removeSource id path =>
    obtain ⟨hstate, hplace, rfl, rfl⟩ := htrans.placed hin
    refine ⟨x.toPlanned, hmem hx, rfl, rfl, by simpa [Item.inPlace] using hplace, ?_⟩
    -- the disks derived from it are in its tree
    intro y hy hparent
    have htree := (hsound y hy _ (hmem hx) hparent).1
    rw [← h.inv.planned] at hy
    obtain ⟨it, hit, rfl⟩ := mem_map.mp hy
    have hittree : it ∈ w.ledger.tree t :=
      State.mem_tree.mpr ⟨hit, htree.trans (State.mem_tree.mp hx).2⟩
    rcases h.inv.path_step hstart.ledger.laid hit mode t env domainsOf with hsame | hdst
    · exact hsame.trans
        (h.inv.located_of_release hstart.ledger.laid h.located hnext hstate hittree)
    · exact hdst
  | removeDestination id path => cases htrans.placed hin

theorem Kept.step (hstart : w₀.Start) (hsound : Sound w₀.plan) (h : Kept w₀ w) (mode : Mode)
    (t : I) (env : Env I) (domainsOf : I → List D) :
    Kept w₀ { w with ledger := w.ledger.step mode t env domainsOf } := by
  have hlaid := hstart.ledger.laid
  have hjobs : (w.ledger.step mode t env domainsOf).jobs
      = w.ledger.jobs ++ Saga.placed (w.ledger.call mode t env domainsOf).stepTree :=
    w.ledger.jobs_perform _
  refine h.ledger (h.inv.step hlaid)
    (h.inv.located_step hlaid h.located mode t env domainsOf) ?_ ?_ ?_ ?_
  · intro it' hit'
    obtain ⟨it, hit, rfl⟩ := State.mem_items_perform.mp hit'
    refine ⟨it, hit, toPlanned_after _ _, ?_⟩
    rcases h.inv.row_step hlaid hit mode t env domainsOf with ⟨hcore, -⟩ | hgiven | ⟨action, hopen,
      -, -, htakes⟩
    · rw [show (after _ it).state = it.state from congrArg Core.state hcore]
      exact ⟨id, .inl⟩
    · refine ⟨fun hopen => ?_, fun hmoving => ?_⟩
      · rw [ItemState.terminal_of_givenUp hgiven] at hopen
        cases hopen
      · rw [hmoving] at hgiven
        cases hgiven
    · exact ⟨fun _ => hopen, fun hmoving => htakes.2.moving hmoving⟩
  · intro x hx
    rw [← h.inv.planned] at hx
    obtain ⟨it, hit, rfl⟩ := mem_map.mp hx
    exact h.inv.path_step hlaid hit mode t env domainsOf
  · rw [hjobs]
    exact fun job hjob => mem_append_left _ hjob
  · rw [hjobs]
    intro job hjob
    rcases mem_append.mp hjob with hjob | hjob
    · exact .inl hjob
    · exact .inr (h.placed hstart hsound (mem_placed.mp hjob))

theorem Kept.skip (h : Kept w₀ w) (t : I) (hinv : Inv w₀.plan ∅ (w.ledger.skip t)) :
    Kept w₀ { w with ledger := w.ledger.skip t } := by
  have hjobs := w.ledger.skip_jobs t
  refine h.ledger hinv h.located.skip ?_ (fun x _ => .inl (w.ledger.skip_path t _)) ?_ ?_
  · intro it' hit'
    obtain ⟨it, hit, hplan, rfl | hgiven⟩ := State.skip_row hit'
    · exact ⟨_, hit, rfl, id, .inl⟩
    · refine ⟨it, hit, hplan, fun hopen => ?_, fun hmoving => ?_⟩
      · rw [ItemState.terminal_of_givenUp hgiven] at hopen
        cases hopen
      · rw [hmoving] at hgiven
        cases hgiven
  · exact fun job hjob => hjobs ▸ hjob
  · exact fun job hjob => .inl (hjobs ▸ hjob)

theorem Kept.next (hstart : w₀.Start) (hsound : Sound w₀.plan) (h : Kept w₀ w)
    {e : WorldEvent I D P} (hnext : worldMachine.next w e = some w') : Kept w₀ w' := by
  cases e with
  | ledger e =>
    obtain ⟨s, hs, rfl⟩ := map_eq_some_iff.mp hnext
    have hinv := h.inv.next hstart.ledger.laid hs
    cases e with
    | step mode t env domainsOf =>
      cases hs
      exact h.step hstart hsound mode t env domainsOf
    | skip t =>
      simp only [Event.keepPath, machine] at hs
      split_ifs at hs
      cases hs
      exact h.skip t hinv
    | load | forget | outside =>
      cases hs
      exact h.same hinv rfl rfl rfl
  | work n =>
    obtain ⟨job, hjob, rfl⟩ := map_eq_some_iff.mp hnext
    exact h.work hstart hsound (mem_of_getElem? hjob)
  | tear n left =>
    simp only [worldMachine] at hnext
    split at hnext
    · rename_i hjob
      cases hnext
      exact h.copy hstart (h.jobs _ (mem_of_getElem? hjob)) left
    · cases hnext

/-! ## Whole runs -/

/-- **No chain is broken.** After any run of the runner and the workers over a sound plan, a disk
whose row is at its source has a backing file that exists, if it has one. -/
theorem source_backed {events : List (WorldEvent I D P)} (hstart : w.Start) (hsound : Sound w.plan)
    (hrun : worldMachine.run w events = some w') {it : Item I D P} (hit : it ∈ w'.ledger.items)
    (hsrc : w'.ledger.path it.storageId = it.srcPath) {q : P}
    (hq : w'.files it.srcPath = some (some q)) : w'.files q ≠ none := by
  have h : Kept w w' := worldMachine.run_preserves (Kept w)
    (fun _ _ _ h hnext => h.next hstart hsound hnext) hstart.kept hrun
  have hx : it.toPlanned ∈ w.plan := h.inv.planned ▸ mem_map_of_mem hit
  have hsrc₀ : w.ledger.path it.storageId = it.srcPath := by
    rcases h.row _ hx with hsame | hdst
    · exact hsame.symm.trans hsrc
    · rcases hstart.row _ hx with hrow | hrow
      · exact hrow
      · exact hrow.trans (hdst.symm.trans hsrc)
  rcases h.backing _ hx hsrc₀ q hq with ⟨p, hp, hparent, rfl⟩ | ⟨hforeign, hsome⟩
  · refine h.file p hp fun path hjob => ?_
    -- a source is removed when the disks derived from it are elsewhere
    obtain ⟨p', hp', hid, -, hmoves, hchildren⟩ := h.jobs _ hjob
    have hdst := hchildren _ hx hparent
    obtain rfl := inj_on_of_nodup_map hstart.ledger.laid.ids hp' hp hid
    exact hmoves ((hsound _ hx p' hp hparent).2 (hdst.symm.trans hsrc))
  · exact h.foreign q hforeign hsome

/-- **What a migration takes away.** After any run over a sound plan, the files the plan does not
know are there, and the file a disk began with is gone only if its removal was placed and the rows
of the disks derived from it are at their destinations. -/
theorem files_stay {events : List (WorldEvent I D P)} (hstart : w.Start) (hsound : Sound w.plan)
    (hrun : worldMachine.run w events = some w') :
    (∀ q, Foreign w.plan q → w.files q ≠ none → w'.files q ≠ none)
      ∧ ∀ p ∈ w.plan, w'.files (w.ledger.path p.storageId) = none →
        (∃ path, .removeSource p.storageId path ∈ w'.ledger.jobs)
          ∧ ∀ x ∈ w.plan, x.parentStorageId = some p.storageId →
            w'.ledger.path x.storageId = x.dstPath := by
  have h : Kept w w' := worldMachine.run_preserves (Kept w)
    (fun _ _ _ h hnext => h.next hstart hsound hnext) hstart.kept hrun
  refine ⟨h.foreign, fun p hp hgone => ?_⟩
  obtain ⟨path, hjob⟩ : ∃ path, .removeSource p.storageId path ∈ w'.ledger.jobs := by
    by_contra hnone
    exact h.file p hp (not_exists.mp hnone) hgone
  obtain ⟨_, _, -, -, -, hchildren⟩ := h.jobs _ hjob
  exact ⟨⟨path, hjob⟩, hchildren⟩

end World

/-! ## A disk in place below a disk that moves -/

/-- A root that moves from the path 0 to 10, and a disk derived from it at the path 1. -/
def rootAndChild (childDstPath : Nat) : World Nat Unit Nat where
  ledger :=
    { items := [
        { storageId := 0, treeId := 0, topoIndex := 0, parentStorageId := none, srcPath := 0,
          dstPath := 10, parentDstPath := none },
        { storageId := 1, treeId := 0, topoIndex := 1, parentStorageId := some 0, srcPath := 1,
          dstPath := childDstPath, parentDstPath := some 10 }]
      status := fun _ => some .ready
      path := id
      domains := fun _ => .stopped }
  files path := if path = 0 then some none else if path = 1 then some (some 0) else none

theorem rootAndChild_start (childDstPath : Nat) (h : childDstPath = 1 ∨ childDstPath = 11) :
    (rootAndChild childDstPath).Start where
  ledger := by
    rcases h with rfl | rfl
    all_goals
      refine ⟨⟨by decide, ?_, ?_⟩, rfl, rfl, rfl, rfl, ?_⟩ <;> decide
  settled := by
    unfold State.Settled
    rcases h with rfl | rfl <;> decide
  apart := by rcases h with rfl | rfl <;> decide
  row := by rcases h with rfl | rfl <;> decide
  opened := by rcases h with rfl | rfl <;> decide
  located := by
    unfold State.Located
    rcases h with rfl | rfl <;> decide
  parent := by rcases h with rfl | rfl <;> decide
  file := by rcases h with rfl | rfl <;> decide
  backing x hx _ q hq := by
    simp only [World.plan, rootAndChild, map_cons, map_nil, mem_cons, not_mem_nil, or_false] at hx
    rcases hx with rfl | rfl
    · cases hq
    · obtain rfl : 0 = q := Option.some.inj (Option.some.inj hq)
      exact ⟨by simp [rootAndChild], .inl ⟨_, .head _, rfl, rfl⟩⟩

def cancel : WorldEvent Nat Unit Nat :=
  .ledger (.step .drive 0 { allFinished with finishing := true } fun _ => [])

def untilRebasedInPlace : List (WorldEvent Nat Unit Nat) :=
  [.ledger driveOn, .ledger driveOn, .work 1, .ledger driveOn, .ledger driveOn, .ledger driveOn,
    .ledger driveOn, .work 2, .ledger driveOn]

/-- The file the child is then based on is a copy, which is discarded. -/
theorem inPlace_stranded : (rootAndChild 1).Start ∧ ∃ w',
    worldMachine.run (rootAndChild 1) (untilRebasedInPlace ++ [cancel, .work 3]) = some w'
      ∧ w'.ledger.items.map (·.state) = [.skipped, .skipped]
      ∧ w'.ledger.path 1 = 1 ∧ w'.files 1 = some (some 10) ∧ w'.files 10 = none :=
  ⟨rootAndChild_start 1 (.inl rfl), _, rfl, by decide, rfl, by decide, by decide⟩

def untilRebased : List (WorldEvent Nat Unit Nat) :=
  [.ledger driveOn, .ledger driveOn, .work 1, .ledger driveOn, .ledger driveOn, .ledger driveOn,
    .ledger driveOn, .work 3, .ledger driveOn, .ledger driveOn, .work 4, .ledger driveOn]

/-- With both copies discarded the child is still based on the root. -/
theorem movedChild_backed : ∃ w',
    worldMachine.run (rootAndChild 11) (untilRebased ++ [cancel, .work 5, .work 6]) = some w'
      ∧ w'.ledger.items.map (·.state) = [.skipped, .skipped]
      ∧ w'.files 11 = none ∧ w'.files 1 = some (some 0) ∧ w'.files 0 ≠ none := by
  have hsound : Sound (rootAndChild 11).plan := by
    unfold Sound
    decide
  have hrun : worldMachine.run (rootAndChild 11) (untilRebased ++ [cancel, .work 5, .work 6])
      = some _ := rfl
  exact ⟨_, hrun, by decide, by decide, by decide, source_backed (rootAndChild_start 11 (.inr rfl))
    hsound hrun (.tail _ (.head _)) rfl rfl⟩

/-- The root is copied. -/
theorem movingRoot_stays : ∃ w',
    worldMachine.run (rootAndChild 11) [.ledger driveOn, .ledger driveOn, .work 1] = some w'
      ∧ w'.files ((rootAndChild 11).ledger.path 0) ≠ none := by
  have hsound : Sound (rootAndChild 11).plan := by
    unfold Sound
    decide
  have hrun : worldMachine.run (rootAndChild 11) [.ledger driveOn, .ledger driveOn, .work 1]
      = some _ := rfl
  refine ⟨_, hrun, fun hgone => ?_⟩
  obtain ⟨⟨path, hjob⟩, -⟩ := (files_stay (rootAndChild_start 11 (.inr rfl)) hsound hrun).2
    ((rootAndChild 11).plan.head (by decide)) (head_mem _) hgone
  change Job.removeSource _ path ∈ [.preflight 0 10, .move 0 0 10] at hjob
  simp at hjob

end IsardVDI.Migration.Saga
