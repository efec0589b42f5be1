import IsardVDI.Lib.Machine
import IsardVDI.RecycleBin.Restore

/-!
# A purge that takes other entries along

The purge of an entry deletes the entries that depend on its templates as well. It claims the entry
itself by a conditional update. The others it finds by two queries for recycled entries, and it
writes their status later, whatever it is by then. A restore takes its entry by a conditional update
of its own, after it has looked for the templates its domains depend on.
-/

namespace IsardVDI.RecycleBin.Cascade

open List Function

inductive StorageStatus
  | ready
  | recycled
  | deleted
  deriving DecidableEq, Repr

section Model

variable {E S T : Type} [DecidableEq E]

section Code

variable [DecidableEq S] [DecidableEq T]

structure Template (T : Type) where
  id : T
  duplicateParentTemplate : Option T
  parents : Option (List T)

/-- The parts of the entries that neither side writes: of the desktops their `parents`, and of the
deployments the templates they are made of. -/
structure Bin (E S T : Type) where
  ids : List E
  storages : E → List S
  desktops : E → List (Option (List T))
  templates : E → List (Template T)
  deployments : E → List T

namespace Bin

variable (bin : Bin E S T) (rb : E)

def templateIds : List T := (bin.templates rb).map (·.id)

/-- The index `parents`. An entry with a row that lacks the field is not in it. -/
def parents : List T :=
  ((bin.desktops rb ++ (bin.templates rb).map (·.parents)).mapM id).elim [] flatten

/-- The index `duplicate_parent_template`, likewise. -/
def duplicateParentTemplate : List T :=
  ((bin.templates rb).mapM Template.duplicateParentTemplate).getD []

/-- What `check_can_restore` looks for, in its order. -/
def needed : List T :=
  (bin.desktops rb).flatMap (·.getD []) ++ bin.deployments rb
    ++ (bin.templates rb).flatMap fun template =>
      template.duplicateParentTemplate.elim (template.parents.getD []) fun parent => [parent]

end Bin

structure Loaded (E : Type) where
  rb : E
  allDeleted : Bool
  deriving DecidableEq, Repr

inductive PurgePc (E S : Type)
  | claim
  | load
  | parents
  | duplicateParents (found : List E)
  | loading (entries : List E) (loaded : List (Loaded E))
  | writing (loaded : List (Loaded E))
  | planning (rb : E) (storages plans : List S) (rest : List (Loaded E))
  | planned (rb : E) (plans : List S) (rest : List (Loaded E))
  | addTask (rb : E) (plans : List S) (rest : List (Loaded E))
  | enqueue (rb : E) (storage : S) (plans : List S) (rest : List (Loaded E))
  | ended
  deriving DecidableEq, Repr

inductive RestorePc (T : Type)
  | load
  | checkCanRestore
  | validateParents (needed : List T)
  | claim
  | updateStorages
  | insert
  | returned
  | raised
  deriving DecidableEq, Repr

structure State (E S T : Type) where
  status : E → Status
  storage : S → Option StorageStatus
  /-- The templates in the table `domains`. -/
  domains : T → Bool
  purge : PurgePc E S
  restore : RestorePc T
  /-- The storages the purge has enqueued a task for. -/
  enqueued : List S

/-- The next operation of one side, with what it finds in the tables that are not modelled: a kept
disk below the entry, a lane without a consumer, a check or an update that fails. -/
inductive Event (T : Type)
  | purge (uncovered noConsumer : Bool)
  | restore (ok : Bool)
  /-- The template has been appended to the entry that is purged, and now leaves `domains`. -/
  | recycle (template : T)
  deriving DecidableEq, Repr

/-! ## The purge -/

def purgeable : Status → Bool
  | .recycled | .queued | .deleting => true
  | .deleted | .restored => false

variable (bin : Bin E S T)

/-- `get_template_dependant_recycle_bin_entries`. -/
def templateDependants (a : E) (index : E → List T) (status : E → Status) : List E :=
  (bin.ids.filter fun rb =>
    (index rb).any (· ∈ bin.templateIds a) && status rb = .recycled && rb ≠ a).dedup

def uniqueEntries (a : E) (parents duplicateParents : List E) : List E :=
  a :: (parents ++ duplicateParents.filter (· ∉ parents))

def setStatus (s : State E S T) (rb : E) (status : Status) : State E S T :=
  { s with status := update s.status rb status }

/-- One operation of the purge of `a`. The status of an entry is read by the claim, the first load
and the queries only: `update_status` does not look at it. -/
def purge (bin : Bin E S T) (a : E) (uncovered noConsumer : Bool) (s : State E S T) :
    Option (State E S T) :=
  match s.purge with
  | .claim =>
    if purgeable (s.status a) then some { setStatus s a .queued with purge := .load }
    else some { s with purge := .ended }
  | .load =>
    if s.status a = .restored ∨ s.status a = .deleted then some { s with purge := .ended }
    else if bin.storages a = [] then some { setStatus s a .deleted with purge := .ended }
    else some { s with purge := .parents }
  | .parents =>
    some { s with purge := .duplicateParents (templateDependants bin a bin.parents s.status) }
  | .duplicateParents found =>
    let found' := templateDependants bin a bin.duplicateParentTemplate s.status
    some { s with purge := .loading (uniqueEntries a found found') [] }
  | .loading [] loaded => some { s with purge := .writing loaded }
  | .loading (rb :: entries) loaded =>
    let storagesStatus := (bin.storages rb).filterMap s.storage
    let item : Loaded E := { rb := rb, allDeleted := storagesStatus.all (· = .deleted) }
    some { s with purge := .loading entries (loaded ++ [item]) }
  | .writing [] => some { s with purge := .ended }
  | .writing (item :: rest) =>
    if item.allDeleted then some { setStatus s item.rb .deleted with purge := .writing rest }
    else if uncovered then some { setStatus s item.rb .recycled with purge := .writing rest }
    else some { s with purge := .planning item.rb (bin.storages item.rb) [] rest }
  | .planning rb [] plans rest => some { s with purge := .planned rb plans rest }
  | .planning rb (x :: storages) plans rest =>
    if s.storage x = none ∨ s.storage x = some .deleted then
      some { s with purge := .planning rb storages plans rest }
    else some { s with purge := .planning rb storages (plans ++ [x]) rest }
  | .planned rb plans rest =>
    if noConsumer ∧ plans ≠ [] then some { setStatus s rb .recycled with purge := .writing rest }
    else some { setStatus s rb .deleting with purge := .addTask rb plans rest }
  | .addTask _ [] rest => some { s with purge := .writing rest }
  | .addTask rb (x :: plans) rest =>
    some { s with
      storage := update s.storage x (some .recycled)
      purge := .enqueue rb x plans rest }
  | .enqueue rb x plans rest =>
    some { s with enqueued := x :: s.enqueued, purge := .addTask rb plans rest }
  | .ended => none

/-! ## The restore -/

def restore (bin : Bin E S T) (b : E) (ok : Bool) (s : State E S T) : Option (State E S T) :=
  match s.restore with
  | .load =>
    some { s with restore := if s.status b = .recycled then .checkCanRestore else .raised }
  -- the owners, the categories, the groups and the quotas
  | .checkCanRestore =>
    some { s with restore := if ok then .validateParents (bin.needed b) else .raised }
  | .validateParents [] => some { s with restore := .claim }
  | .validateParents (template :: needed) =>
    some { s with
      restore := if s.domains template || template ∈ bin.templateIds b then .validateParents needed
        else .raised }
  | .claim =>
    if s.status b = .recycled then
      some { setStatus s b .restored with restore := .updateStorages }
    else some { s with restore := .raised }
  | .updateStorages =>
    if ok then
      some { s with
        storage := fun x => if x ∈ bin.storages b then (s.storage x).map fun _ => .ready
          else s.storage x
        restore := .insert }
    else some { s with restore := .raised }
  | .insert =>
    if ok then
      some { s with
        domains := fun template => s.domains template || template ∈ bin.templateIds b
        restore := .returned }
    else some { s with restore := .raised }
  | .returned | .raised => none

def machine (a b : E) : Machine (State E S T) (Event T) where
  next s
    | .purge uncovered noConsumer => purge bin a uncovered noConsumer s
    | .restore ok => restore bin b ok s
    | .recycle template =>
      if template ∈ bin.templateIds a then
        some { s with domains := update s.domains template false }
      else none

end Code

variable (bin : Bin E S T)

/-! ## What the purge holds -/

def PurgePc.held : PurgePc E S → List E
  | .claim | .load | .parents | .ended => []
  | .duplicateParents found => found
  | .loading entries loaded => entries ++ loaded.map (·.rb)
  | .writing loaded => loaded.map (·.rb)
  | .planning rb _ _ rest | .planned rb _ rest => rb :: rest.map (·.rb)
  | .addTask _ _ rest | .enqueue _ _ _ rest => rest.map (·.rb)

def PurgePc.deleting : PurgePc E S → Option E
  | .addTask rb _ _ | .enqueue rb _ _ _ => some rb
  | _ => none

def PurgePc.Planned : PurgePc E S → Prop
  | .planning rb storages plans _ => storages ++ plans ⊆ bin.storages rb
  | .planned rb plans _ | .addTask rb plans _ => plans ⊆ bin.storages rb
  | .enqueue rb x plans _ => x :: plans ⊆ bin.storages rb
  | _ => True

/-- The restore does not take its entry while the purge holds it. -/
def Apart (b : E) (s : State E S T) : Event T → Prop
  | .restore _ => s.restore = .claim → s.status b = .recycled → b ∉ s.purge.held
  | .purge .. | .recycle _ => True

instance [DecidableEq S] [DecidableEq T] (b : E) (s : State E S T) : ∀ ev, Decidable (Apart b s ev)
  | .restore _ => inferInstanceAs (Decidable (_ → _ → _))
  | .purge .. | .recycle _ => inferInstanceAs (Decidable True)

structure Start (s : State E S T) : Prop where
  purge : s.purge = .claim
  restore : s.restore = .load
  enqueued : s.enqueued = []

/-- The purge is at work on `b`: it makes the tasks of `b` or has enqueued one. -/
def Purged (b : E) (s : State E S T) : Prop :=
  s.purge.deleting = some b ∨ ∃ x ∈ s.enqueued, x ∈ bin.storages b

def RestorePc.claimed : RestorePc T → Bool
  | .updateStorages | .insert | .returned => true
  | .load | .checkCanRestore | .validateParents _ | .claim | .raised => false

structure Inv (bin : Bin E S T) (b : E) (s : State E S T) : Prop where
  once : s.purge.held.count b ≤ 1
  planned : s.purge.Planned bin
  restored : s.status b = .restored → b ∉ s.purge.held
  purged : Purged bin b s →
    s.status b ≠ .recycled ∧ s.status b ≠ .restored ∧ b ∉ s.purge.held
  claimed : s.restore.claimed → s.status b = .restored

theorem Start.inv {bin : Bin E S T} {b : E} {s : State E S T} (h : Start s) : Inv bin b s where
  once := by simp [h.purge, PurgePc.held]
  planned := by simp [h.purge, PurgePc.Planned]
  restored _ := by simp [h.purge, PurgePc.held]
  purged hp := by simp [Purged, h.purge, h.enqueued, PurgePc.deleting] at hp
  claimed hc := by simp [h.restore, RestorePc.claimed] at hc

/-! ## One operation -/

/-- An operation that keeps the invariant, and the status unless the purge holds the entry. -/
structure Keeps (bin : Bin E S T) (b : E) (s t : State E S T) : Prop where
  inv : Inv bin b t
  status : b ∉ s.purge.held → t.status b = s.status b

section Step

variable {bin : Bin E S T} {a b : E} {s t : State E S T}

theorem Inv.frame (h : Inv bin b s) (hstatus : t.status b = s.status b)
    (honce : t.purge.held.count b ≤ s.purge.held.count b) (hplanned : t.purge.Planned bin)
    (hpurged : Purged bin b t → Purged bin b s) (hrestore : t.restore = s.restore) :
    Keeps bin b s t := by
  have hheld : b ∉ s.purge.held → b ∉ t.purge.held := fun hb => by
    rw [← count_eq_zero] at hb ⊢
    omega
  refine ⟨?_, fun _ => hstatus⟩
  exact
    { once := honce.trans h.once
      planned := hplanned
      restored := fun hr => hheld (h.restored (hstatus ▸ hr))
      purged := fun hp => by
        obtain ⟨hrec, hres, hb⟩ := h.purged (hpurged hp)
        exact ⟨hstatus ▸ hrec, hstatus ▸ hres, hheld hb⟩
      claimed := fun hc => hstatus.trans (h.claimed (hrestore ▸ hc)) }

theorem Inv.write (h : Inv bin b s) {rb : E} {rest : List E} {status : Status}
    (hheld : s.purge.held = rb :: rest) (hstatus : t.status = update s.status rb status)
    (hrest : t.purge.held = rest) (hplanned : t.purge.Planned bin)
    (hne : status ≠ .restored) (henqueued : t.enqueued = s.enqueued)
    (hrestore : t.restore = s.restore)
    (hdeleting : t.purge.deleting = none ∨ t.purge.deleting = some rb ∧ status ≠ .recycled) :
    Keeps bin b s t := by
  have hsome : Purged bin b t → t.purge.deleting = some b ∨ Purged bin b s := by
    rintro (hd | hx)
    · exact .inl hd
    · exact .inr (.inr (henqueued ▸ hx))
  by_cases hrb : rb = b
  · subst hrb
    -- it was held, so it is not restored and the purge has done nothing to it before
    have hmem : rb ∈ s.purge.held := by
      rw [hheld]
      exact .head _
    have honce := h.once
    rw [hheld, count_cons_self] at honce
    have hgone : rb ∉ t.purge.held := by
      rw [hrest, ← count_eq_zero]
      omega
    have hnow : t.status rb = status := by rw [hstatus, update_self]
    have hnot : ¬Purged bin rb s := fun hp => (h.purged hp).2.2 hmem
    refine ⟨?_, absurd hmem⟩
    exact
      { once := by
          rw [count_eq_zero.mpr hgone]
          omega
        planned := hplanned
        restored := fun _ => hgone
        purged := fun hp => by
          refine ⟨?_, hnow ▸ hne, hgone⟩
          rcases hsome hp with hd | hp
          · rcases hdeleting with hnone | hsome
            · simp [hnone] at hd
            · exact hnow ▸ hsome.2
          · exact absurd hp hnot
        claimed := fun hc => absurd (h.claimed (hrestore ▸ hc)) fun hr => h.restored hr hmem }
  · refine h.frame ?_ ?_ hplanned ?_ hrestore
    · rw [hstatus, update_of_ne (Ne.symm hrb)]
    · rw [hheld, hrest, count_cons_of_ne hrb]
    · intro hp
      rcases hsome hp with hd | hp
      · rcases hdeleting with hnone | hsome
        · simp [hnone] at hd
        · exact absurd (Option.some.inj (hsome.1.symm.trans hd)) hrb
      · exact hp

theorem Inv.move (h : Inv bin b s) (pc : PurgePc E S)
    (honce : pc.held.count b ≤ s.purge.held.count b) (hplanned : pc.Planned bin)
    (hdeleting : pc.deleting = some b → s.purge.deleting = some b) :
    Keeps bin b s { s with purge := pc } :=
  h.frame rfl honce hplanned (fun hp => hp.imp hdeleting id) rfl

theorem Inv.own (hab : a ≠ b) (h : Inv bin b s) (status : Status) (pc : PurgePc E S)
    (honce : pc.held = []) (hplanned : pc.Planned bin) (hdeleting : pc.deleting = none) :
    Keeps bin b s { setStatus s a status with purge := pc } := by
  refine h.frame (update_of_ne hab.symm _ _) ?_ hplanned ?_ rfl
  · simp [honce]
  · exact fun hp => hp.imp (fun hd => by simp [hdeleting] at hd) id

theorem Inv.find (h : Inv bin b s) (pc : PurgePc E S)
    (hheld : b ∈ pc.held → b ∈ s.purge.held ∨ s.status b = .recycled)
    (honce : pc.held.count b ≤ 1) (hplanned : pc.Planned bin) (hdeleting : pc.deleting = none) :
    Keeps bin b s { s with purge := pc } := by
  refine ⟨⟨honce, hplanned, fun hr hb => ?_, fun hp => ?_, h.claimed⟩, fun _ => rfl⟩
  · rcases hheld hb with hb | hrec
    · exact h.restored hr hb
    · exact absurd (hr.symm.trans hrec) (by decide)
  · obtain ⟨hrec, hres, hb⟩ := h.purged (hp.imp (fun hd => by simp [hdeleting] at hd) id)
    exact ⟨hrec, hres, fun hb' => (hheld hb').elim hb hrec⟩

theorem Inv.resume (h : Inv bin b s) (storage : S → Option StorageStatus) (domains : T → Bool)
    (pc : RestorePc T) (hclaimed : pc.claimed → s.restore.claimed) :
    Inv bin b { s with storage, domains, restore := pc } :=
  { h with claimed := fun hc => h.claimed (hclaimed hc) }

end Step

variable [DecidableEq T]

theorem mem_templateDependants {bin : Bin E S T} {a rb : E} {index : E → List T}
    {status : E → Status} (h : rb ∈ templateDependants bin a index status) :
    status rb = .recycled := by
  simp only [templateDependants, mem_dedup, mem_filter, Bool.and_eq_true, decide_eq_true_eq] at h
  exact h.2.1.2

theorem count_templateDependants (a b : E) (index : E → List T)
    (status : E → Status) : (templateDependants bin a index status).count b ≤ 1 :=
  nodup_iff_count_le_one.mp (nodup_dedup _) b

variable [DecidableEq S]

theorem mem_uniqueEntries {a b : E} {found found' : List E} (hab : a ≠ b)
    (h : b ∈ uniqueEntries a found found') : b ∈ found ∨ b ∈ found' := by
  simp only [uniqueEntries, mem_cons, mem_append, mem_filter] at h
  rcases h with hb | hb | hb
  · exact absurd hb.symm hab
  · exact .inl hb
  · exact .inr hb.1

theorem count_uniqueEntries {a b : E} {found found' : List E} (hab : a ≠ b)
    (hf : found.count b ≤ 1) (hf' : found'.count b ≤ 1) :
    (uniqueEntries a found found').count b ≤ 1 := by
  rw [uniqueEntries, count_cons_of_ne hab, count_append]
  by_cases hb : b ∈ found
  · have hnone : (found'.filter (· ∉ found)).count b = 0 := by
      simp [count_eq_zero, hb]
    omega
  · have hle := (filter_sublist (p := (· ∉ found)) (l := found')).count_le b
    have hzero := count_eq_zero.mpr hb
    omega

section Step

variable {bin : Bin E S T} {a b : E} {s t : State E S T}

/-- No storage of `b` is listed by another entry. -/
def Unshared (bin : Bin E S T) (b : E) : Prop :=
  ∀ e, e ≠ b → ∀ x ∈ bin.storages e, x ∉ bin.storages b

variable {noConsumer uncovered : Bool}

theorem Inv.purge (hab : a ≠ b) (hunshared : Unshared bin b) (h : Inv bin b s)
    (ht : purge bin a uncovered noConsumer s = some t) : Keeps bin b s t := by
  have hplanned := h.planned
  unfold Cascade.purge at ht
  generalize hpc : s.purge = pc at ht hplanned
  cases pc with
  | claim =>
    dsimp only at ht
    split at ht <;> cases ht
    · exact h.own hab .queued .load rfl trivial rfl
    · exact h.move .ended (Nat.zero_le _) trivial nofun
  | load =>
    dsimp only at ht
    split at ht
    · cases ht
      exact h.move .ended (Nat.zero_le _) trivial nofun
    · split at ht <;> cases ht
      · exact h.own hab .deleted .ended rfl trivial rfl
      · exact h.move .parents (Nat.zero_le _) trivial nofun
  | parents =>
    cases ht
    exact h.find (.duplicateParents _) (fun hb => .inr (mem_templateDependants hb))
      (count_templateDependants ..) trivial rfl
  | duplicateParents found =>
    cases ht
    have honce := h.once
    rw [hpc] at honce
    refine h.find (.loading _ []) (fun hb => ?_) ?_ trivial rfl
    · rw [hpc]
      exact (mem_uniqueEntries hab (by simpa [PurgePc.held] using hb)).imp id
        mem_templateDependants
    · simpa [PurgePc.held] using
        count_uniqueEntries hab honce (count_templateDependants ..)
  | loading entries loaded =>
    cases entries with
    | nil =>
      cases ht
      exact h.move (.writing loaded) (by simp [hpc, PurgePc.held]) trivial
        nofun
    | cons rb entries =>
      cases ht
      refine h.move (.loading entries _) ?_ trivial nofun
      simp only [hpc, PurgePc.held, map_append, count_append, map_cons,
        map_nil, count_cons, count_nil]
      omega
  | writing loaded =>
    cases loaded with
    | nil =>
      cases ht
      exact h.move .ended (Nat.zero_le _) trivial nofun
    | cons item rest =>
      dsimp only at ht
      have hheld : s.purge.held = item.rb :: rest.map (·.rb) := by rw [hpc]; rfl
      split at ht
      · cases ht
        exact h.write hheld rfl rfl trivial (by decide) rfl rfl (.inl rfl)
      · split at ht <;> cases ht
        · exact h.write hheld rfl rfl trivial (by decide) rfl rfl (.inl rfl)
        · exact h.move (.planning _ _ _ rest) (by rw [hheld]; rfl)
            (by simp [PurgePc.Planned]) nofun
  | planning rb storages plans rest =>
    cases storages with
    | nil =>
      cases ht
      exact h.move (.planned rb plans rest) (by simp [hpc, PurgePc.held]) hplanned
        nofun
    | cons x storages =>
      dsimp only at ht
      split at ht <;> cases ht
      · exact h.move (.planning rb storages plans rest) (by simp [hpc, PurgePc.held])
          (List.Subset.trans (subset_cons_self _ _) hplanned) nofun
      · refine h.move (.planning rb storages (plans ++ [x]) rest) (by simp [hpc, PurgePc.held])
          (fun y hy => hplanned ?_) nofun
        simp only [cons_append, mem_cons, mem_append, not_mem_nil] at hy ⊢
        tauto
  | planned rb plans rest =>
    dsimp only at ht
    have hheld : s.purge.held = rb :: rest.map (·.rb) := by rw [hpc]; rfl
    split at ht <;> cases ht
    · exact h.write hheld rfl rfl trivial (by decide) rfl rfl (.inl rfl)
    · exact h.write hheld rfl rfl hplanned (by decide) rfl rfl (.inr ⟨rfl, by decide⟩)
  | addTask rb plans rest =>
    cases plans with
    | nil =>
      cases ht
      exact h.move (.writing rest) (by simp [hpc, PurgePc.held]) trivial
        nofun
    | cons x plans =>
      cases ht
      exact h.frame rfl (by simp [hpc, PurgePc.held]) hplanned
        (fun hp => by simpa [Purged, hpc, PurgePc.deleting] using hp) rfl
  | enqueue rb x plans rest =>
    obtain ⟨hx, hplans⟩ := cons_subset.mp hplanned
    cases ht
    refine h.frame rfl (by simp [hpc, PurgePc.held]) hplans ?_ rfl
    rintro (hd | ⟨y, hy, hyb⟩)
    · exact .inl (by rw [hpc]; exact hd)
    · rcases mem_cons.mp hy with rfl | hy
      · -- a storage of `b` is in a plan of `b` only
        have hrb : rb = b := by_contra fun hne => hunshared rb hne y hx hyb
        exact .inl (by rw [hpc, hrb]; rfl)
      · exact .inr ⟨y, hy, hyb⟩
  | ended => cases ht

variable {ok : Bool}

theorem Inv.restore (h : Inv bin b s)
    (happart : s.restore = .claim → s.status b = .recycled → b ∉ s.purge.held)
    (ht : restore bin b ok s = some t) : Inv bin b t := by
  unfold Cascade.restore at ht
  cases hpc : s.restore with
  | load | checkCanRestore =>
    simp only [hpc] at ht
    cases ht
    refine h.resume _ _ _ ?_
    split <;> simp [RestorePc.claimed]
  | validateParents needed =>
    cases needed with
    | nil =>
      simp only [hpc] at ht
      cases ht
      exact h.resume _ _ _ nofun
    | cons template needed =>
      simp only [hpc] at ht
      cases ht
      refine h.resume _ _ _ ?_
      split <;> simp [RestorePc.claimed]
  | claim =>
    simp only [hpc] at ht
    split at ht <;> obtain rfl := Option.some.inj ht
    case isTrue hrec =>
      -- the purge does not hold the entry, and has not been at it since it is recycled
      exact
        { once := h.once
          planned := h.planned
          restored := fun _ => happart hpc hrec
          purged := fun hp => absurd hrec (h.purged hp).1
          claimed := fun _ => update_self .. }
    case isFalse => exact h.resume _ _ _ (by simp [RestorePc.claimed])
  | updateStorages | insert =>
    simp only [hpc] at ht
    split at ht <;> cases ht <;> exact h.resume _ _ _ (by simp [hpc, RestorePc.claimed])
  | returned | raised => simp [hpc] at ht

theorem restore_status (ht : Cascade.restore bin b ok s = some t) (hr : s.status b = .restored) :
    t.status b = .restored := by
  unfold Cascade.restore at ht
  split at ht
  case h_5 =>
    rw [if_neg (by simp [hr])] at ht
    cases ht
    exact hr
  case h_8 | h_9 => exact absurd ht (by simp)
  all_goals
    try split at ht
    all_goals
      cases ht
      exact hr

variable {ev : Event T}

theorem Inv.next (hab : a ≠ b) (hunshared : Unshared bin b) (h : Inv bin b s) (hP : Apart b s ev)
    (ht : (machine bin a b).next s ev = some t) : Inv bin b t := by
  cases ev with
  | purge uncovered noConsumer => exact (h.purge hab hunshared ht).inv
  | restore ok => exact h.restore hP ht
  | recycle template =>
    obtain ⟨-, ⟨⟩⟩ := Option.ite_none_right_eq_some.mp ht
    exact h.resume _ _ _ id

theorem Inv.stays (hab : a ≠ b) (hunshared : Unshared bin b) (h : Inv bin b s)
    (hr : s.status b = .restored) (ht : (machine bin a b).next s ev = some t) :
    t.status b = .restored := by
  cases ev with
  | purge uncovered noConsumer =>
    exact ((h.purge hab hunshared ht).status (h.restored hr)).trans hr
  | restore ok => exact restore_status ht hr
  | recycle template =>
    obtain ⟨-, ⟨⟩⟩ := Option.ite_none_right_eq_some.mp ht
    exact hr

end Step

/-! ## Whole runs -/

/-- **The restore and the purge exclude each other.** Along every run in which the restore does not
take its entry while the purge holds it, the entry stays restored once it is, and when the restore
returns no task was enqueued for a storage of it. -/
theorem restored_stays (bin : Bin E S T) {a b : E} (hab : a ≠ b) (hunshared : Unshared bin b)
    {s t u : State E S T} {as bs : List (Event T)} (hs : Start s)
    (hP : (machine bin a b).Meets (Apart b) s as) (ht : (machine bin a b).run s as = some t)
    (hP' : (machine bin a b).Meets (Apart b) t bs) (hu : (machine bin a b).run t bs = some u) :
    (t.status b = .restored → u.status b = .restored) ∧
      (u.restore = .returned → ∀ x ∈ u.enqueued, x ∉ bin.storages b) := by
  have hnext : ∀ s ev t, Inv bin b s → Apart b s ev → (machine bin a b).next s ev = some t →
      Inv bin b t := fun _ _ _ h hP ht => h.next hab hunshared hP ht
  have hinv := (machine bin a b).run_invariant (Apart b) (Inv bin b) hnext hs.inv hP ht
  have hinv' := (machine bin a b).run_invariant (Apart b) (Inv bin b) hnext hinv hP' hu
  refine ⟨fun hr => ?_, fun hret x hx hxb => ?_⟩
  · exact ((machine bin a b).run_invariant (Apart b) (fun s => Inv bin b s ∧ s.status b = .restored)
      (fun s ev t h hP ht => ⟨hnext s ev t h.1 hP ht, h.1.stays hab hunshared h.2 ht⟩)
      ⟨hinv, hr⟩ hP' hu).2
  · exact (hinv'.purged (.inr ⟨x, hx, hxb⟩)).2.1 (hinv'.claimed (by rw [hret]; rfl))

end Model

/-- Entry 0 has the template that the desktop of entry 1 is derived from. Each has one storage. -/
def twoEntries : Bin Nat Nat Nat where
  ids := [0, 1]
  storages e := [e]
  desktops e := if e = 1 then [some [7]] else []
  templates e := if e = 0 then [⟨7, none, some []⟩] else []
  deployments _ := []

/-- The template has just been appended to entry 0. -/
def bothRecycled : State Nat Nat Nat where
  status _ := .recycled
  storage _ := some .recycled
  domains _ := true
  purge := .claim
  restore := .load
  enqueued := []

theorem twoEntries_unshared : Unshared twoEntries 1 := by
  intro e he x hx hx'
  exact he ((mem_singleton.mp hx).symm.trans (mem_singleton.mp hx'))

theorem bothRecycled_start : Start bothRecycled where
  purge := rfl
  restore := rfl
  enqueued := rfl

/-- Once the template has left, the entry is not restored any more. -/
example : ((machine twoEntries 0 1).run bothRecycled
    (.recycle 7 :: replicate 3 (.restore true))).map (·.restore) = some .raised := rfl

def afterwards : List (Event Nat) := .recycle 7 :: List.replicate 12 (.purge false false)

/-- The entry is restored before the template leaves and the purge looks for dependants. -/
theorem restoredFirst_stays : ∃ t u,
    (machine twoEntries 0 1).run bothRecycled (List.replicate 7 (.restore true)) = some t ∧
    (machine twoEntries 0 1).run t afterwards = some u ∧
    t.restore = .returned ∧ u.purge = .addTask 0 [] [] ∧ u.enqueued = [0] ∧
    (t.status 1 = .restored → u.status 1 = .restored) ∧
    (u.restore = .returned → ∀ x ∈ u.enqueued, x ∉ twoEntries.storages 1) := by
  have ht : (machine twoEntries 0 1).run bothRecycled (replicate 7 (.restore true)) = some _ := rfl
  exact ⟨_, _, ht, rfl, rfl, rfl, rfl, restored_stays twoEntries (by decide) twoEntries_unshared
    bothRecycled_start (by decide) ht (by decide)
    (rfl : (machine twoEntries 0 1).run _ afterwards = some _)⟩

/-- The restore has found the template when it leaves. The purge finds the entry, then the restore
takes it and returns, then the purge goes on with it. -/
theorem restored_then_purged : ∃ t u,
    (machine twoEntries 0 1).run bothRecycled
      (List.replicate 3 (.restore true) ++ .recycle 7 :: List.replicate 4 (.purge false false)
        ++ List.replicate 4 (.restore true)) = some t ∧
    (machine twoEntries 0 1).run t (List.replicate 16 (.purge false false)) = some u ∧
    t.restore = .returned ∧ t.status 1 = .restored ∧ 1 ∈ twoEntries.storages 1 ∧
    u.status 1 = .deleting ∧ 1 ∈ u.enqueued := by
  exact ⟨_, _, rfl, rfl, rfl, rfl, by decide, rfl, by decide⟩

end IsardVDI.RecycleBin.Cascade
