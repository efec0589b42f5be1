import IsardVDI.Tasks.Blueprint

/-!
# `models/task.py` — `Task.cancel`

A cancel loads every member that the links reach, one after the other. It then goes over the
members, dependents before what they depend on: a member that is terminal is left as it is, every
other one is cancelled in RQ and gets the cancel record.

The signal that asks a running body to stop, `ended_at` and the expiry are left out: no command
here reads them.
-/

namespace IsardVDI

open List BuildCommand Option

/-- Where a call of `Task.cancel` stands. -/
inductive CancelPhase (U C : Type) where
  | idle
  /-- `_chain_closure`: the members so far, those whose links are still to be followed, and the
  links of the current one. -/
  | collecting (closure frontier : List (Ident U × Job U C)) (links : List (Ident U))
  /-- The members still to be settled, and the roots to be announced after that. -/
  | sweeping (roots members : List (Ident U))
  /-- The member's status was read and is not terminal. -/
  | cancelling (id : Ident U) (roots members : List (Ident U))
  /-- The member is cancelled in RQ and does not have the record yet. -/
  | stamping (id : Ident U) (roots members : List (Ident U))
  | returned

def CancelPhase.Active {U C : Type} : CancelPhase U C → Prop
  | .idle | .returned => False
  | .collecting _ _ _ | .sweeping _ _ | .cancelling _ _ _ | .stamping _ _ _ => True

section Cancel

variable {U C : Type} [DecidableEq U]

/-! ## The order of the members -/

/-- The loop of `_closure_leaves_first`: the members all of whose dependents are gone from
`remaining`, sorted, come next. `le` is the order of the ids. -/
def leavesFirst (le : Ident U → Ident U → Bool) (dependents : Ident U → List (Ident U)) :
    Nat → List (Ident U) → List (Ident U)
  | 0, remaining => remaining
  | turns + 1, remaining =>
    match (remaining.filter fun id => (dependents id).all (· ∉ remaining)).insertionSort
      (fun x y => le x y) with
    -- the metadata has a cycle
    | [] => remaining
    | id :: ready =>
      id :: ready
        ++ leavesFirst le dependents turns (remaining.filter fun i => decide (i ∉ id :: ready))

def closureLeavesFirst (le : Ident U → Ident U → Bool) (closure : List (Ident U × Job U C)) :
    List (Ident U) :=
  leavesFirst le (fun id => ((closure.lookup id).map Job.dependentIds).getD []) closure.length
    (closure.map Prod.fst)

def closureRoots (closure : List (Ident U × Job U C)) : List (Ident U) :=
  (closure.filter fun x => x.2.dependencyIds.all (· ∉ closure.map Prod.fst)).map Prod.fst

theorem mem_leavesFirst {le : Ident U → Ident U → Bool} {dependents : Ident U → List (Ident U)}
    {turns : Nat} {remaining : List (Ident U)} {id : Ident U} (h : id ∈ remaining) :
    id ∈ leavesFirst le dependents turns remaining := by
  induction turns generalizing remaining with
  | zero => exact h
  | succ turns ih =>
    unfold leavesFirst
    split
    · exact h
    · rename_i first ready _
      by_cases hready : id ∈ first :: ready
      · exact mem_append_left _ hready
      · refine mem_append_right _ (ih (mem_filter.mpr ⟨h, ?_⟩))
        exact decide_eq_true hready

/-! ## The commands -/

/-- `status in _TERMINAL_STATUSES`. A status that cannot be read is not. -/
def Job.terminal (job : Job U C) : Bool :=
  match job.status with
  | .ok status => status.terminal
  | .error _ => false

def Store.holds (store : Store U C) (flag : Job U C → Bool) (id : Ident U) : Bool :=
  ((store.fetch id).map flag).getD false

def Store.terminal (store : Store U C) (id : Ident U) : Bool := store.holds Job.terminal id

def Store.wasCanceled (store : Store U C) (id : Ident U) : Bool := store.holds Job.canceledAt id

def Rq.setStatus (rq : Rq U C) (id : Ident U) (status : JobStatus) : Rq U C :=
  { rq with store := rq.store.update id fun job => { job with status := .ok status } }

/-- `Job.cancel` without dependents: one transaction. `LREM` takes one occurrence. -/
def Rq.cancel (rq : Rq U C) (id : Ident U) : Rq U C :=
  { rq.setStatus id .canceled with pushed := rq.pushed.erase id }

def Rq.markCanceled (rq : Rq U C) (id : Ident U) : Rq U C :=
  { rq with store := rq.store.update id fun job => { job with canceledAt := true } }

/-- The next command of a call, with the root it announces, if any. Nobody else cancels, so
`Job.cancel` does not find the member cancelled. -/
def CancelPhase.next (le : Ident U → Ident U → Bool) (rq : Rq U C) :
    CancelPhase U C → Option (CancelPhase U C × Rq U C × Option (Ident U))
  | .idle | .returned => none
  | .collecting closure frontier (id :: links) =>
    if id ∈ closure.map Prod.fst then some (.collecting closure frontier links, rq, none)
    else
      match rq.store.fetch id with
      | some job =>
        some (.collecting (closure ++ [(id, job)]) ((id, job) :: frontier) links, rq, none)
      | none => some (.collecting closure frontier links, rq, none)
  | .collecting closure (current :: frontier) [] =>
    some (.collecting closure frontier (current.2.dependencyIds ++ current.2.dependentIds), rq,
      none)
  | .collecting closure [] [] =>
    some (.sweeping (closureRoots closure) (closureLeavesFirst le closure), rq, none)
  | .sweeping roots (id :: members) =>
    if rq.store.terminal id then some (.sweeping roots members, rq, none)
    else some (.cancelling id roots members, rq, none)
  | .cancelling id roots members => some (.stamping id roots members, rq.cancel id, none)
  | .stamping id roots members => some (.sweeping roots members, rq.markCanceled id, none)
  | .sweeping (root :: roots) [] => some (.sweeping roots [], rq, some root)
  | .sweeping [] [] => some (.returned, rq, none)

/-! ## What a command does to the jobs -/

variable {b : Blueprint U C}

section Rewrites

variable {store store' store'' : Store U C} {rq : Rq U C} {id id' : Ident U}

theorem Store.holds_update (flag : Job U C → Bool) (f : Job U C → Job U C) :
    (store.update id f).holds flag id'
      = if id' = id then store.holds (fun job => flag (f job)) id else store.holds flag id' := by
  unfold holds
  rw [fetch_update]
  split
  · cases store.fetch id <;> rfl
  · rfl

theorem Store.there_of_holds {flag : Job U C → Bool} (h : store.holds flag id = true) :
    store.There id := by
  unfold holds at h
  unfold There metadata
  cases hjob : store.fetch id with
  | none => simp [hjob] at h
  | some job => rfl

theorem Store.holds_const {value : Bool} : store.holds (fun _ => value) id = true
    ↔ store.There id ∧ value = true := by
  unfold holds There metadata
  cases store.fetch id <;> simp

/-- Statuses and cancel records are written. Only the jobs of `touched` can cease to be
terminal. -/
structure Rewrites (touched : Ident U → Prop) (store store' : Store U C) : Prop where
  metadata : ∀ id, store'.metadata id = store.metadata id
  exists_eq : ∀ id, store'.exists id = store.exists id
  wasCanceled : ∀ id, store.wasCanceled id = true → store'.wasCanceled id = true
  terminal : ∀ id, ¬ touched id → store.terminal id = true → store'.terminal id = true

variable {touched : Ident U → Prop} {ids : List (Ident U)} {status : JobStatus}

theorem Rewrites.refl (touched : Ident U → Prop) (store : Store U C) :
    Rewrites touched store store :=
  ⟨fun _ => rfl, fun _ => rfl, fun _ h => h, fun _ _ h => h⟩

theorem Rewrites.trans (h : Rewrites touched store store') (h' : Rewrites touched store' store'') :
    Rewrites touched store store'' where
  metadata := fun id => (h'.metadata id).trans (h.metadata id)
  exists_eq := fun id => (h'.exists_eq id).trans (h.exists_eq id)
  wasCanceled := fun id hid => h'.wasCanceled id (h.wasCanceled id hid)
  terminal := fun id hid hold => h'.terminal id hid (h.terminal id hid hold)

theorem Rewrites.there_iff (h : Rewrites touched store store') (id : Ident U) :
    store'.There id ↔ store.There id := by
  unfold Store.There
  rw [h.metadata]

theorem rewrites_update {f : Job U C → Job U C} (hmeta : ∀ job, (f job).metadata = job.metadata)
    (hcanceled : ∀ job, job.canceledAt = true → (f job).canceledAt = true)
    (hterminal : touched id ∨ ∀ job, job.terminal = true → (f job).terminal = true) :
    Rewrites touched store (store.update id f) := by
  have hkept : ∀ (flag : Job U C → Bool) id', (id' = id → ∀ job, flag job = true →
      flag (f job) = true) → store.holds flag id' = true →
      (store.update id f).holds flag id' = true := by
    intro flag id' hflag h
    rw [Store.holds_update]
    split
    · rename_i heq
      subst heq
      unfold Store.holds at h ⊢
      cases hjob : store.fetch id' with
      | none => simp [hjob] at h
      | some job => exact hflag rfl job (by simpa [hjob] using h)
    · exact h
  refine ⟨Store.metadata_update hmeta, Store.exists_update f, ?_, ?_⟩
  · exact fun id' => hkept Job.canceledAt id' fun _ => hcanceled
  · exact fun id' hid => hkept Job.terminal id' fun heq =>
      hterminal.resolve_left (heq ▸ hid)

theorem rewrites_setStatus (hid : touched id ∨ status.terminal = true) :
    Rewrites touched rq.store (rq.setStatus id status).store :=
  rewrites_update (fun _ => rfl) (fun _ h => h) (hid.imp_right fun h _ _ => h)

theorem rewrites_push (hid : touched id) :
    Rewrites touched rq.store ((push id).exec rq).store :=
  rewrites_setStatus (.inl hid)

theorem rewrites_pushes (hids : ∀ id ∈ ids, touched id) :
    Rewrites touched rq.store ((ids.map push).foldl exec rq).store := by
  induction ids generalizing rq with
  | nil => exact .refl touched rq.store
  | cons id ids ih =>
    exact (rewrites_push (hids id (.head _))).trans
      (ih fun i hi => hids i (.tail _ hi))

theorem terminal_setStatus (h : (rq.setStatus id status).store.terminal id' = true) :
    (id' = id ∧ status.terminal = true) ∨ rq.store.terminal id' = true := by
  unfold Rq.setStatus Store.terminal at h
  rw [Store.holds_update] at h
  split at h
  · rename_i heq
    exact .inl ⟨heq, (Store.holds_const.mp h).2⟩
  · exact .inr h

theorem terminal_of_setStatus (hstatus : status.terminal = false)
    (h : (rq.setStatus id status).store.terminal id' = true) : rq.store.terminal id' = true :=
  (terminal_setStatus h).resolve_left fun h => by simp [hstatus] at h

theorem terminal_exec {there : Ident U → Prop} {after : List (BuildCommand U C)}
    {command : BuildCommand U C} (hfits : command.Fits b there after)
    (h : (command.exec rq).store.terminal id = true) : rq.store.terminal id = true := by
  cases command with
  | save id' job =>
    obtain ⟨⟨parent, rfl, -⟩, -⟩ := hfits
    unfold exec Store.terminal Store.holds at h
    rw [Store.fetch_set] at h
    split at h
    · simp [newJob, Job.terminal, JobStatus.terminal] at h
    · exact h
  | saveMeta id' dependentIds coreFinalize =>
    unfold exec Store.terminal at h
    rw [Store.holds_update] at h
    split at h
    · rename_i heq
      exact heq ▸ h
    · exact h
  | defer id' | push id' => exact terminal_of_setStatus rfl h
  | saveAgain id' | index id' => exact h

theorem terminal_setStatus_self (h : rq.store.There id) (hstatus : status.terminal = true) :
    (rq.setStatus id status).store.terminal id = true := by
  unfold Rq.setStatus Store.terminal
  rw [Store.holds_update, if_pos rfl]
  exact Store.holds_const.mpr ⟨h, hstatus⟩

theorem mem_pushed_of_pushes
    (h : id ∈ ((ids.map push).foldl exec rq).pushed) :
    id ∈ ids ∨ id ∈ rq.pushed := by
  induction ids generalizing rq with
  | nil => exact .inr h
  | cons first ids ih =>
    rcases ih h with hid | hid
    · exact .inl (.tail _ hid)
    · rcases mem_cons.mp hid with rfl | hid
      · exact .inl (.head _)
      · exact .inr hid

theorem terminal_of_pushes
    (h : ((ids.map push).foldl exec rq).store.terminal id = true) :
    rq.store.terminal id = true := by
  induction ids generalizing rq with
  | nil => exact h
  | cons first ids ih =>
    have hpush : ((push first).exec rq).store.terminal id = true := ih h
    exact terminal_of_setStatus rfl hpush

theorem wasCanceled_markCanceled (h : rq.store.There id) :
    (rq.markCanceled id).store.wasCanceled id = true := by
  unfold Rq.markCanceled Store.wasCanceled
  rw [Store.holds_update, if_pos rfl]
  exact Store.holds_const.mpr ⟨h, rfl⟩

theorem terminal_markCanceled (id' : Ident U) :
    (rq.markCanceled id).store.terminal id' = rq.store.terminal id' := by
  unfold Rq.markCanceled Store.terminal
  rw [Store.holds_update]
  split
  · rename_i heq
    exact heq ▸ rfl
  · rfl

end Rewrites

/-! ## Collecting -/

structure Closing (store : Store U C) (closure frontier : List (Ident U × Job U C))
    (links : List (Ident U)) : Prop where
  nonempty : closure ≠ []
  loaded : ∀ x ∈ closure, store.metadata x.1 = some x.2.metadata
  /-- A member that left the frontier has its links among the members, or they are next. -/
  closed : ∀ x ∈ closure, x ∈ frontier ∨ ∀ id ∈ x.2.dependencyIds ++ x.2.dependentIds,
    store.There id → id ∈ closure.map Prod.fst ∨ id ∈ links

variable {store store' : Store U C} {closure frontier : List (Ident U × Job U C)}
  {links : List (Ident U)} {id : Ident U} {job : Job U C}

theorem Closing.start (h : store.fetch id = some job) :
    Closing store [(id, job)] [(id, job)] [] where
  nonempty := by simp
  loaded := by simp [Store.metadata, h]
  closed := fun _ hx => .inl hx

theorem Closing.of_metadata_eq (h : Closing store closure frontier links)
    (hstore : ∀ id, store'.metadata id = store.metadata id) :
    Closing store' closure frontier links where
  nonempty := h.nonempty
  loaded := fun x hx => by rw [hstore, h.loaded x hx]
  closed := by
    intro x hx
    simpa only [Store.There, hstore] using h.closed x hx

theorem Closing.drop (h : Closing store closure frontier (id :: links))
    (hid : store.There id → id ∈ closure.map Prod.fst) : Closing store closure frontier links where
  nonempty := h.nonempty
  loaded := h.loaded
  closed := by
    intro x hx
    refine (h.closed x hx).imp_right fun hclosed i hi hthere => ?_
    rcases hclosed i hi hthere with hmem | hlink
    · exact .inl hmem
    · rcases mem_cons.mp hlink with rfl | hlink
      · exact .inl (hid hthere)
      · exact .inr hlink

theorem Closing.load (h : Closing store closure frontier (id :: links))
    (hjob : store.fetch id = some job) :
    Closing store (closure ++ [(id, job)]) ((id, job) :: frontier) links where
  nonempty := by simp
  loaded := by
    intro x hx
    rcases mem_append.mp hx with hx | hx
    · exact h.loaded x hx
    · rw [mem_singleton.mp hx]
      simp [Store.metadata, hjob]
  closed := by
    intro x hx
    rcases mem_append.mp hx with hx | hx
    · refine (h.closed x hx).imp (mem_cons_of_mem _) fun hclosed i hi hthere => ?_
      rw [map_append, mem_append]
      rcases hclosed i hi hthere with hmem | hlink
      · exact .inl (.inl hmem)
      · rcases mem_cons.mp hlink with rfl | hlink
        · exact .inl (.inr (by simp))
        · exact .inr hlink
    · exact .inl (by rw [mem_singleton.mp hx]; exact (.head _))

theorem Closing.follow {current : Ident U × Job U C}
    (h : Closing store closure (current :: frontier) []) :
    Closing store closure frontier (current.2.dependencyIds ++ current.2.dependentIds) where
  nonempty := h.nonempty
  loaded := h.loaded
  closed := by
    intro x hx
    rcases h.closed x hx with hmem | hclosed
    · rcases mem_cons.mp hmem with rfl | hmem
      · exact .inr fun i hi _ => .inr hi
      · exact .inl hmem
    · exact .inr fun i hi hthere => .inl ((hclosed i hi hthere).resolve_right not_mem_nil)

/-- **A closure has every member of the chain**, if nothing is being built: up the dependencies
from any member to the top, and down again. -/
theorem Closing.complete (hattached : Attached b (fun _ => False) store)
    (h : Closing store closure [] []) (hid : store.There id) : id ∈ closure.map Prod.fst := by
  have hclosed : ∀ x ∈ closure, ∀ i ∈ x.2.dependencyIds ++ x.2.dependentIds, store.There i →
      i ∈ closure.map Prod.fst := by
    intro x hx i hi hthere
    have hlinks := (h.closed x hx).resolve_left not_mem_nil
    exact (hlinks i hi hthere).resolve_right not_mem_nil
  have hroot : b.root ∈ closure.map Prod.fst := by
    obtain ⟨start, hstart⟩ := exists_mem_of_ne_nil closure h.nonempty
    induction hn : start.1.path.length using Nat.strong_induction_on generalizing start with
    | _ n ih =>
      have hfits := hattached start.1 _ (h.loaded start hstart)
      rcases hfits.parent with heq | ⟨parent, hparent, hthere, hdecl⟩
      · exact heq ▸ mem_map_of_mem hstart
      · obtain ⟨x, hx, rfl⟩ := mem_map.mp
          (hclosed start hstart parent (mem_append_left _ hparent) hthere)
        exact ih _ (hn ▸ hdecl.length) x hx rfl
  induction hn : id.path.length using Nat.strong_induction_on generalizing id with
  | _ n ih =>
    obtain ⟨m, hm⟩ := isSome_iff_exists.mp hid
    rcases (hattached id m hm).parent with heq | ⟨parent, -, hthere, hdecl⟩
    · rwa [heq]
    · obtain ⟨x, hx, rfl⟩ := mem_map.mp (ih _ (hn ▸ hdecl.length) hthere rfl)
      refine hclosed x hx id (mem_append_right _ ?_) hid
      have hlinked := (hattached x.1 _ (h.loaded x hx)).linked.resolve_right fun h => h
      rw [show x.2.dependentIds = b.dependentIds x.1 from hlinked]
      exact hdecl.mem

end Cancel

end IsardVDI
