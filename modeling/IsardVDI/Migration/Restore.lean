import IsardVDI.Migration.TreeRun

/-!
# Putting back what a failed tree had parked

A disk is parked when its move starts: the status of its storage row is recorded and the row goes to
`maintenance`, and the domains that are stopped are recorded and follow. `_terminalize_tree_failure`
restores the disk at hand from its row, and the other disks from the rows `_items` has. In a drive
these are the rows of an earlier pass, which do not know of what was parked since.
-/

namespace IsardVDI.Migration.Saga

open IsardVDI.Storage
open List Option
open State (mem_tree)

section Restore

variable {I D P : Type} {id : I} {e : Effect I D P} {effects rest : List (Effect I D P)}
  {origin status : Option StorageStatus} {old : StorageStatus} {change : Progress D → Progress D}
  {n : Nat} {x x' y it k : Item I D P} {tree : List (Item I D P)} {plan : List (Planned I P)}
  {s₀ s s' : State I D P} {action : Action} {damaged : Bool} {mode : Mode} {t : I} {env : Env I}
  {domainsOf : I → List D}

/-! ## Trees that go on -/

def Alive (tree : List (Item I D P)) : Prop := ∃ it ∈ tree, it.state.terminal = false

theorem Item.not_released (hopen : it.state.terminal = false) : it.state ≠ .released := by
  intro hreleased
  rw [hreleased] at hopen
  cases hopen

section

variable [DecidableEq P]

theorem Next.not_released {jobStatus : Option TaskId → Option JobStatus}
    (hnext : Next tree jobStatus (some x) action) : x.state ≠ .released := by
  rcases hnext.blocked_or_open with ⟨-, hfailed⟩ | hopen
  · rw [hfailed]
    exact nofun
  · exact Item.not_released hopen

theorem treeNext_alive {jobStatus : Option TaskId → Option JobStatus}
    (h : treeNext tree jobStatus = (some x, action)) : Alive tree := by
  have hnext := treeNext_next tree jobStatus
  rw [h] at hnext
  by_contra hover
  have hall : ∀ it ∈ tree, it.state.terminal := fun it hit => by
    by_contra hopen
    exact hover ⟨it, hit, eq_false_of_ne_true hopen⟩
  have hdone : (!(tree.insertionSort (·.topoIndex ≤ ·.topoIndex)).isEmpty
      && (tree.insertionSort (·.topoIndex ≤ ·.topoIndex)).all (·.state.terminal)) = true := by
    rw [Bool.and_eq_true, Bool.not_eq_true', isEmpty_eq_false_iff_exists_mem, List.all_eq_true]
    refine ⟨⟨x, (mem_insertionSort _).mpr hnext.mem⟩, fun it hit => ?_⟩
    exact hall it ((mem_insertionSort _).mp hit)
  unfold treeNext at h
  rw [if_pos hdone] at h
  cases h

end

/-! ## Statuses and domains -/

section

variable [DecidableEq D]

def Effect.onDomain (d : D) (state : DomainState) (e : Effect I D P) : DomainState :=
  match e with
  | .park other => if other = d then .maintenance else state
  | .unpark other => if other = d ∧ state = .maintenance then .stopped else state
  | .stop other => if other = d then .stopping else state
  | _ => state

def domainAfter (d : D) (effects : List (Effect I D P)) (state : DomainState) : DomainState :=
  effects.foldl (Effect.onDomain d) state

def Effect.Parks : Effect I D P → Prop
  | .park .. | .stop .. => True
  | _ => False

theorem domainAfter_eq_maintenance {d : D} {state : DomainState} (h : ∀ e ∈ effects, ¬ e.Parks) :
    domainAfter d effects state = .maintenance
      ↔ state = .maintenance ∧ .unpark d ∉ effects := by
  induction effects generalizing state with
  | nil => simp [domainAfter]
  | cons e effects ih =>
    have he := h e (.head _)
    show domainAfter d effects (e.onDomain d state) = .maintenance ↔ _
    rw [ih fun e' he' => h e' (.tail _ he')]
    cases e with
    | park | stop => exact absurd trivial he
    | unpark other =>
      by_cases hd : other = d
      · subst hd
        by_cases hstate : state = .maintenance <;> simp [Effect.onDomain, hstate]
      · simp [Effect.onDomain, hd, Ne.symm hd]
    | _ => simp [Effect.onDomain]

end

variable [DecidableEq I]

def Effect.onStatus (id : I) (status : Option StorageStatus) (e : Effect I D P) :
    Option StorageStatus :=
  match e with
  | .status other new => if other = id then status.map fun _ => new else status
  | _ => status

def statusAfter (id : I) (effects : List (Effect I D P)) (status : Option StorageStatus) :
    Option StorageStatus :=
  effects.foldl (Effect.onStatus id) status

theorem statusAfter_append (id : I) (first second : List (Effect I D P))
    (status : Option StorageStatus) :
    statusAfter id (first ++ second) status = statusAfter id second (statusAfter id first status) :=
  foldl_append

theorem isSome_statusAfter (id : I) (effects : List (Effect I D P)) (status : Option StorageStatus)
    : (statusAfter id effects status).isSome = status.isSome := by
  refine foldlRecOn (motive := (Option.isSome · = status.isSome)) effects _ rfl ?_
  intro now hnow e _
  rw [← hnow]
  cases e with
  | status other new =>
    simp only [Effect.onStatus]
    split_ifs <;> simp
  | _ => rfl

theorem map_statusAfter (id : I) (effects : List (Effect I D P)) (status : Option StorageStatus)
    (new : StorageStatus) :
    ((statusAfter id effects status).map fun _ => new) = status.map fun _ => new := by
  have hsome := isSome_statusAfter id effects status
  cases hs : statusAfter id effects status <;> cases status <;> simp_all

theorem statusAfter_of_same {status : Option StorageStatus}
    (h : ∀ new, .status id new ∈ effects → (status.map fun _ => new) = status) :
    statusAfter id effects status = status := by
  refine foldlRecOn (motive := (· = status)) effects _ rfl fun now hnow e he => ?_
  rw [hnow]
  cases e with
  | status other new =>
    simp only [Effect.onStatus]
    split_ifs with hid
    · exact h new (hid ▸ he)
    · rfl
  | _ => rfl

theorem statusAfter_of_not_mem {status : Option StorageStatus} (h : ∀ new, .status id new ∉ effects)
    : statusAfter id effects status = status :=
  statusAfter_of_same fun new hnew => absurd hnew (h new)

theorem statusAfter_of_mem {origin status : Option StorageStatus}
    (hsome : status.isSome = origin.isSome)
    (hback : ∀ new, .status id new ∈ effects → origin = some new)
    (hmem : ∃ new, .status id new ∈ effects) : statusAfter id effects status = origin := by
  obtain ⟨new, hnew⟩ := hmem
  obtain ⟨first, rest, rfl⟩ := append_of_mem hnew
  have heq := hback new hnew
  have hwritten : (Effect.status (D := D) (P := P) id new).onStatus id (statusAfter id first status)
      = origin := by
    have hisSome : (statusAfter id first status).isSome := by
      rw [isSome_statusAfter, hsome, heq]
      rfl
    obtain ⟨old, hold⟩ := isSome_iff_exists.mp hisSome
    simp [Effect.onStatus, hold, heq]
  rw [statusAfter_append]
  show statusAfter id rest ((Effect.status (D := D) (P := P) id new).onStatus id _) = origin
  rw [hwritten]
  -- once it is back it stays
  refine statusAfter_of_same fun new' hnew' => ?_
  rw [hback new' (mem_append_right _ (.tail _ hnew'))]
  rfl

/-! ## The record of a disk

The status a disk had is written to its row before the storage row is, and taken out of it after
the storage row is back. So the record is good between any two effects of a handler. -/

/-- What is recorded is what the disk had, and a disk without a record has it. -/
def RowOk (origin : Option StorageStatus) (y : Item I D P) (status : Option StorageStatus) : Prop :=
  (∀ old, y.storageOrigStatus = some old → origin = some old)
    ∧ (y.storageOrigStatus = none → status = origin)

/-- The record is good at every point of a list of effects, up to where a tree is given up. -/
def Safe (origin : Option StorageStatus) :
    List (Effect I D P) → Item I D P → Option StorageStatus → Prop
  | [], y, status => RowOk origin y status
  | .load :: _, y, status => RowOk origin y status
  | e :: effects, y, status =>
    RowOk origin y status ∧ Safe origin effects (e.onItem y) (e.onStatus y.storageId status)

omit [DecidableEq I] in
theorem RowOk.of_eq {y' : Item I D P} (h : RowOk origin y status)
    (heq : y'.storageOrigStatus = y.storageOrigStatus) : RowOk origin y' status := by
  unfold RowOk
  rw [heq]
  exact h

theorem Safe.row (h : Safe origin effects y status) : RowOk origin y status := by
  cases effects with
  | nil => exact h
  | cons e effects =>
    cases e with
    | load => exact h
    | _ => exact h.1

theorem Safe.take (h : Safe origin effects y status) (hload : .load ∉ effects.take n) :
    RowOk origin (after (effects.take n) y) (statusAfter y.storageId (effects.take n) status) := by
  induction effects generalizing y status n with
  | nil =>
    rw [take_nil]
    exact h.row
  | cons e effects ih =>
    cases n with
    | zero => exact h.row
    | succ n =>
      have hrest : Safe origin effects (e.onItem y) (e.onStatus y.storageId status) := by
        cases e with
        | load => exact absurd (.head _) hload
        | _ => exact h.2
      have hok := ih hrest fun hmem => hload (.tail _ hmem)
      rw [toPlanned_onItem] at hok
      exact hok

def Effect.Plain : Effect I D P → Prop
  | .set _ change => ∀ p, (change p).storageOrigStatus = p.storageOrigStatus
  | .status .. | .settle .. | .load => False
  | _ => True

theorem Effect.Plain.onItem (h : e.Plain) (y : Item I D P) :
    (e.onItem y).storageOrigStatus = y.storageOrigStatus := by
  cases e with
  | set id change =>
    simp only [onItem]
    split_ifs
    · exact h y.toProgress
    · rfl
  | settle => cases h
  | _ => rfl

theorem orig_after_plain (h : ∀ e ∈ effects, e.Plain) (y : Item I D P) :
    (after effects y).storageOrigStatus = y.storageOrigStatus :=
  after_keeps (·.storageOrigStatus) (fun e he => (h e he).onItem) y

theorem safe_cons (he : e.Plain) (h : Safe origin effects (e.onItem y) status) :
    Safe origin (e :: effects) y status := by
  have hrow : RowOk origin y status := h.row.of_eq (he.onItem y).symm
  cases e with
  | load | status | settle => cases he
  | _ => exact ⟨hrow, h⟩

def Alike (y y' : Item I D P) : Prop :=
  y'.toPlanned = y.toPlanned ∧ y'.storageOrigStatus = y.storageOrigStatus

theorem safe_append {first : List (Effect I D P)} (hfirst : ∀ e ∈ first, e.Plain)
    (h : ∀ y', Alike y y' → Safe origin rest y' status) : Safe origin (first ++ rest) y status := by
  induction first generalizing y with
  | nil => exact h y ⟨rfl, rfl⟩
  | cons e first ih =>
    have he := hfirst e (.head _)
    have hrest := fun e' he' => hfirst e' (.tail _ he')
    refine safe_cons he (ih hrest fun y' halike => ?_)
    exact h y' ⟨halike.1.trans (toPlanned_onItem e y), halike.2.trans (he.onItem y)⟩

theorem safe_set (hchange : ∀ p, (change p).storageOrigStatus = p.storageOrigStatus)
    (h : ∀ y', Alike y y' → Safe origin rest y' status) :
    Safe origin (.set id change :: rest) y status := by
  have hplain : ∀ e ∈ [Effect.set (P := P) id change], e.Plain :=
    forall_mem_singleton.mpr hchange
  exact safe_append hplain h

theorem safe_of_plain (h : ∀ e ∈ effects, e.Plain) (hrow : RowOk origin y status) :
    Safe origin effects y status := by
  rw [← append_nil effects]
  exact safe_append h fun y' halike => hrow.of_eq halike.2

theorem safe_of_recorded (hrecord : y.storageOrigStatus = some old) (horigin : origin = some old)
    (h : ∀ e ∈ effects, e.Plain ∨ ∃ id new, e = .status id new) : Safe origin effects y status := by
  have hrow : ∀ {y' : Item I D P} {status' : Option StorageStatus},
      y'.storageOrigStatus = some old → RowOk origin y' status' := by
    intro y' status' hrecord
    refine ⟨fun old' hold => ?_, fun hnone => ?_⟩
    · rw [horigin, ← hrecord, hold]
    · cases hrecord.symm.trans hnone
  induction effects generalizing y status with
  | nil => exact hrow hrecord
  | cons e effects ih =>
    have hrest := fun e' he' => h e' (.tail _ he')
    rcases h e (.head _) with he | ⟨id, new, rfl⟩
    · exact safe_cons he (ih ((he.onItem y).trans hrecord) hrest)
    · exact ⟨hrow hrecord, ih hrecord hrest⟩

theorem safe_restore {x : Item I D P} (hsome : status.isSome = origin.isSome) (halike : Alike y x)
    (hrow : RowOk origin y status) (h : ∀ y', Alike y y' → Safe origin rest y' origin) :
    Safe origin (Call.restoreStorageStatus x ++ rest) y status := by
  unfold Call.restoreStorageStatus
  rw [append_assoc]
  refine safe_append (fun e he => ?_) fun y' halike' => ?_
  · obtain ⟨d, -, rfl⟩ := mem_map.mp he
    trivial
  · rw [halike.2]
    have hrow' : RowOk origin y' status := hrow.of_eq halike'.2
    cases hrecord : y.storageOrigStatus with
    | none =>
      rw [hrow.2 hrecord]
      exact h y' halike'
    | some old =>
      have horigin := hrow.1 old hrecord
      have hid : x.storageId = y'.storageId := by rw [halike.1, halike'.1]
      have hback : (Effect.status (D := D) (P := P) x.storageId old).onStatus y'.storageId status
          = origin := by
        rw [horigin] at hsome
        obtain ⟨now, hnow⟩ := isSome_iff_exists.mp hsome
        simp [Effect.onStatus, hid, hnow, horigin]
      refine ⟨hrow', ?_⟩
      rw [hback]
      exact h y' halike'

theorem Call.restore_safe (hsome : status.isSome = origin.isSome) (hrow : RowOk origin x status)
    (hrest : ∀ e ∈ rest, e.Plain) (hchange : ∀ p, (change p).storageOrigStatus = p.storageOrigStatus
      ∨ (change p).storageOrigStatus = none) :
    Safe origin (restoreStorageStatus x ++ (rest ++ [.set x.storageId change])) x status := by
  refine safe_restore hsome ⟨rfl, rfl⟩ hrow fun y' halike => ?_
  refine safe_append hrest fun y'' halike' => ?_
  have hback : RowOk origin y'' origin :=
    ⟨fun old hold => hrow.1 old (by rw [← halike.2, ← halike'.2]; exact hold), fun _ => rfl⟩
  refine ⟨hback, fun old hold => ?_, fun _ => rfl⟩
  have hid : y''.storageId = x.storageId := by rw [halike'.1, halike.1]
  simp only [Effect.onItem, if_pos hid] at hold
  rcases hchange y''.toProgress with heq | heq
  · exact hback.1 old (heq.symm.trans hold)
  · cases heq.symm.trans hold

/-! ## The records of a ledger -/

/-- What is recorded in the rows that are kept is what the disks had. -/
def KeptOk (s₀ : State I D P) (snapshot : Option (List (Item I D P))) : Prop :=
  ∀ kept, snapshot = some kept → ∀ k ∈ kept, k.state.terminal = false →
    ∀ old, k.storageOrigStatus = some old → s₀.status k.storageId = some old

/-- The records are good. `s₀` is where the run began: nobody else writes the storage rows. -/
structure Records (s₀ s : State I D P) : Prop where
  present : ∀ id, (s.status id).isSome = (s₀.status id).isSome
  row : ∀ t, Alive (s.tree t) → ∀ it ∈ s.tree t, it.state ≠ .released →
    RowOk (s₀.status it.storageId) it (s.status it.storageId)
  single : ∀ t, Alive (s.tree t) → ∀ f ∈ s.tree t, f.state.lost →
    f.state = .failed ∧ ∀ it ∈ s.tree t, it.state.lost → it = f
  kept : KeptOk s₀ s.snapshot

theorem Alive.of_map (hstate : ∀ it ∈ tree, (after effects it).state = it.state)
    (h : Alive (tree.map (after effects))) : Alive tree := by
  obtain ⟨it', hit', hopen⟩ := h
  obtain ⟨it, hit, rfl⟩ := mem_map.mp hit'
  exact ⟨it, hit, hstate it hit ▸ hopen⟩

/-- The effects leave the state, the record and the status of a disk. -/
def Apart (effects : List (Effect I D P)) (it : Item I D P) : Prop :=
  (after effects it).state = it.state
    ∧ (after effects it).storageOrigStatus = it.storageOrigStatus
    ∧ ∀ new, .status it.storageId new ∉ effects

theorem out_of_within (hinv : Inv plan ∅ s) (hlaid : Laid plan)
    (hwithin : ∀ e ∈ effects, e.Within ((s.tree t).map (·.storageId))) :
    ∀ it ∈ s.items, it.treeId ≠ t → Apart effects it := by
  intro it hit hne
  have hsame := after_of_within hinv hlaid hwithin hit hne
  refine ⟨by rw [hsame], by rw [hsame], fun new hnew => ?_⟩
  obtain ⟨other, hother, hid⟩ := mem_map.mp (hwithin _ hnew)
  obtain ⟨hmem, htree⟩ := mem_tree.mp hother
  rw [hinv.eq hlaid hmem hit hid] at htree
  exact hne htree

theorem not_alive_of_terminal (h : ∀ it ∈ s.tree t, (after effects it).state.terminal) :
    ¬ Alive ((s.tree t).map (after effects)) := by
  rintro ⟨it', hit', hopen⟩
  obtain ⟨it, hit, rfl⟩ := mem_map.mp hit'
  rw [h it hit] at hopen
  cases hopen

theorem State.Start.records (h : s.Start) (hsettled : s.Settled)
    (hclean : ∀ it ∈ s.items, it.state.terminal = false → it.storageOrigStatus = none) :
    Records s s := by
  -- in a tree that is not over no disk is lost
  have hlost : ∀ t, Alive (s.tree t) → ∀ it ∈ s.tree t, it.state.lost = false := by
    rintro t ⟨other, hother, hopen⟩ it hit
    by_contra hlost
    obtain ⟨hmem, htree⟩ := mem_tree.mp hit
    obtain ⟨hother, hotree⟩ := mem_tree.mp hother
    have hended := hsettled it hmem (eq_true_of_ne_false hlost) other hother
    cases (hended (hotree.trans htree.symm)).symm.trans hopen
  refine ⟨fun _ => rfl, fun t halive it hit hreleased => ?_, fun t halive f hf hf' => ?_, ?_⟩
  · have hnone : it.storageOrigStatus = none := by
      refine hclean it (mem_tree.mp hit).1 ?_
      have hstate := hlost t halive it hit
      cases hs : it.state <;> simp_all [ItemState.lost, ItemState.terminal]
    refine ⟨fun old hold => ?_, fun _ => rfl⟩
    cases hnone.symm.trans hold
  · rw [hlost t halive f hf] at hf'
    cases hf'
  · intro kept hkept
    rw [h.snapshot] at hkept
    cases hkept

theorem Records.orig_of_open (h : Records s₀ s) (hit : it ∈ s.items)
    (hopen : it.state.terminal = false) (hold : it.storageOrigStatus = some old) :
    s₀.status it.storageId = some old := by
  have hin : it ∈ s.tree it.treeId := mem_tree.mpr ⟨hit, rfl⟩
  exact (h.row it.treeId ⟨it, hin, hopen⟩ it hin (Item.not_released hopen)).1 old hold

theorem State.mem_rows (hid : x'.storageId = x.storageId) (hk : k ∈ s.rows mode t x) :
    k ∈ s.rows mode t x' ∨ k = x := by
  unfold rows at hk ⊢
  split at hk
  · exact .inl hk
  · obtain ⟨it, hit, rfl⟩ := mem_map.mp hk
    split_ifs with heq
    · exact .inr rfl
    · refine .inl (mem_map.mpr ⟨it, hit, if_neg ?_⟩)
      rw [hid]
      exact heq

/-- The rows of the other disks are the same before and after the disk at hand is prepared. -/
theorem State.exists_rows_iff {p : Item I D P → Prop} {q : Prop} (hid : x'.storageId = x.storageId)
    (hx : p x → q) (hx' : p x' → q) :
    (q ∨ ∃ k ∈ s.rows mode t x', p k) ↔ q ∨ ∃ k ∈ s.rows mode t x, p k := by
  have himp : ∀ {a b : Item I D P}, b.storageId = a.storageId → (p a → q) →
      (q ∨ ∃ k ∈ s.rows mode t a, p k) → q ∨ ∃ k ∈ s.rows mode t b, p k := by
    rintro a b hid ha (hq | ⟨k, hk, hp⟩)
    · exact .inl hq
    · rcases mem_rows hid hk with hk | rfl
      · exact .inr ⟨k, hk, hp⟩
      · exact .inl (ha hp)
  exact ⟨himp hid.symm hx', himp hid hx⟩

theorem Records.rows (h : Records s₀ s) (hk : k ∈ s.rows mode t x) (hne : k ≠ x)
    (hopen : k.state.terminal = false) (hold : k.storageOrigStatus = some old) :
    s₀.status k.storageId = some old := by
  unfold State.rows at hk
  split at hk
  · rename_i kept hkept
    exact h.kept kept hkept k (mem_filter.mp hk).1 hopen old hold
  · obtain ⟨it, hit, rfl⟩ := mem_map.mp hk
    split_ifs at hne hopen hold ⊢
    · exact absurd rfl hne
    · exact h.orig_of_open (mem_tree.mp hit).1 hopen hold

section Step

variable (h : Records s₀ s) {jobStatus : Nat → Option JobStatus}
  (hinv : Inv plan ∅ s) (hlaid : Laid plan)

/-! ## What effects do to the records -/

section

variable [DecidableEq D]

theorem State.status_perform (s : State I D P) (effects : List (Effect I D P)) (id : I) :
    (s.perform effects).status id = statusAfter id effects (s.status id) := by
  refine (foldl_hom (fun s : State I D P => s.status id) fun s e => ?_).symm
  cases e with
  | status other new =>
    by_cases hid : other = id
    · subst hid
      simp [apply, Effect.onStatus]
    · simp [apply, Effect.onStatus, hid, Ne.symm hid]
  | _ => rfl

theorem State.domains_perform (s : State I D P) (effects : List (Effect I D P)) (d : D) :
    (s.perform effects).domains d = domainAfter d effects (s.domains d) := by
  refine (foldl_hom (fun s : State I D P => s.domains d) fun s e => ?_).symm
  cases e with
  | park other | stop other =>
    by_cases hd : other = d
    · subst hd
      simp [apply, Effect.onDomain]
    · simp [apply, Effect.onDomain, hd, Ne.symm hd]
  | unpark other =>
    by_cases hd : other = d
    · simp only [apply, Effect.onDomain]
      split_ifs <;> simp_all
    · simp only [apply, Effect.onDomain]
      split_ifs <;> simp_all [Ne.symm hd]
  | _ => rfl

theorem kept_perform (ok : Item I D P → Prop)
    (hended : ∀ k : Item I D P, ∀ state : ItemState, state.givenUp → ok (k.ended state))
    (hset : ∀ e ∈ effects, e.Abandons) (hitems : ∀ it ∈ s.items, ok it)
    (hkept : ∀ kept, s.snapshot = some kept → ∀ k ∈ kept, ok k) :
    ∀ kept, (s.perform effects).snapshot = some kept → ∀ k ∈ kept, ok k := by
  induction effects generalizing s with
  | nil => exact hkept
  | cons e effects ih =>
    have he := hset e (.head _)
    have hrest := fun e' he' => hset e' (.tail _ he')
    cases e with
    | set | repoint => cases he
    | settle id state =>
      have hmap : ∀ rows : List (Item I D P), (∀ k ∈ rows, ok k) →
          ∀ k ∈ rows.map (Effect.settle id state).onItem, ok k := by
        intro rows hrows k' hk'
        obtain ⟨k, hk, rfl⟩ := mem_map.mp hk'
        simp only [Effect.onItem]
        split_ifs
        · exact hended k state he
        · exact hrows k hk
      refine ih (s := s.apply (.settle id state)) hrest (hmap _ hitems) fun kept heq => ?_
      obtain ⟨kept', hkept', rfl⟩ := map_eq_some_iff.mp heq
      exact hmap _ (hkept kept' hkept')
    | load =>
      refine ih (s := s.apply .load) hrest hitems fun kept heq => ?_
      cases heq
      cases hs : s.snapshot with
      | none => exact hitems
      | some kept => exact hkept kept hs
    | _ => exact ih (s := s.apply _) hrest hitems hkept

include h

/-- The records of a tree matter only as long as it goes on. -/
theorem Records.of_tree (hout : ∀ it ∈ s.items, it.treeId ≠ t → Apart effects it)
    (hrow : Alive ((s.tree t).map (after effects)) → ∀ it ∈ s.tree t,
      (after effects it).state ≠ .released → RowOk (s₀.status it.storageId) (after effects it)
        (statusAfter it.storageId effects (s.status it.storageId)))
    (hsingle : Alive ((s.tree t).map (after effects)) → ∀ f ∈ s.tree t,
      (after effects f).state.lost → (after effects f).state = .failed
        ∧ ∀ it ∈ s.tree t, (after effects it).state.lost → it = f)
    (hkept : KeptOk s₀ (s.perform effects).snapshot) :
    Records s₀ (s.close (s.perform effects) mode jobStatus) := by
  set s' := s.close (s.perform effects) mode jobStatus with hs'
  have hitems : s'.items = s.items.map (after effects) := s.items_perform effects
  have htree : ∀ t', s'.tree t' = (s.tree t').map (after effects) :=
    State.tree_map hitems (toPlanned_after effects)
  have hstatus : ∀ id, s'.status id = statusAfter id effects (s.status id) :=
    s.status_perform effects
  -- another tree is as it was
  have hother : ∀ t', t' ≠ t → ∀ it ∈ s.tree t', Apart effects it := by
    intro t' hne it hit
    obtain ⟨hmem, heq⟩ := mem_tree.mp hit
    exact hout it hmem fun h => hne (heq.symm.trans h)
  have halive : ∀ t', t' ≠ t → Alive ((s.tree t').map (after effects)) → Alive (s.tree t') :=
    fun t' hne => .of_map fun it hit => (hother t' hne it hit).1
  have hrows : ∀ t', Alive (s'.tree t') → ∀ it ∈ s'.tree t', it.state ≠ .released →
      RowOk (s₀.status it.storageId) it (s'.status it.storageId) := by
    intro t' hal it' hit' hreleased
    rw [htree] at hal hit'
    obtain ⟨it, hit, rfl⟩ := mem_map.mp hit'
    rw [hstatus, toPlanned_after]
    by_cases hne : t' = t
    · subst hne
      exact hrow hal it hit hreleased
    · obtain ⟨hstate, horig, hnone⟩ := hother t' hne it hit
      rw [statusAfter_of_not_mem hnone]
      exact (h.row t' (halive t' hne hal) it hit (hstate ▸ hreleased)).of_eq horig
  refine ⟨fun id => ?_, hrows, ?_, ?_⟩
  · rw [hstatus, isSome_statusAfter]
    exact h.present id
  · intro t' hal f' hf' hlost
    rw [htree] at hal hf' ⊢
    obtain ⟨f, hf, rfl⟩ := mem_map.mp hf'
    by_cases hne : t' = t
    · subst hne
      obtain ⟨hfailed, hall⟩ := hsingle hal f hf hlost
      refine ⟨hfailed, forall_mem_map.mpr fun it hit hit' => ?_⟩
      rw [hall it hit hit']
    · obtain ⟨hstate, -⟩ := hother t' hne f hf
      rw [hstate] at hlost ⊢
      obtain ⟨hfailed, hall⟩ := h.single t' (halive t' hne hal) f hf hlost
      refine ⟨hfailed, forall_mem_map.mpr fun it hit hit' => ?_⟩
      rw [(hother t' hne it hit).1] at hit'
      rw [hall it hit hit']
  · cases mode with
    | drive => exact hkept
    | tick =>
      -- what is kept is the ledger, and a disk that is not ended is in a tree that is not over
      intro kept heq k hk hopen old hold
      cases heq
      have hin : k ∈ s'.tree k.treeId := mem_tree.mpr ⟨hk, rfl⟩
      exact (hrows k.treeId ⟨k, hin, hopen⟩ k hin (Item.not_released hopen)).1 old hold

theorem Records.idle (t : I) (hwaits : ∀ e ∈ effects, e.Waits) :
    Records s₀ (s.close (s.perform effects) mode jobStatus) := by
  have hnone : ∀ id new, .status id new ∉ effects := fun id new hnew => hwaits _ hnew
  have hstate : ∀ it : Item I D P, (after effects it).state = it.state := fun it =>
    congrArg Core.state (core_after_waits hwaits it)
  have horig : ∀ it : Item I D P,
      (after effects it).storageOrigStatus = it.storageOrigStatus := by
    refine orig_after_plain fun e he => ?_
    have hwait := hwaits e he
    cases e with
    | set =>
      obtain ⟨attempts, rfl⟩ := hwait
      exact fun _ => rfl
    | stop => trivial
    | _ => cases hwait
  have halive : Alive ((s.tree t).map (after effects)) → Alive (s.tree t) :=
    .of_map fun it _ => hstate it
  refine h.of_tree (t := t) ?_ ?_ ?_ ?_
  · exact fun it _ _ => ⟨hstate it, horig it, hnone _⟩
  · intro hal it hit hreleased
    rw [statusAfter_of_not_mem (hnone _)]
    exact (h.row t (halive hal) it hit (hstate it ▸ hreleased)).of_eq (horig it)
  · intro hal f hf hlost
    rw [hstate] at hlost ⊢
    obtain ⟨hfailed, hall⟩ := h.single t (halive hal) f hf hlost
    exact ⟨hfailed, fun it hit hit' => hall it hit (hstate it ▸ hit')⟩
  · rw [s.snapshot_perform_quiet fun e he => (hwaits e he).quiet]
    exact h.kept

include hinv hlaid

theorem Records.over (hwithin : ∀ e ∈ effects, e.Within ((s.tree t).map (·.storageId)))
    (hterminal : ∀ it ∈ s.tree t, (after effects it).state.terminal)
    (hkept : KeptOk s₀ (s.perform effects).snapshot) :
    Records s₀ (s.close (s.perform effects) mode jobStatus) := by
  have hover := not_alive_of_terminal hterminal
  exact h.of_tree (out_of_within hinv hlaid hwithin) (fun hal => absurd hal hover)
    (fun hal => absurd hal hover) hkept

theorem Records.skipped (hskips : ∀ e ∈ effects, e.Skips)
    (hwithin : ∀ e ∈ effects, e.Within ((s.tree t).map (·.storageId)))
    (hall : ∀ it ∈ s.tree t, ∃ e ∈ effects, e.Stops it.storageId) :
    Records s₀ (s.close (s.perform effects) mode jobStatus) := by
  refine h.over hinv hlaid hwithin (fun it hit => ?_) ?_
  · obtain ⟨e, he, hstops⟩ := hall it hit
    exact ItemState.terminal_of_givenUp
      (givenUp_of_stops (fun e he => (hskips e he).spares _) he hstops)
  · rw [s.snapshot_perform_quiet fun e he => (hskips e he).quiet]
    exact h.kept

end

/-! ## What the handlers do to them -/

variable [DecidableEq P]

namespace Call

variable (c : Call I D P)

theorem terminalize_safe (hrow : RowOk origin y status) (damaged : Bool) :
    Safe origin (c.terminalizeTreeFailure x damaged) y status := hrow

variable {observed : Option TaskId}

theorem resume_safe (hrow : RowOk origin y status)
    (h : ∀ y', Alike y y' → Safe origin rest y' status) :
    Safe origin (c.resume x observed rest) y status := by
  unfold resume
  split
  · refine safe_set (fun _ => rfl) fun y' halike => ?_
    split_ifs
    · exact c.terminalize_safe (hrow.of_eq halike.2) _
    · exact h y' halike
  · exact h y ⟨rfl, rfl⟩

theorem fail_safe (hsome : status.isSome = origin.isSome) (halike : Alike y x)
    (hrow : RowOk origin y status) : Safe origin (c.fail x) y status := by
  unfold fail
  split_ifs
  · refine safe_restore hsome halike hrow fun y' halike' => ?_
    -- the storage row is back, and the record is taken out
    refine ⟨⟨fun old hold => hrow.1 old (halike'.2 ▸ hold), fun _ => rfl⟩, ?_⟩
    have hid : y'.storageId = x.storageId := by rw [halike.1, halike'.1]
    refine ⟨fun old hold => ?_, fun _ => rfl⟩
    simp only [Effect.onItem, if_pos hid] at hold
    cases hold
  · exact safe_set (fun _ => rfl) fun y' halike' => c.terminalize_safe (hrow.of_eq halike'.2) _
  · exact safe_of_plain
      (forall_mem_cons.mpr ⟨trivial, forall_mem_singleton.mpr fun _ => rfl⟩) hrow
  · exact c.terminalize_safe hrow _
  · exact c.terminalize_safe hrow _

/-- The status is recorded before it is changed. -/
theorem launchMove_safe (hsome : status.isSome = origin.isSome) (halike : Alike y x)
    (hrow : RowOk origin y status) (hstatus : c.status x.storageId = status) :
    Safe origin (c.launchMove x) y status := by
  have hpark : ∀ {item : Item I D P}, ∀ e ∈ c.parkDomains item, e.Plain := by
    intro item e he
    unfold parkDomains at he
    split at he
    · cases he
    · rcases mem_cons.mp he with rfl | he
      · exact fun _ => rfl
      · obtain ⟨d, -, rfl⟩ := mem_map.mp he
        trivial
  -- what comes after the record
  have hrest : ∀ {item : Item I D P} (e : Effect I D P),
      e ∈ [Effect.status item.storageId .maintenance] ++ c.parkDomains item
        ++ (if c.env.drainable .move item.storageId then
          [.place (.move item.storageId item.srcPath item.dstPath),
            .set item.storageId fun p =>
              { p with state := .moving, moveTaskId := some (.job c.nextJob) }]
          else []) → e.Plain ∨ ∃ id new, e = .status id new := by
    intro item e he
    simp only [append_assoc, mem_append, mem_singleton] at he
    rcases he with rfl | he | he
    · exact .inr ⟨_, _, rfl⟩
    · exact .inl (hpark e he)
    · split_ifs at he
      · rcases List.mem_pair.mp he with rfl | rfl
        · exact .inl trivial
        · exact .inl fun _ => rfl
      · cases he
  unfold launchMove
  split
  · exact c.fail_safe hsome halike hrow
  · rename_i recorded item hrecord
    unfold recordStatus at hrecord
    split at hrecord <;> simp only [Option.some.injEq, Prod.mk.injEq, reduceCtorEq] at hrecord
    · rename_i old hold
      obtain ⟨rfl, rfl⟩ := hrecord
      have hold' : y.storageOrigStatus = some old := halike.2 ▸ hold
      exact safe_of_recorded hold' (hrow.1 old hold') hrest
    · rename_i current hmaintenance hnone hcurrent
      obtain ⟨rfl, rfl⟩ := hrecord
      have hnone' : y.storageOrigStatus = none := halike.2 ▸ hnone
      have horigin : origin = some current := by
        rw [← hrow.2 hnone', ← hstatus]
        exact hcurrent
      have hid : y.storageId = x.storageId := by rw [halike.1]
      refine ⟨hrow, safe_of_recorded ?_ horigin hrest⟩
      show ((Effect.set x.storageId _).onItem y).storageOrigStatus = _
      simp only [Effect.onItem, if_pos hid]
      rfl

theorem startMove_safe (hsome : (c.status x.storageId).isSome = origin.isSome)
    (hrow : RowOk origin x (c.status x.storageId)) :
    Safe origin (c.startMove x) x (c.status x.storageId) := by
  unfold startMove
  split
  · split_ifs
    · exact safe_set (fun _ => rfl) fun y' halike =>
        c.launchMove_safe hsome ⟨halike.1.symm, halike.2.symm⟩ (hrow.of_eq halike.2) rfl
    · exact hrow
  · split_ifs
    · refine safe_set (fun _ => rfl) fun y' halike => ?_
      refine c.resume_safe (hrow.of_eq halike.2) fun y'' halike' => ?_
      exact c.launchMove_safe hsome
        ⟨(halike'.1.trans halike.1).symm, (halike'.2.trans halike.2).symm⟩
        (hrow.of_eq (halike'.2.trans halike.2)) rfl
    · exact hrow

theorem placing_safe {change' : Progress D → Progress D} {job : Job I P}
    (hchange : ∀ p, (change p).storageOrigStatus = p.storageOrigStatus)
    (hchange' : ∀ p, (change' p).storageOrigStatus = p.storageOrigStatus)
    (hrow : RowOk origin x status) :
    Safe origin (.set x.storageId change ::
      c.resume x observed [.place job, .set x.storageId change']) x status := by
  refine safe_set hchange fun y' halike => ?_
  refine c.resume_safe (hrow.of_eq halike.2) fun y'' halike' => safe_of_plain ?_ ?_
  · exact forall_mem_cons.mpr ⟨trivial, forall_mem_singleton.mpr hchange'⟩
  · exact hrow.of_eq (halike'.2.trans halike.2)

/-- **The record is good at every point of a handler.** -/
theorem handler_safe {action : Action} (h : c.handler x action = some effects)
    (hsome : (c.status x.storageId).isSome = origin.isSome)
    (hrow : RowOk origin x (c.status x.storageId)) :
    Safe origin effects x (c.status x.storageId) := by
  have hset : ∀ {change : Progress D → Progress D},
      (∀ p, (change p).storageOrigStatus = p.storageOrigStatus) →
      Safe origin [.set x.storageId change] x (c.status x.storageId) :=
    fun hchange => safe_set hchange fun y' halike => hrow.of_eq halike.2
  have hnone : ∀ e ∈ ([] : List (Effect I D P)), e.Plain :=
    nofun
  cases action <;> simp only [handler, Option.some.injEq, reduceCtorEq] at h <;> subst h
  case startPreflight | startRebase | startVerify =>
    simp only [startPreflight, startRebase, startVerify]
    split_ifs
    · exact hrow
    · exact c.placing_safe (fun _ => rfl) (fun _ => rfl) hrow
  case destinationExists | repairFailed | blocked => exact c.terminalize_safe hrow _
  case reconcilePending =>
    unfold reconcilePending
    split
    · exact hset fun _ => rfl
    split
    · exact hset fun _ => rfl
    split
    · exact hset fun _ => rfl
    · exact restore_safe hsome hrow hnone fun _ => .inr rfl
  case startMove => exact c.startMove_safe hsome hrow
  case skipMove | markMoved | markRebased | skipRebase | markVerified | markRepaired =>
    exact hset fun _ => rfl
  case dbUpdate => exact safe_cons trivial (hset fun _ => rfl)
  case release =>
    unfold release
    rw [append_assoc]
    refine restore_safe hsome hrow (fun e he => ?_) fun _ => .inl rfl
    split_ifs at he
    · rw [mem_singleton.mp he]
      trivial
    · cases he
  case skipRelease =>
    refine safe_set (fun _ => rfl) fun y' halike => ?_
    rw [← append_nil (restoreStorageStatus x)]
    refine safe_restore hsome ⟨halike.1.symm, halike.2.symm⟩ (hrow.of_eq halike.2) ?_
    intro y'' halike'
    exact ⟨fun old hold => hrow.1 old (by rw [← halike.2, ← halike'.2]; exact hold), fun _ => rfl⟩
  case fail => exact c.fail_safe hsome ⟨rfl, rfl⟩ hrow

end Call

theorem own_of_take {c : Call I D P} (h : Ends c x damaged effects ∨ Takes c x action effects)
    (hload : .load ∉ effects.take n) : ∀ e ∈ effects.take n, e.Own x action := by
  intro e he
  rcases h with ⟨first, x', -, rfl, hfirst⟩ | ⟨hown, -⟩
  · have hin : e ∈ first := by
      rw [take_append] at he hload
      rcases mem_append.mp he with he | he
      · exact mem_of_mem_take he
      · -- giving up begins with a look at the rows
        exfalso
        refine hload (mem_append_right _ ?_)
        cases hn : n - first.length with
        | zero =>
          rw [hn] at he
          cases he
        | succ m => exact .head _
    exact (hfirst e hin).own action
  · exact hown e (mem_of_mem_take he)

/-! ## One step -/

variable [DecidableEq D]

/-- Nobody else writes, and a step that gives a tree up does not raise. -/
def Calm (s : State I D P) : Event I D P → Prop
  | .step mode t env domainsOf =>
    env.raises.isSome → .load ∉ (s.call mode t env domainsOf).stepTree
  | .outside .. => False
  | _ => True

include h hinv hlaid

theorem Records.own (hx : x ∈ s.tree t) (hown : ∀ e ∈ effects, e.Own x action)
    (halive : Alive ((s.tree t).map (after effects)) → Alive (s.tree t))
    (hrow : Alive (s.tree t) → RowOk (s₀.status x.storageId) (after effects x)
      (statusAfter x.storageId effects (s.status x.storageId)))
    (hsingle : Alive (s.tree t) → ∀ it ∈ s.tree t, it.state.lost → it = x)
    (hlost : (after effects x).state.lost → (after effects x).state = .failed) :
    Records s₀ (s.close (s.perform effects) mode jobStatus) := by
  have hwithin : ∀ e ∈ effects, e.Within ((s.tree t).map (·.storageId)) :=
    fun e he => (hown e he).within (mem_map_of_mem hx)
  have hmem := (mem_tree.mp hx).1
  -- the other disks
  have hother : ∀ it ∈ s.tree t, it ≠ x → after effects it = it
      ∧ ∀ new, .status it.storageId new ∉ effects := by
    intro it hit hne
    have hid : it.storageId ≠ x.storageId := fun hid =>
      hne (hinv.eq hlaid (mem_tree.mp hit).1 hmem hid)
    exact ⟨after_of_own hown hid, fun new hnew => hid (hown _ hnew)⟩
  refine h.of_tree (out_of_within hinv hlaid hwithin) ?_ ?_ ?_
  · intro hal it hit hreleased
    by_cases hne : it = x
    · rw [hne]
      exact hrow (halive hal)
    · obtain ⟨hsame, hnone⟩ := hother it hit hne
      rw [hsame] at hreleased ⊢
      rw [statusAfter_of_not_mem hnone]
      exact h.row t (halive hal) it hit hreleased
  · intro hal f hf hf'
    -- no other disk is lost
    have hall : ∀ it ∈ s.tree t, (after effects it).state.lost → it = x := by
      intro it hit hit'
      by_contra hne
      rw [(hother it hit hne).1] at hit'
      exact hne (hsingle (halive hal) it hit hit')
    have heq := hall f hf hf'
    subst heq
    exact ⟨hlost hf', hall⟩
  · rw [s.snapshot_perform_quiet fun e he => (hown e he).quiet]
    exact h.kept

theorem Records.takes (hnext : Next (s.tree t) env.statusOf (some x) action)
    (hopen : x.state.terminal = false)
    (hhandler : (s.call mode t env domainsOf).handler x action = some effects)
    (htakes : Takes (s.call mode t env domainsOf) x action effects) :
    Records s₀ (s.close (s.perform effects) mode env.jobStatus) := by
  obtain ⟨hown, htrans⟩ := htakes
  have hx : x ∈ s.tree t := hnext.mem
  have halive : Alive (s.tree t) := ⟨x, hx, hopen⟩
  have hsafe := Call.handler_safe _ hhandler (h.present x.storageId)
    (h.row t halive x hx hnext.not_released)
  have hload : .load ∉ effects.take effects.length := by
    rw [take_length]
    exact fun hmem => hown _ hmem
  have hrow := hsafe.take hload
  rw [take_length] at hrow
  refine h.own hinv hlaid hx hown (fun _ => halive) (fun _ => hrow) ?_ ?_
  · exact fun _ it hit hlost => absurd hlost (hinv.not_lost hlaid hnext hopen hit not_false)
  · intro hlost
    rw [show (after effects x).state.lost = false from htrans.not_lost hopen] at hlost
    cases hlost

theorem Records.raised (hnext : Next (s.tree t) env.statusOf (some x) action)
    (hhandler : (s.call mode t env domainsOf).handler x action = some effects)
    (houtcome : Ends (s.call mode t env domainsOf) x damaged effects
      ∨ Takes (s.call mode t env domainsOf) x action effects) (hload : .load ∉ effects.take n) :
    Records s₀ (s.close (s.perform (effects.take n ++
      [.set x.storageId fun p => { p with state := .failed }])) mode env.jobStatus) := by
  have hx : x ∈ s.tree t := hnext.mem
  have hown : ∀ e ∈ effects.take n ++ [.set x.storageId fun p => { p with state := .failed }],
      e.Own x action :=
    forall_mem_append.mpr ⟨own_of_take houtcome hload, forall_mem_singleton.mpr rfl⟩
  have hlast := after_raised effects x n
  have hfailed := congrArg (·.state) hlast
  refine h.own hinv hlaid hx hown ?_ (fun halive => ?_) (fun halive => ?_)
    fun _ => hfailed
  · rintro ⟨it', hit', hopen⟩
    obtain ⟨it, hit, rfl⟩ := mem_map.mp hit'
    refine ⟨it, hit, ?_⟩
    by_cases heq : it = x
    · rw [heq, hfailed] at hopen
      cases hopen
    · have hid : it.storageId ≠ x.storageId := fun hid => heq
        (hinv.eq hlaid (mem_tree.mp hit).1 (mem_tree.mp hx).1 hid)
      rwa [after_of_own hown hid] at hopen
  · have hsafe := Call.handler_safe _ hhandler (h.present x.storageId)
      (h.row t halive x hx hnext.not_released)
    rw [hlast, statusAfter_append]
    exact (hsafe.take hload).of_eq rfl
  · -- the tree may have been blocked by this disk before
    intro it hit hlost
    rcases hnext.blocked_or_open with ⟨-, hstate⟩ | hopen
    · refine (h.single t halive x hx ?_).2 it hit hlost
      rw [hstate]
      rfl
    · exact absurd hlost (hinv.not_lost hlaid hnext hopen hit not_false)

/-- A tree that is given up needs its records no more. -/
theorem Records.ends {x' : Item I D P} (hx : x ∈ s.tree t) (first : List (Effect I D P))
    (hfirst : ∀ e ∈ first, e.Prepares x) (hhand : AtHand x x')
    (hopen : first = [] ∨ x.state.terminal = false)
    (hgiven : (after (first ++ (s.call mode t env domainsOf).terminalizeTreeFailure x' damaged)
      x).state.givenUp) :
    Records s₀ (s.close (s.perform
      (first ++ (s.call mode t env domainsOf).terminalizeTreeFailure x' damaged)) mode
      env.jobStatus) := by
  have hends : Ends (s.call mode t env domainsOf) x damaged
      (first ++ (s.call mode t env domainsOf).terminalizeTreeFailure x' damaged) :=
    ⟨first, x', hhand, rfl, hfirst⟩
  have hplain : ∀ e ∈ first, e.Plain := by
    intro e he
    have hprepares := hfirst e he
    cases e with
    | set => exact fun p => (hprepares.2 p).1
    | _ => cases hprepares
  refine h.over hinv hlaid
    (hinv.within hx .fail (.inl hends))
    (hinv.terminal_of_ends hlaid hx hgiven hends) ?_
  have hown : ∀ e ∈ first, e.Own x .fail := fun e he => (hfirst e he).own .fail
  rw [State.perform, foldl_append]
  refine kept_perform (fun k => k.state.terminal = false → ∀ old,
    k.storageOrigStatus = some old → s₀.status k.storageId = some old) ?_
    (Call.terminalizeTreeFailure_abandons _) ?_ ?_
  · intro k state hstate hopen
    rw [show (k.ended state).state = state from rfl, ItemState.terminal_of_givenUp hstate] at hopen
    cases hopen
  · intro it' hit' hopen' old hold
    rw [show (foldl State.apply s first).items = _ from s.items_perform first] at hit'
    obtain ⟨it, hit, rfl⟩ := mem_map.mp hit'
    rw [orig_after_plain hplain] at hold
    rw [toPlanned_after]
    refine h.orig_of_open hit ?_ hold
    rcases hopen with rfl | hopen
    · exact hopen'
    · by_cases hid : it.storageId = x.storageId
      · rw [hinv.eq hlaid hit (mem_tree.mp hx).1 hid]
        exact hopen
      · rwa [after_of_own hown hid] at hopen'
  · rw [show (foldl State.apply s first).snapshot = _ from
      s.snapshot_perform_quiet fun e he => (hown e he).quiet]
    exact h.kept

/-- **A step keeps the records.** -/
theorem Records.step (hcalm : Calm s (.step mode t env domainsOf)) :
    Records s₀ (s.step mode t env domainsOf) := by
  have hload : env.raises.isSome → .load ∉ (s.call mode t env domainsOf).stepTree := hcalm
  unfold State.step
  generalize hstep : (s.call mode t env domainsOf).stepTree = effects at hload
  have houtcome := (s.call mode t env domainsOf).stepTree_outcome
  rw [hstep] at houtcome
  cases houtcome with
  | idle hwaits => exact h.idle t hwaits
  | skipped hskips hwithin hall => exact h.skipped hinv hlaid hskips hwithin hall
  | @handled x action done hdecide hnext hhandler heffects =>
    have hx : x ∈ s.tree t := hnext.mem
    have hresult := Call.handler_outcome hnext (hinv.disk x (mem_tree.mp hx).1).fresh hhandler
    rw [heffects, Call.guarded] at hload ⊢
    split
    · rcases hnext.blocked_or_open with ⟨rfl, hfailed⟩ | hopen
      · cases hhandler
        exact h.ends hinv hlaid hx []
          (forall_mem_nil _) (.refl x) (.inl rfl)
          (Inv.givenUp_of_blocked hfailed _)
      · rcases hresult with hends | htakes
        · have hgiven := hinv.givenUp_of_ends hx hopen hends
          obtain ⟨first, x', hhand, rfl, hfirst⟩ := hends
          exact h.ends hinv hlaid hx first hfirst hhand (.inr hopen) hgiven
        · exact h.takes hinv hlaid hnext hopen hhandler htakes
    · rename_i n hraises
      refine h.raised hinv hlaid hnext hhandler hresult fun hmem => ?_
      refine hload (isSome_of_eq_some hraises) ?_
      rw [hraises]
      exact mem_append_left _ hmem

end Step

/-! ## Whole runs -/

section Runs

variable [DecidableEq D] [DecidableEq P]

theorem Records.next (h : Records s₀ s) (hinv : Inv plan ∅ s) (hlaid : Laid plan) {e : Event I D P}
    (hcalm : Calm s e) (hnext : machine.next s e = some s') : Records s₀ s' := by
  cases e with
  | step mode t env domainsOf =>
    cases hnext
    exact h.step hinv hlaid hcalm
  | skip t =>
    simp only [machine] at hnext
    split_ifs at hnext
    cases hnext
    obtain ⟨hskips, hwithin, hall⟩ := skips_all (s.tree t) .skipped rfl
    exact h.skipped hinv hlaid hskips hwithin hall
  | load =>
    cases hnext
    refine ⟨h.present, h.row, h.single, fun kept heq k hk hopen old hold => ?_⟩
    cases heq
    cases hkept : s.snapshot with
    | none =>
      rw [hkept] at hk
      exact h.orig_of_open hk hopen hold
    | some kept =>
      rw [hkept] at hk
      exact h.kept kept hkept k hk hopen old hold
  | forget =>
    cases hnext
    exact ⟨h.present, h.row, h.single, fun kept heq => by cases heq⟩
  | outside => cases hcalm

end Runs

/-! ## What giving up a tree writes -/

variable [DecidableEq P]

variable (row : Item I D P)

namespace Call

variable (c : Call I D P) {item : Item I D P} {damaged : Bool} {id : I} {d : D}
  {new : StorageStatus}

theorem status_mem_terminalize (hid : id ≠ item.storageId) :
    .status id new ∈ c.terminalizeTreeFailure item damaged ↔ ∃ row ∈ c.items item,
      row.state.terminal = false ∧ row.storageId = id ∧ row.storageOrigStatus = some new := by
  constructor
  · intro h
    rcases c.terminalize_mem h with h | h | ⟨-, h⟩ | ⟨row, hrow, hopen, h⟩
    · cases h
    · rcases restoreStorageStatus_mem h with ⟨_, -, h⟩ | ⟨_, -, h⟩ <;> cases h
      exact absurd rfl hid
    · cases h
      exact absurd rfl hid
    · cases h with
      | restore h =>
        rcases restoreStorageStatus_mem h with ⟨_, -, h⟩ | ⟨_, horig, h⟩ <;> cases h
        exact ⟨row, hrow, hopen, rfl, horig⟩
  · rintro ⟨row, hrow, hopen, rfl, horig⟩
    refine c.mem_terminalize damaged hrow hopen (.inr ?_)
    simp [abandonItem, restoreStorageStatus, horig]

theorem unpark_mem_terminalize (hsome : ∃ row ∈ c.items item, row.state.terminal = false) :
    .unpark d ∈ c.terminalizeTreeFailure item damaged ↔ d ∈ item.maintenanceDomains.getD []
      ∨ ∃ row ∈ c.items item, row.state.terminal = false
        ∧ d ∈ row.maintenanceDomains.getD [] := by
  constructor
  · intro h
    rcases c.terminalize_mem h with h | h | ⟨-, h⟩ | ⟨row, hrow, hopen, h⟩
    · cases h
    · rcases restoreStorageStatus_mem h with ⟨_, hd, h⟩ | ⟨_, -, h⟩ <;> cases h
      exact .inl hd
    · cases h
    · cases h with
      | restore h =>
        rcases restoreStorageStatus_mem h with ⟨_, hd, h⟩ | ⟨_, -, h⟩ <;> cases h
        exact .inr ⟨row, hrow, hopen, hd⟩
  · rintro (hd | ⟨row, hrow, hopen, hd⟩)
    · obtain ⟨row, hrow, hopen⟩ := hsome
      refine c.mem_terminalize damaged hrow hopen (.inl ?_)
      exact mem_append_left _ (mem_map_of_mem hd)
    · refine c.mem_terminalize damaged hrow hopen (.inr ?_)
      simp [abandonItem, restoreStorageStatus, hd]

theorem status_terminalize_self (hsome : status.isSome = origin.isSome)
    (hrow : RowOk origin item status)
    (hrows : ∀ row ∈ c.items item, row.state.terminal = false → row.storageId = item.storageId →
      ∀ old, row.storageOrigStatus = some old → origin = some old)
    (hopen : ∃ row ∈ c.items item, row.state.terminal = false) :
    statusAfter item.storageId (c.terminalizeTreeFailure item false) status = origin := by
  have hback : ∀ new, .status item.storageId new ∈ c.terminalizeTreeFailure item false →
      origin = some new := by
    intro new hnew
    rcases c.terminalize_mem hnew with h | h | ⟨h, -⟩ | ⟨row, hmem, hopen, h⟩
    · cases h
    · rcases restoreStorageStatus_mem h with ⟨_, -, h⟩ | ⟨_, horig, h⟩ <;> cases h
      exact hrow.1 new horig
    · cases h
    · generalize heq : item.storageId = id at h
      cases h with
      | restore h =>
        rcases restoreStorageStatus_mem h with ⟨_, -, h⟩ | ⟨_, horig, h⟩ <;> cases h
        exact hrows row hmem hopen heq.symm new horig
  cases hrecord : item.storageOrigStatus with
  | some old =>
    refine statusAfter_of_mem hsome hback ⟨old, ?_⟩
    obtain ⟨row, hmem, hopen⟩ := hopen
    refine c.mem_terminalize false hmem hopen (.inl ?_)
    simp [restoreStorageStatus, hrecord]
  | none =>
    by_cases hmem : ∃ new, .status item.storageId new ∈ c.terminalizeTreeFailure item false
    · exact statusAfter_of_mem hsome hback hmem
    · rw [statusAfter_of_not_mem (not_exists.mp hmem)]
      exact hrow.2 hrecord

theorem status_abandon_of_ne (hid : row.storageId ≠ id) (failed : I) (status : Option StorageStatus)
    : statusAfter id (c.abandonItem row damaged failed) status = status := by
  refine statusAfter_of_not_mem fun new hnew => ?_
  simp only [abandonItem, append_assoc, mem_append, mem_singleton] at hnew
  rcases hnew with h | h | h | h
  · rcases restoreStorageStatus_mem h with ⟨_, -, h⟩ | ⟨_, -, h⟩ <;> cases h
    exact hid rfl
  · cases c.discardDestination_mem h
  · split_ifs at h
    · cases mem_singleton.mp h
      exact hid rfl
    · cases h
  · cases h

theorem status_abandon_self (status : Option StorageStatus) :
    statusAfter row.storageId (c.abandonItem row true row.storageId) status
      = status.map fun _ => .damaged := by
  have hlast : ∀ status : Option StorageStatus,
      statusAfter row.storageId [Effect.status (D := D) (P := P) row.storageId .damaged] status
        = status.map fun _ => .damaged := fun status => if_pos rfl
  rw [abandonItem, if_pos ⟨rfl, rfl⟩, append_assoc, statusAfter_append, statusAfter_append, hlast]
  exact map_statusAfter _ _ _ _

theorem status_terminalize_damaged (status : Option StorageStatus) (hstate : item.state = .failed
      ∨ ∃ row ∈ c.items item, row.state.terminal = false ∧ row.storageId = item.storageId)
    (hopen : ∃ row ∈ c.items item, row.state.terminal = false) :
    statusAfter item.storageId (c.terminalizeTreeFailure item true) status
      = status.map fun _ => .damaged := by
  -- the last row of the disk decides
  have hrows : ∀ (rows : List (Item I D P)) (first : Option StorageStatus),
      statusAfter item.storageId (rows.flatMap (c.abandonItem · true item.storageId)) first
        = if item.storageId ∈ rows.map (·.storageId) then first.map fun _ => .damaged
          else first := by
    intro rows first
    induction rows generalizing first with
    | nil => rfl
    | cons row rows ih =>
      rw [flatMap_cons, statusAfter_append, ih]
      by_cases hid : row.storageId = item.storageId
      · have hself := c.status_abandon_self row first
        rw [hid] at hself
        rw [hself, map_cons, hid, if_pos mem_cons_self]
        split_ifs
        · exact Option.map_map _ _ _
        · rfl
      · rw [c.status_abandon_of_ne row hid]
        simp [Ne.symm hid]
  obtain ⟨row, hrow, hropen⟩ := hopen
  have hmem : row ∈ (c.items item).filter (!·.state.terminal) :=
    mem_filter.mpr ⟨hrow, by simp [hropen]⟩
  unfold terminalizeTreeFailure
  dsimp only
  rw [if_neg (by simpa [List.isEmpty_iff] using ne_nil_of_mem hmem)]
  show statusAfter item.storageId (_ ++ _) status = _
  rw [statusAfter_append, hrows]
  by_cases hin : item.storageId ∈ ((c.items item).filter (!·.state.terminal)).map (·.storageId)
  · rw [if_pos hin]
    exact map_statusAfter _ _ _ _
  · -- a disk that is not among the rows has failed
    have hfailed : item.state = .failed := by
      rcases hstate with hfailed | ⟨row, hrow, hropen, hid⟩
      · exact hfailed
      · refine absurd (List.mem_map.mpr ⟨row, mem_filter.mpr ⟨hrow, ?_⟩, hid⟩) hin
        simp [hropen]
    rw [if_neg hin, if_pos ⟨rfl, hfailed, hin⟩, statusAfter_append]
    exact (if_pos rfl).trans (map_statusAfter _ _ _ _)

theorem ends_of_load (hfresh : ∀ x ∈ c.tree, x.state = .pending → x.moveTaskId = none)
    (hraises : c.env.raises = none) (hload : .load ∈ c.stepTree) :
    ∃ x action, treeNext c.tree c.env.statusOf = (some x, action)
      ∧ Next c.tree c.env.statusOf (some x) action ∧ x.state.committed = false
      ∧ Ends c x (c.marks action) c.stepTree := by
  cases c.stepTree_outcome with
  | idle hwaits => exact absurd (hwaits _ hload) not_false
  | skipped hskips => exact absurd (hskips _ hload) not_false
  | @handled x action done hdecide hnext hhandler heffects =>
    rw [heffects, guarded, hraises] at hload ⊢
    refine ⟨x, action, hdecide, hnext, ?_, ?_⟩
    · -- the handlers of a committed disk go on
      cases hnext with
      | blocked _ hstate => rw [hstate]; rfl
      | phaseA _ _ hphase =>
        cases hs : x.state <;> simp_all [ItemState.phaseADone, ItemState.committed]
      | repair _ hstate | gate _ hstate | commit _ hstate => rw [hstate]; rfl
      | release _ hstate =>
        split_ifs at hhandler with hplace
        · cases hhandler
          have htakes : Takes c x .skipRelease (skipRelease x) := skipRelease_takes hstate
          exact absurd (htakes.1 _ hload) not_false
        · cases hhandler
          have htakes : Takes c x .release (c.release x) :=
            release_takes hstate (by simpa using hplace)
          exact absurd (htakes.1 _ hload) not_false
    · rcases handler_outcome hnext (hfresh x hnext.mem) hhandler with hends | ⟨hown, -⟩
      · exact hends
      · exact absurd (hown _ hload) not_false

end Call

/-! ## Putting a tree back -/

/-- Every disk of the tree that is not committed is back, and no domain parked for it is left. -/
def PutBack (s₀ s s' : State I D P) (t : I) : Prop :=
  ∀ it ∈ s.tree t, it.state.committed = false →
    s'.status it.storageId = s₀.status it.storageId
      ∧ ∀ d ∈ it.maintenanceDomains.getD [], s'.domains d ≠ .maintenance

/-- `_items` knows of everything that is parked for the disks other than the one at hand. -/
def Known (s₀ s : State I D P) (mode : Mode) (t : I) (x : Item I D P) : Prop :=
  ∀ it ∈ s.tree t, it.state.committed = false → it.storageId ≠ x.storageId →
    (s.status it.storageId = s₀.status it.storageId ∨ ∃ k ∈ s.rows mode t x,
      k.state.terminal = false ∧ k.storageId = it.storageId ∧ k.storageOrigStatus.isSome)
    ∧ ∀ d ∈ it.maintenanceDomains.getD [], s.domains d = .maintenance →
      d ∈ x.maintenanceDomains.getD [] ∨ ∃ k ∈ s.rows mode t x,
        k.state.terminal = false ∧ d ∈ k.maintenanceDomains.getD []

/-- A disk that is found damaged is left so. -/
def Unmarked (s₀ : State I D P) (x : Item I D P) (damaged : Bool) : Prop :=
  damaged → ∀ old, s₀.status x.storageId = some old → old = .damaged

theorem Records.open_of_next (h : Records s₀ s) (hinv : Inv plan ∅ s) (hlaid : Laid plan)
    (halive : Alive (s.tree t)) (hnext : Next (s.tree t) env.statusOf (some x) action)
    (hit : it ∈ s.tree t) (hne : it.storageId ≠ x.storageId)
    (hcommitted : it.state.committed = false) : it.state.terminal = false := by
  have hlost : it.state.lost = false := by
    by_contra hlost
    rw [Bool.not_eq_false] at hlost
    rcases hnext.blocked_or_open with ⟨-, hfailed⟩ | hopen
    · have heq := (h.single t halive x hnext.mem (by rw [hfailed]; rfl)).2 it hit hlost
      rw [heq] at hne
      exact hne rfl
    · exact hinv.not_lost hlaid hnext hopen hit not_false hlost
  cases hs : it.state <;> simp_all [ItemState.lost, ItemState.committed, ItemState.terminal]

theorem Records.known (h : Records s₀ s) (hinv : Inv plan ∅ s) (hlaid : Laid plan)
    (hnext : Next (s.tree t) env.statusOf (some x) action) (halive : Alive (s.tree t))
    (hfresh : mode = .tick ∨ s.snapshot = none) : Known s₀ s mode t x := by
  have hrows : s.rows mode t x
      = (s.tree t).map fun it => if it.storageId = x.storageId then x else it := by
    unfold State.rows
    rcases hfresh with rfl | hnone
    · rfl
    · rw [hnone]
      cases mode <;> rfl
  intro it hit hcommitted hne
  have hopen := h.open_of_next hinv hlaid halive hnext hit hne hcommitted
  have hmem : it ∈ s.rows mode t x := by
    rw [hrows]
    exact mem_map.mpr ⟨it, hit, if_neg hne⟩
  refine ⟨?_, fun d hd _ => .inr ⟨it, hmem, hopen, hd⟩⟩
  cases horig : it.storageOrigStatus with
  | none => exact .inl ((h.row t halive it hit (Item.not_released hopen)).2 horig)
  | some old => exact .inr ⟨it, hmem, hopen, rfl, by rw [horig]; rfl⟩

variable [DecidableEq D]

/-- Which disks have their status back once a tree is given up. -/
theorem Records.status_ends (h : Records s₀ s) (hinv : Inv plan ∅ s)
    (hnext : Next (s.tree t) env.statusOf (some x) action) (halive : Alive (s.tree t))
    (hhand : AtHand x x') (hsome : ∃ row ∈ s.rows mode t x', row.state.terminal = false)
    (damaged : Bool) (domainsOf : I → List D) :
    let after := fun id => statusAfter id
      ((s.call mode t env domainsOf).terminalizeTreeFailure x' damaged) (s.status id)
    (∀ id ≠ x.storageId, after id = s₀.status id ↔ s.status id = s₀.status id
        ∨ ∃ k ∈ s.rows mode t x, k.state.terminal = false ∧ k.storageId = id
          ∧ k.storageOrigStatus.isSome)
      ∧ (after x.storageId = s₀.status x.storageId ↔ Unmarked s₀ x damaged) := by
  intro after
  set c := s.call mode t env domainsOf
  have hid : x'.storageId = x.storageId := by rw [hhand.planned]
  have hx := hnext.mem
  have hrow := h.row t halive x hx hnext.not_released
  constructor
  · intro id hne
    have hne' : id ≠ x'.storageId := hid ▸ hne
    rw [← or_iff_right (b := ∃ k ∈ s.rows mode t x, _) not_false,
      ← State.exists_rows_iff hid (fun hx => hne hx.2.1.symm) fun hx' => hne' hx'.2.1.symm,
      or_iff_right not_false]
    -- what is written is what it was
    have hback : ∀ new, .status id new ∈ c.terminalizeTreeFailure x' damaged →
        s₀.status id = some new := by
      intro new hnew
      obtain ⟨k, hk, hopen, rfl, horig⟩ := (c.status_mem_terminalize hne').mp hnew
      exact h.rows hk (fun heq => hne' (by rw [heq])) hopen horig
    by_cases hmem : ∃ new, .status id new ∈ c.terminalizeTreeFailure x' damaged
    · have hright := statusAfter_of_mem (h.present id) hback hmem
      obtain ⟨new, hnew⟩ := hmem
      obtain ⟨k, hk, hopen, hkid, horig⟩ := (c.status_mem_terminalize hne').mp hnew
      refine ⟨fun _ => .inr ⟨k, hk, hopen, hkid, ?_⟩, fun _ => hright⟩
      rw [horig]
      rfl
    · have hsame : after id = s.status id := statusAfter_of_not_mem (not_exists.mp hmem)
      rw [hsame]
      refine ⟨.inl, ?_⟩
      rintro (heq | ⟨k, hk, hopen, hkid, horig⟩)
      · exact heq
      · obtain ⟨old, hold⟩ := isSome_iff_exists.mp horig
        exact absurd ⟨old, (c.status_mem_terminalize hne').mpr ⟨k, hk, hopen, hkid, hold⟩⟩ hmem
  · cases damaged with
    | false =>
      have hback : statusAfter x'.storageId (c.terminalizeTreeFailure x' false)
          (s.status x.storageId) = s₀.status x.storageId := by
        refine c.status_terminalize_self (h.present x.storageId) (hrow.of_eq hhand.status)
          (fun k hk hopen hkid old hold => ?_) hsome
        by_cases heq : k = x'
        · rw [heq] at hold
          exact hrow.1 old (hhand.status ▸ hold)
        · rw [← hid, ← hkid]
          exact h.rows hk heq hopen hold
      rw [hid] at hback
      exact ⟨fun _ => Bool.noConfusion, fun _ => hback⟩
    | true =>
      have hmark : statusAfter x'.storageId (c.terminalizeTreeFailure x' true)
          (s.status x.storageId) = (s.status x.storageId).map fun _ => .damaged := by
        refine c.status_terminalize_damaged _ ?_ hsome
        rcases hnext.blocked_or_open with ⟨-, hfailed⟩ | hopen
        · exact .inl (hhand.failed hfailed)
        · obtain ⟨row, hrow, hrid, hropen⟩ :=
            State.exists_row hinv.kept mode hx hopen fun _ => hhand.opened hopen
          exact .inr ⟨row, hrow, hropen, hrid.trans hid.symm⟩
      rw [hid] at hmark
      have hpresent := h.present x.storageId
      show statusAfter x.storageId _ _ = _ ↔ _
      rw [hmark, Unmarked]
      cases hs₀ : s₀.status x.storageId with
      | none =>
        rw [hs₀] at hpresent
        have hnone : s.status x.storageId = none := by simpa using hpresent
        rw [hnone]
        simp
      | some old =>
        rw [hs₀] at hpresent
        obtain ⟨now, hnow⟩ := isSome_iff_exists.mp hpresent
        rw [hnow]
        refine ⟨fun heq _ old' hold => ?_, fun hdamaged => ?_⟩
        · cases hold
          exact (Option.some.inj heq).symm
        · rw [hdamaged rfl old rfl]
          rfl

/-- **A failed tree is put back exactly when `_items` knows of what is parked.** After any drain of
ticks and drives in which nobody else writes and no tree is given up halfway, a step that gives a
tree up puts every disk that is not committed back just when the rows `_items` has cover it and the
disk at hand is not marked as damaged; and they cover it in a tick, and in a drive that keeps no
rows. -/
theorem putBack_iff {events : List (Event I D P)} (hstart : s₀.Start) (hsettled : s₀.Settled)
    (hclean : ∀ it ∈ s₀.items, it.state.terminal = false → it.storageOrigStatus = none)
    (hcalm : machine.Meets Calm s₀ events) (hrun : machine.run s₀ events = some s) (mode : Mode)
    (t : I) (env : Env I) (domainsOf : I → List D) (hraises : env.raises = none)
    (hload : .load ∈ (s.call mode t env domainsOf).stepTree) :
    ∃ x action, treeNext (s.tree t) env.statusOf = (some x, action)
      ∧ (PutBack s₀ s (s.step mode t env domainsOf) t ↔ Known s₀ s mode t x
        ∧ Unmarked s₀ x ((s.call mode t env domainsOf).marks action))
      ∧ (mode = .tick ∨ s.snapshot = none → Known s₀ s mode t x) := by
  set c := s.call mode t env domainsOf with hc
  have hlaid : Laid (s₀.items.map fun it => it.toPlanned) := hstart.laid
  obtain ⟨hinv, hrec⟩ : Inv (s₀.items.map fun it => it.toPlanned) ∅ s ∧ Records s₀ s := by
    refine machine.run_invariant Calm
      (fun s => Inv (s₀.items.map fun it => it.toPlanned) ∅ s ∧ Records s₀ s) ?_
      ⟨hstart.inv_settled hsettled, hstart.records hsettled hclean⟩ hcalm hrun
    rintro s e s' ⟨hinv, hrec⟩ hcalm hnext
    exact ⟨hinv.next hlaid hnext, hrec.next hinv hlaid hcalm hnext⟩
  obtain ⟨x, action, hdecide, hnext, hcommitted, hends⟩ := c.ends_of_load
    (fun x hx => (hinv.disk x (mem_tree.mp hx).1).fresh) hraises hload
  have halive : Alive (s.tree t) := treeNext_alive hdecide
  refine ⟨x, action, hdecide, ?_, hrec.known hinv hlaid hnext halive⟩
  obtain ⟨first, x', hhand, heffects, hfirst⟩ := hends
  have hid : x'.storageId = x.storageId := by rw [hhand.planned]
  have hsome : ∃ row ∈ s.rows mode t x', row.state.terminal = false := by
    obtain ⟨it, hit, hopen⟩ := halive
    obtain ⟨row, hrow, -, hropen⟩ := State.exists_row hinv.kept mode (x := x') hit hopen
      fun heq => hhand.opened (by
        rw [← hinv.eq hlaid (mem_tree.mp hit).1 (mem_tree.mp hnext.mem).1 (heq.trans hid)]
        exact hopen)
    exact ⟨row, hrow, hropen⟩
  -- the claims of the disk are not about statuses and domains
  have hstatus : ∀ id, (s.step mode t env domainsOf).status id = statusAfter id
      (c.terminalizeTreeFailure x' (c.marks action)) (s.status id) := by
    intro id
    refine (s.status_perform _ id).trans ?_
    rw [heffects, statusAfter_append, statusAfter_of_not_mem fun new hnew => hfirst _ hnew]
  have hdomains : ∀ d, (s.step mode t env domainsOf).domains d = .maintenance ↔
      s.domains d = .maintenance ∧ ¬ (d ∈ x.maintenanceDomains.getD []
        ∨ ∃ k ∈ s.rows mode t x, k.state.terminal = false
          ∧ d ∈ k.maintenanceDomains.getD []) := by
    intro d
    rw [← State.exists_rows_iff hid (·.2) fun hx' => hhand.domains ▸ hx'.2]
    have hparks : ∀ e ∈ c.stepTree, ¬ e.Parks := by
      intro e he
      rw [heffects] at he
      rcases mem_append.mp he with he | he
      · have hprepares := hfirst e he
        cases e with
        | park | stop => cases hprepares
        | _ => exact not_false
      · have habandons := Call.terminalizeTreeFailure_abandons _ e he
        cases e with
        | park | stop => cases habandons
        | _ => exact not_false
    have hunpark : .unpark d ∈ c.stepTree
        ↔ d ∈ x.maintenanceDomains.getD [] ∨ ∃ k ∈ s.rows mode t x', k.state.terminal = false
          ∧ d ∈ k.maintenanceDomains.getD [] := by
      rw [heffects, mem_append, Call.unpark_mem_terminalize _ hsome, hhand.domains]
      exact ⟨fun h => h.resolve_left fun h => hfirst _ h, .inr⟩
    have hafter : (s.step mode t env domainsOf).domains d
        = domainAfter d c.stepTree (s.domains d) := s.domains_perform _ d
    rw [hafter, domainAfter_eq_maintenance hparks, hunpark]
  obtain ⟨hother, hself⟩ := hrec.status_ends hinv hnext halive hhand hsome (c.marks action)
    domainsOf
  constructor
  · intro hback
    refine ⟨fun it hit hcommitted hne => ?_, hself.mp ?_⟩
    · obtain ⟨hrow, hdomain⟩ := hback it hit hcommitted
      refine ⟨(hother _ hne).mp ((hstatus _).symm.trans hrow), fun d hd hparked => ?_⟩
      by_contra hnone
      exact hdomain d hd ((hdomains d).mpr ⟨hparked, hnone⟩)
    · exact (hstatus _).symm.trans (hback x hnext.mem hcommitted).1
  · rintro ⟨hknown, hunmarked⟩ it hit hcommitted
    by_cases hne : it.storageId = x.storageId
    · -- the disk at hand
      rw [hinv.eq hlaid (mem_tree.mp hit).1 (mem_tree.mp hnext.mem).1 hne]
      refine ⟨(hstatus _).trans (hself.mpr hunmarked), fun d hd hparked => ?_⟩
      exact ((hdomains d).mp hparked).2 (.inl hd)
    · obtain ⟨hrow, hdomain⟩ := hknown it hit hcommitted hne
      refine ⟨(hstatus _).trans ((hother _ hne).mpr hrow), fun d hd hparked => ?_⟩
      obtain ⟨hbefore, hnone⟩ := (hdomains d).mp hparked
      exact hnone (hdomain d hd hbefore)

end Restore

/-! ## A child that fails after its parent was parked -/

def rootDomain (id : Nat) : List Unit := if id = 0 then [()] else []

def finishes (mode : Mode) : Event Nat Unit Nat := .step mode 0 allFinished rootDomain

def childFails : Env Nat where
  jobStatus _ := some .failed

def untilChildMoves (mode : Mode) : List (Event Nat Unit Nat) := .replicate 6 (finishes mode)

theorem finishes_calm (mode : Mode) :
    ∀ e ∈ .load :: untilChildMoves mode, ∀ s : State Nat Unit Nat, Calm s e := by
  intro e he s
  rcases mem_cons.mp he with rfl | he
  · trivial
  · rw [eq_of_mem_replicate he]
    exact fun h => Bool.noConfusion h

/-- In a tick the root is parked when the child fails, and it is put back with its domain. -/
theorem tickedParent_putBack :
    ∃ s, machine.run twoDisks (.load :: untilChildMoves .tick) = some s
      ∧ s.status 0 = some .maintenance ∧ s.domains () = .maintenance
      ∧ PutBack twoDisks s (s.step .tick 0 childFails rootDomain) 0 := by
  obtain ⟨s, hrun, hstatus, hdomain, hload⟩ :
      ∃ s, machine.run twoDisks (.load :: untilChildMoves .tick) = some s
        ∧ s.status 0 = some .maintenance ∧ s.domains () = .maintenance
        ∧ .load ∈ (s.call .tick 0 childFails rootDomain).stepTree :=
    ⟨_, rfl, rfl, rfl, .head _⟩
  obtain ⟨x, action, -, hiff, hknown⟩ := putBack_iff twoDisks_start
    (fun it hit hlost => absurd ⟨it, hit, rfl, hlost⟩ (twoDisks_lost_nil _)) (by decide)
    (machine.meets_of_forall (finishes_calm .tick) twoDisks) hrun .tick 0 childFails rootDomain rfl
    hload
  refine ⟨s, hrun, hstatus, hdomain, hiff.mpr ⟨hknown (.inl rfl), fun hmarks => ?_⟩⟩
  cases action <;> cases hmarks

/-- `save_drive` keeps the rows as they are before anything is parked. When the child fails in a
drive, the root stays in maintenance, and its domain with it. -/
theorem drivenParent_left :
    ∃ s, machine.Meets Calm twoDisks (.load :: untilChildMoves .drive)
      ∧ machine.run twoDisks (.load :: untilChildMoves .drive) = some s
      ∧ .load ∈ (s.call .drive 0 childFails rootDomain).stepTree
      ∧ (s.step .drive 0 childFails rootDomain).status 0 = some .maintenance
      ∧ (s.step .drive 0 childFails rootDomain).domains () = .maintenance
      ∧ ¬ PutBack twoDisks s (s.step .drive 0 childFails rootDomain) 0 := by
  obtain ⟨s, hrun, hload, hstatus, hdomain, it, hit, hid, hcommitted⟩ :
      ∃ s, machine.run twoDisks (.load :: untilChildMoves .drive) = some s
        ∧ .load ∈ (s.call .drive 0 childFails rootDomain).stepTree
        ∧ (s.step .drive 0 childFails rootDomain).status 0 = some .maintenance
        ∧ (s.step .drive 0 childFails rootDomain).domains () = .maintenance
        ∧ ∃ it ∈ s.tree 0, it.storageId = 0 ∧ it.state.committed = false :=
    ⟨_, rfl, .head _, rfl, rfl, _, .head _, rfl, rfl⟩
  refine ⟨s, machine.meets_of_forall (finishes_calm .drive) twoDisks, hrun, hload, hstatus, hdomain,
    fun hback => ?_⟩
  have heq := (hback it hit hcommitted).1
  rw [hid, hstatus] at heq
  cases heq

end IsardVDI.Migration.Saga
