import IsardVDI.Lib.Machine
import Mathlib.Data.List.Nodup

/-!
# The firewall rules of the users' desktops

`desktop_iptables` and `UserIpTools`: the chain `FORWARD` has a pair of ACCEPT rules between the
address of a user and the guest ip of a desktop of theirs. The pair is added when a change shows the
domain started with a guest ip, from the new value; it is removed when the viewer is cleared, from
the old value, or when the domain is deleted, from the old value or from what was remembered.

* `State.desktopIptables` — one change of a domain. The old value is as the feed has it: changes
  within half a second are squashed.
-/

namespace IsardVDI.Vpn.Firewall

open List Function

/-- An ACCEPT rule between an address of the VPN and a guest, one way or the other. -/
structure Rule (A G : Type) where
  peer : A
  guest : G
  toGuest : Bool
deriving DecidableEq

inductive Viewer (G : Type)
  /-- absent or `{}` -/
  | empty
  | noGuestIp
  /-- the key `guest_ip` with null: the address has not arrived -/
  | nullGuestIp
  | guestIp (ip : G)
deriving DecidableEq

structure Row (U G : Type) where
  /-- `status == "Started"` -/
  started : Bool
  user : U
  viewer : Viewer G
deriving DecidableEq

structure Database (U A : Type) where
  address : U → Option A
  distinct : ∀ u v a, address u = some a → address v = some a → u = v
  /-- the addresses of `remotevpn` that a user may reach -/
  allowed : U → List A
  remotevpn : List A

structure State (D U A G : Type) where
  chain : List (Rule A G)
  /-- `_applied_desktops` -/
  applied : D → Option (U × G)
  /-- the row of the domain's latest change -/
  latest : D → Option (Row U G)

variable {D U A G : Type} {rule : Rule A G}

def Viewer.ip : Viewer G → Option G
  | .guestIp ip => some ip
  | .empty | .noGuestIp | .nullGuestIp => none

def Viewer.hasGuestIp : Viewer G → Bool
  | .guestIp _ | .nullGuestIp => true
  | .empty | .noGuestIp => false

/-! ## The chain -/

def pair (peer : A) (guest : G) : List (Rule A G) :=
  [⟨peer, guest, true⟩, ⟨peer, guest, false⟩]

theorem mem_pair {peer : A} {ip : G} : rule ∈ pair peer ip ↔
    rule.peer = peer ∧ rule.guest = ip := by
  obtain ⟨peer', guest', toGuest⟩ := rule
  cases toGuest with
  | false | true => simp [pair]

variable [DecidableEq A] [DecidableEq G]

def appendForward (chain : List (Rule A G)) (rule : Rule A G) : List (Rule A G) :=
  if rule ∈ chain then chain else chain ++ [rule]

def desktopAdd (db : Database U A) (user : U) (ip : G) (chain : List (Rule A G)) :
    List (Rule A G) :=
  match db.address user with
  | none => chain
  | some address =>
    (pair address ip ++ (db.allowed user).flatMap (pair · ip)).foldl appendForward chain

/-- `-D` takes the first rule that matches. -/
def desktopRemove (db : Database U A) (user : U) (ip : G) (chain : List (Rule A G)) :
    List (Rule A G) :=
  ((db.address user).toList.flatMap (pair · ip) ++ db.remotevpn.flatMap (pair · ip)).foldl
    List.erase chain

section Chain

variable {db : Database U A} {chain rules : List (Rule A G)} {user : U} {ip : G}

theorem mem_appendAll : rule ∈ rules.foldl appendForward chain ↔ rule ∈ chain ∨ rule ∈ rules := by
  induction rules generalizing chain with
  | nil => simp
  | cons first rules ih =>
    have hfirst : rule ∈ appendForward chain first ↔ rule ∈ chain ∨ rule = first := by
      unfold appendForward
      split_ifs with hmem
      · exact ⟨.inl, fun h => h.elim id fun heq => heq ▸ hmem⟩
      · rw [mem_append, mem_singleton]
    rw [foldl_cons, ih, hfirst, mem_cons, or_assoc]

theorem nodup_appendAll (h : chain.Nodup) : (rules.foldl appendForward chain).Nodup := by
  induction rules generalizing chain with
  | nil => exact h
  | cons first rules ih =>
    apply ih
    unfold appendForward
    split_ifs with hmem
    · exact h
    · exact nodup_append'.mpr ⟨h, nodup_singleton first, disjoint_singleton.mpr hmem⟩

theorem nodup_eraseAll (h : chain.Nodup) : (rules.foldl List.erase chain).Nodup := by
  induction rules generalizing chain with
  | nil => exact h
  | cons first rules ih => exact ih (h.erase first)

theorem mem_eraseAll (h : chain.Nodup) :
    rule ∈ rules.foldl List.erase chain ↔ rule ∈ chain ∧ rule ∉ rules := by
  induction rules generalizing chain with
  | nil => simp
  | cons first rules ih =>
    rw [foldl_cons, ih (h.erase first), h.mem_erase_iff, mem_cons, not_or]
    exact ⟨fun ⟨⟨hne, hin⟩, hout⟩ => ⟨hin, hne, hout⟩, fun ⟨hin, hne, hout⟩ => ⟨⟨hne, hin⟩, hout⟩⟩

theorem nodup_desktopAdd (h : chain.Nodup) : (desktopAdd db user ip chain).Nodup := by
  unfold desktopAdd
  split
  · exact h
  · exact nodup_appendAll h

theorem mem_desktopAdd (h : rule ∈ desktopAdd db user ip chain) :
    rule ∈ chain ∨ rule.guest = ip ∧ db.address user = some rule.peer
      ∨ rule.peer ∈ db.allowed user := by
  unfold desktopAdd at h
  split at h
  case h_1 => exact .inl h
  case h_2 address haddress =>
    rcases mem_appendAll.mp h with hold | hnew
    · exact .inl hold
    · rcases mem_append.mp hnew with hown | hremote
      · obtain ⟨rfl, hguest⟩ := mem_pair.mp hown
        exact .inr (.inl ⟨hguest, haddress⟩)
      · obtain ⟨address', hallowed, hpair⟩ := mem_flatMap.mp hremote
        exact .inr (.inr ((mem_pair.mp hpair).1 ▸ hallowed))

theorem mem_desktopRemove (hnodup : chain.Nodup) (h : rule ∈ desktopRemove db user ip chain) :
    rule ∈ chain ∧ ¬(rule.guest = ip ∧ db.address user = some rule.peer) := by
  obtain ⟨hmem, hout⟩ := (mem_eraseAll hnodup).mp h
  refine ⟨hmem, fun ⟨hguest, haddress⟩ => hout (mem_append_left _ ?_)⟩
  rw [haddress]
  exact mem_flatMap.mpr ⟨rule.peer, mem_singleton_self _, mem_pair.mpr ⟨rfl, hguest⟩⟩

end Chain

/-! ## One change of a domain -/

variable [DecidableEq D]

def State.resolve (s : State D U A G) (dom : D) (old : Row U G) : Option (U × G) :=
  match old.viewer.ip with
  | some ip => some (old.user, ip)
  | none => s.applied dom

namespace State

variable (db : Database U A) (s : State D U A G)

/-- `desktop_add` and `_remember_applied_desktop`; nothing for a null guest ip. -/
def install (dom : D) (user : U) (viewer : Viewer G) : State D U A G :=
  match viewer.ip with
  | some ip =>
    { s with
      chain := desktopAdd db user ip s.chain
      applied := Function.update s.applied dom (some (user, ip)) }
  | none => s

def reap (dom : D) (user : U) (ip : G) : State D U A G :=
  { s with
    chain := desktopRemove db user ip s.chain
    applied := Function.update s.applied dom none }

def desktopIptables (dom : D) : Option (Row U G) → Option (Row U G) → State D U A G
  | none, _ => s
  | some old, none =>
    match s.resolve dom old with
    | some (user, ip) => s.reap db dom user ip
    | none => s
  | some old, some new =>
    -- nothing is removed here, whatever the old value says
    if new.started ∧ new.viewer.hasGuestIp then s.install db dom new.user new.viewer
    else
      match new.viewer, old.viewer.ip with
      | .empty, some ip => s.reap db dom old.user ip
      | _, _ => s

def change (dom : D) (old new : Option (Row U G)) : State D U A G :=
  { s.desktopIptables db dom old new with latest := Function.update s.latest dom new }

end State

/-- A change of a domain: an insert without an old value, a delete without a new one. -/
structure Event (D U G : Type) where
  dom : D
  old : Option (Row U G)
  new : Option (Row U G)

def firewall (db : Database U A) : Machine (State D U A G) (Event D U G) where
  next s event := some (s.change db event.dom event.old event.new)

def initial : State D U A G where
  chain := []
  applied _ := none
  latest _ := none

/-! ## Only their own started desktops -/

def Row.Shows (row : Row U G) (user : U) (ip : G) : Prop :=
  row.started ∧ row.user = user ∧ row.viewer = .guestIp ip

instance [DecidableEq U] (row : Row U G) (user : U) (ip : G) : Decidable (row.Shows user ip) :=
  inferInstanceAs (Decidable (_ ∧ _))

/-- A rule of a user's address is of a desktop of theirs that is started with that guest ip. -/
def ReachesOwn (db : Database U A) (s : State D U A G) : Prop :=
  ∀ rule ∈ s.chain, ∀ user, db.address user = some rule.peer →
    ∃ dom, ∃ row ∈ s.latest dom, row.Shows user rule.guest

def Event.Names (event : Event D U G) (user : U) (ip : G) : Prop :=
  ∃ old ∈ event.old, old.user = user ∧ old.viewer = .guestIp ip

instance [DecidableEq U] (event : Event D U G) (user : U) (ip : G) :
    Decidable (event.Names user ip) :=
  inferInstanceAs (Decidable (∃ old ∈ event.old, _))

def Event.Keeps (event : Event D U G) (user : U) (ip : G) : Prop :=
  match event.new with
  | some new => new.Shows user ip ∨ new.viewer = .empty ∧ event.Names user ip
  | none => event.Names user ip ∨ ∃ old ∈ event.old, old.viewer.ip = none

/-- **A started desktop keeps its guest ip and its owner.** If the domain is started with a guest
ip, the change shows it so again, with the same owner; or it clears the viewer and its old value
names both; or it deletes the domain and its old value names both, or no guest ip. -/
def Event.Careful (s : State D U A G) (event : Event D U G) : Prop :=
  ∀ row ∈ s.latest event.dom, ∀ ip ∈ row.viewer.ip, row.started → event.Keeps row.user ip

instance [DecidableEq U] (event : Event D U G) (user : U) (ip : G) :
    Decidable (event.Keeps user ip) :=
  match h : event.new with
  | some new =>
    decidable_of_iff (new.Shows user ip ∨ new.viewer = .empty ∧ event.Names user ip)
      (by simp only [Event.Keeps, h])
  | none =>
    decidable_of_iff (event.Names user ip ∨ ∃ old ∈ event.old, old.viewer.ip = none)
      (by simp only [Event.Keeps, h])

instance [DecidableEq U] (s : State D U A G) (event : Event D U G) : Decidable (event.Careful s) :=
  inferInstanceAs (Decidable (∀ row ∈ s.latest event.dom, ∀ ip ∈ row.viewer.ip, _ → _))

variable {oldRow row : Row U G}

section Change

variable {db : Database U A} {s : State D U A G} {dom : D} {old new : Option (Row U G)} {user : U}
  {ip : G}

theorem desktopIptables_cases (db : Database U A) (s : State D U A G) (dom : D)
    (old new : Option (Row U G)) :
    s.desktopIptables db dom old new = s
      ∨ (∃ row ∈ new, ∃ ip, row.Shows row.user ip
        ∧ s.desktopIptables db dom old new = s.install db dom row.user (.guestIp ip))
      ∨ ∃ user ip, s.desktopIptables db dom old new = s.reap db dom user ip := by
  unfold State.desktopIptables
  split
  case h_1 => exact .inl rfl
  case h_2 old =>
    split
    · exact .inr (.inr ⟨_, _, rfl⟩)
    · exact .inl rfl
  case h_3 old row =>
    split_ifs with hshows
    · cases hviewer : row.viewer with
      | guestIp ip => exact .inr (.inl ⟨row, rfl, ip, ⟨hshows.1, rfl, hviewer⟩, rfl⟩)
      | nullGuestIp => exact .inl rfl
      | empty | noGuestIp => simp [hviewer, Viewer.hasGuestIp] at hshows
    · split
      · exact .inr (.inr ⟨_, _, rfl⟩)
      · exact .inl rfl

theorem desktopIptables_of_shows (h : row.Shows user ip) :
    s.desktopIptables db dom (some oldRow) (some row) = s.install db dom user (.guestIp ip) := by
  obtain ⟨hstarted, rfl, hviewer⟩ := h
  have hhas : row.started ∧ row.viewer.hasGuestIp := ⟨hstarted, by rw [hviewer]; rfl⟩
  rw [State.desktopIptables, if_pos hhas, hviewer]

theorem desktopIptables_of_cleared (hempty : row.viewer = .empty)
    (hold : oldRow.viewer = .guestIp ip) :
    s.desktopIptables db dom (some oldRow) (some row) = s.reap db dom oldRow.user ip := by
  have hhas : ¬(row.started ∧ row.viewer.hasGuestIp) := by simp [hempty, Viewer.hasGuestIp]
  rw [State.desktopIptables, if_neg hhas, hempty, hold]
  rfl

theorem desktopIptables_of_deleted (h : s.resolve dom oldRow = some (user, ip)) :
    s.desktopIptables db dom (some oldRow) none = s.reap db dom user ip := by
  rw [State.desktopIptables, h]

theorem applied_of_ne {other : D} (hne : other ≠ dom) :
    (s.desktopIptables db dom old new).applied other = s.applied other := by
  rcases desktopIptables_cases db s dom old new with h | ⟨row, -, ip, -, h⟩ | ⟨user, ip, h⟩
  · rw [h]
  · rw [h]
    exact Function.update_of_ne hne ..
  · rw [h]
    exact Function.update_of_ne hne ..

end Change

/-- Every rule of a user's address is of a domain that shows it and is remembered with it. -/
structure Inv (db : Database U A) (s : State D U A G) : Prop where
  nodup : s.chain.Nodup
  backed : ∀ rule ∈ s.chain, ∀ user, db.address user = some rule.peer →
    ∃ dom, (∃ row ∈ s.latest dom, row.Shows user rule.guest)
      ∧ s.applied dom = some (user, rule.guest)

section Inv

variable {db : Database U A} {s : State D U A G} {dom : D} {old new : Option (Row U G)}

theorem nodup_desktopIptables (h : s.chain.Nodup) :
    (s.desktopIptables db dom old new).chain.Nodup := by
  rcases desktopIptables_cases db s dom old new with heq | ⟨_, _, _, _, heq⟩ | ⟨_, _, heq⟩ <;>
    rw [heq]
  · exact h
  · exact nodup_desktopAdd h
  · exact nodup_eraseAll h

theorem Inv.mem_change (h : Inv db s) (hrule : rule ∈ (s.desktopIptables db dom old new).chain) :
    rule ∈ s.chain
      ∨ (∃ row ∈ new, row.Shows row.user rule.guest ∧ db.address row.user = some rule.peer
        ∧ (s.desktopIptables db dom old new).applied dom = some (row.user, rule.guest))
      ∨ ∃ user, rule.peer ∈ db.allowed user := by
  rcases desktopIptables_cases db s dom old new with
    heq | ⟨row, hrow, ip, hshows, heq⟩ | ⟨user, ip, heq⟩
  · rw [heq] at hrule
    exact .inl hrule
  · rw [heq] at hrule ⊢
    rcases mem_desktopAdd hrule with hold | ⟨rfl, haddress⟩ | hremote
    · exact .inl hold
    · exact .inr (.inl ⟨row, hrow, hshows, haddress, Function.update_self ..⟩)
    · exact .inr (.inr ⟨row.user, hremote⟩)
  · rw [heq] at hrule
    exact .inl (mem_desktopRemove h.nodup hrule).1

theorem Inv.kept (h : Inv db s) {user : U} (haddress : db.address user = some rule.peer)
    (happlied : s.applied dom = some (user, rule.guest))
    (hkeeps : (Event.mk dom old new).Keeps user rule.guest)
    (hrule : rule ∈ (s.desktopIptables db dom old new).chain) :
    (∃ row ∈ new, row.Shows user rule.guest)
      ∧ (s.desktopIptables db dom old new).applied dom = some (user, rule.guest) := by
  -- a removal of the pair is not compatible with the rule being there
  have hgone (heq : s.desktopIptables db dom old new = s.reap db dom user rule.guest) : False := by
    rw [heq] at hrule
    exact (mem_desktopRemove h.nodup hrule).2 ⟨rfl, haddress⟩
  cases new with
  | none =>
    rcases hkeeps with ⟨oldRow, ⟨⟩, rfl, hviewer⟩ | ⟨oldRow, ⟨⟩, hnone⟩
    · have hresolve : s.resolve dom oldRow = some (oldRow.user, rule.guest) := by
        rw [State.resolve, hviewer]
        rfl
      exact (hgone (desktopIptables_of_deleted hresolve)).elim
    · -- no guest ip in the old value: what was remembered is removed
      have hresolve : s.resolve dom oldRow = some (user, rule.guest) := by
        rw [State.resolve, hnone]
        exact happlied
      exact (hgone (desktopIptables_of_deleted hresolve)).elim
  | some row =>
    rcases hkeeps with hshows | ⟨hempty, oldRow, ⟨⟩, rfl, hviewer⟩
    · refine ⟨⟨row, rfl, hshows⟩, ?_⟩
      cases old with
      | none => exact happlied
      | some oldRow =>
        rw [desktopIptables_of_shows hshows]
        exact Function.update_self ..
    · exact (hgone (desktopIptables_of_cleared hempty hviewer)).elim

theorem Inv.change (hremote : ∀ user, ∀ a ∈ db.allowed user, ∀ other, db.address other ≠ some a)
    {event : Event D U G} (h : Inv db s) (hcareful : event.Careful s) :
    Inv db (s.change db event.dom event.old event.new) where
  nodup := nodup_desktopIptables h.nodup
  backed rule hrule user haddress := by
    have hnow : (s.change db event.dom event.old event.new).latest event.dom = event.new :=
      Function.update_self ..
    rcases h.mem_change hrule with hold | ⟨row, hrow, hshows, hrow_address, happlied⟩ | ⟨other, hin⟩
    · obtain ⟨dom, ⟨row, hrow, hshows⟩, happlied⟩ := h.backed rule hold user haddress
      -- the domain that backs the rule is the one that changes, or is not touched
      by_cases heq : dom = event.dom
      · subst heq
        have hip : rule.guest ∈ row.viewer.ip := by
          rw [hshows.2.2]
          rfl
        have hkeeps := hcareful row hrow rule.guest hip hshows.1
        rw [hshows.2.1] at hkeeps
        obtain ⟨hnew, happlied'⟩ := h.kept haddress happlied hkeeps hrule
        exact ⟨event.dom, hnow.symm ▸ hnew, happlied'⟩
      · refine ⟨dom, ⟨row, ?_, hshows⟩, (applied_of_ne heq).trans happlied⟩
        show row ∈ Function.update s.latest event.dom event.new dom
        rw [Function.update_of_ne heq]
        exact hrow
    · -- two users with the address of the rule are one
      obtain rfl := db.distinct _ _ _ haddress hrow_address
      exact ⟨event.dom, hnow.symm ▸ ⟨row, hrow, hshows⟩, happlied⟩
    · exact absurd haddress (hremote other rule.peer hin user)

end Inv

/-! ## Every run -/

/-- **A user reaches only their own started desktops.** Where the addresses of `remotevpn` are no
user's, and every started desktop keeps its guest ip and its owner until its viewer is cleared or it
is deleted, every rule between a user's address and a guest ip is of a desktop of that user whose
latest change shows it started with that guest ip. -/
theorem reaches_own_started {db : Database U A} {s : State D U A G} {events : List (Event D U G)}
    (hremote : ∀ user, ∀ a ∈ db.allowed user, ∀ other, db.address other ≠ some a)
    (hcareful : (firewall db).Meets (fun s event => event.Careful s) initial events)
    (hrun : (firewall db).run initial events = some s) : ReachesOwn db s := by
  have hinv : Inv db s := (firewall db).run_invariant (fun s event => event.Careful s) (Inv db)
    (fun s event s' h hcareful hnext => by
      cases hnext
      exact h.change hremote hcareful) ⟨nodup_nil, fun _ h => (not_mem_nil h).elim⟩
    hcareful hrun
  intro rule hrule user haddress
  obtain ⟨dom, hshows, -⟩ := hinv.backed rule hrule user haddress
  exact ⟨dom, hshows⟩

/-- **A cleared viewer cuts off.** `-D` takes one rule, and after any run no rule is twice in the
chain: none is left between the address of the old owner and the old guest ip. -/
theorem cleared_cut_off {db : Database U A} {s : State D U A G} {events : List (Event D U G)}
    (hrun : (firewall db).run initial events = some s) {dom : D} {old new : Row U G} {ip : G}
    (hold : old.viewer = .guestIp ip) (hnew : new.viewer = .empty) :
    ∀ rule ∈ (s.desktopIptables db dom (some old) (some new)).chain,
      ¬(rule.guest = ip ∧ db.address old.user = some rule.peer) := by
  have hnodup : s.chain.Nodup := by
    refine (firewall db).run_preserves (fun s => s.chain.Nodup) ?_ nodup_nil hrun
    intro s event _ h hnext
    cases hnext
    exact nodup_desktopIptables h
  intro rule hrule
  rw [desktopIptables_of_cleared hnew hold] at hrule
  exact (mem_desktopRemove hnodup hrule).2

def numbered : Database Nat Nat where
  address user := some (user + 10)
  distinct u v a hu hv := by
    have huv : u + 10 = v + 10 := Option.some.inj (hu.trans hv.symm)
    omega
  allowed _ := []
  remotevpn := []

def stopped (user : Nat) : Option (Row Nat Nat) :=
  some ⟨false, user, .empty⟩

def startedWith (user ip : Nat) : Option (Row Nat Nat) :=
  some ⟨true, user, .guestIp ip⟩

/-- Guest ip 5 is first of a desktop of user 0, and after its stop of one of user 1. -/
def oneAfterTheOther : List (Event Bool Nat Nat) :=
  [⟨false, none, stopped 0⟩, ⟨false, stopped 0, startedWith 0 5⟩,
    ⟨false, startedWith 0 5, stopped 0⟩, ⟨true, none, stopped 1⟩,
    ⟨true, stopped 1, startedWith 1 5⟩]

theorem oneAfterTheOther_own :
    ∃ s, (firewall numbered).run initial oneAfterTheOther = some s ∧ s.chain = pair 11 5
      ∧ ReachesOwn numbered s := by
  have hremote : ∀ user, ∀ a ∈ numbered.allowed user, ∀ other, numbered.address other ≠ some a :=
    nofun
  have hcareful : (firewall numbered).Meets (fun s event => event.Careful s) initial
      oneAfterTheOther := by decide +kernel
  exact ⟨_, rfl, by decide +kernel, reaches_own_started hremote hcareful rfl⟩

/-- The guest ip of a started desktop of user 0 changes from 5 to 6; a desktop of user 1 then has
guest ip 5. -/
def moved : List (Event Bool Nat Nat) :=
  [⟨false, none, stopped 0⟩, ⟨false, stopped 0, startedWith 0 5⟩,
    ⟨false, startedWith 0 5, startedWith 0 6⟩, ⟨true, none, stopped 1⟩,
    ⟨true, stopped 1, startedWith 1 5⟩]

/-- User 0 reaches the desktop of user 1. -/
theorem moved_reaches_other :
    ∃ s, (firewall numbered).run initial moved = some s ∧ ⟨10, 5, true⟩ ∈ s.chain
      ∧ s.latest true = startedWith 1 5 ∧ ¬ReachesOwn numbered s := by
  obtain ⟨s, hrun, hrule, hlatest, hnone⟩ : ∃ s, (firewall numbered).run initial moved = some s
      ∧ ⟨10, 5, true⟩ ∈ s.chain ∧ s.latest true = startedWith 1 5
      ∧ ∀ dom, ¬∃ row ∈ s.latest dom, row.Shows 0 5 :=
    ⟨_, rfl, by decide +kernel, by decide +kernel, by decide +kernel⟩
  refine ⟨s, hrun, hrule, hlatest, fun hreaches => ?_⟩
  obtain ⟨dom, hshows⟩ := hreaches ⟨10, 5, true⟩ hrule 0 rfl
  exact hnone dom hshows

/-- The second start adds no rule. -/
theorem restarted_cut_off :
    ∃ s, (firewall numbered).run initial (.replicate 2 ⟨true, stopped 0, startedWith 0 5⟩) = some s
      ∧ ∀ rule ∈ (s.desktopIptables numbered true (startedWith 0 5) (stopped 0)).chain,
        ¬(rule.guest = 5 ∧ numbered.address 0 = some rule.peer) := by
  have hrun : (firewall numbered).run initial (.replicate 2 ⟨true, stopped 0, startedWith 0 5⟩)
      = some _ := rfl
  exact ⟨_, hrun, cleared_cut_off hrun rfl rfl⟩

end IsardVDI.Vpn.Firewall
