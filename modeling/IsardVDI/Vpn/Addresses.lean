import IsardVDI.Vpn.Peers
import Mathlib.Data.List.Perm.Subperm

/-!
# The addresses of the VPN are distinct

`init_peers` gives addresses to users before it has reserved those of `remotevpn`. The addresses
stay distinct exactly if none of those it gives to users belongs to `remotevpn`; `add_peer` comes
after all of them are reserved.

* `Tables.NoClash` — no user is given an address of `remotevpn`, said of the tables of before.
-/

namespace IsardVDI.Vpn

open FirstFree
open List

variable {I A : Type}

def Tables.allAddresses (net : Net A) (tables : Tables I A) : List A :=
  net.serverIp :: (addresses tables.users ++ addresses tables.remotevpn)

def Distinct (net : Net A) (tables : Tables I A) : Prop :=
  (tables.allAddresses net).Nodup

structure Tables.Keyed (tables : Tables I A) : Prop where
  users : (tables.users.map (·.id)).Nodup
  remotevpn : (tables.remotevpn.map (·.id)).Nodup

/-- What `add_peer` keeps. -/
structure Inv (net : Net A) (wg : Wg I A) : Prop where
  keyed : wg.tables.Keyed
  distinct : Distinct net wg.tables
  reserved : ∀ ip ∈ wg.tables.allAddresses net, ip ∈ wg.reserved

/-! ## The addresses of a backfill -/

section Fill

variable {need : VpnConfig A → Need} {rows : List (Row I A)} {fresh : List A}

theorem addresses_cons (row : Row I A) (rows : List (Row I A)) :
    addresses (row :: rows) = row.vpn.address.toList ++ addresses rows := by
  cases h : row.vpn.address with
  | none | some ip => simp [addresses, h]

theorem ids_fill : (fill need rows fresh).map (·.id) = rows.map (·.id) := by
  fun_induction fill need rows fresh with
  | case1 => rfl
  | case2 row rows fresh h ih | case3 row rows fresh h ih | case4 row rows ip fresh h ih
  | case5 row rows h ih => exact congrArg (row.id :: ·) ih

theorem addresses_kept {row : Row I A} {vpn : VpnConfig A} (hrow : need row.vpn ≠ .address)
    (hvpn : vpn.address = row.vpn.address)
    (h : (addresses (fill need rows fresh)).Perm
      (fresh.take (lacking need rows) ++ addresses rows)) :
    (addresses (⟨row.id, vpn⟩ :: fill need rows fresh)).Perm
      (fresh.take (lacking need (row :: rows)) ++ addresses (row :: rows)) := by
  have hlacking : lacking need (row :: rows) = lacking need rows := by simp [lacking, hrow]
  rw [hlacking, addresses_cons, addresses_cons, hvpn]
  exact (h.append_left _).trans (perm_append_comm_assoc _ _ _)

theorem addresses_fill (hneed : ∀ vpn, need vpn = .address → vpn.address = none)
    (henough : lacking need rows ≤ fresh.length) :
    (addresses (fill need rows fresh)).Perm (fresh.take (lacking need rows) ++ addresses rows) := by
  fun_induction fill need rows fresh with
  | case1 fresh => rfl
  | case2 row rows fresh h ih =>
    refine addresses_kept (by simp [h]) rfl (ih ?_)
    simpa [lacking, h] using henough
  | case3 row rows fresh h ih =>
    refine addresses_kept (by simp [h]) rfl (ih ?_)
    simpa [lacking, h] using henough
  | case4 row rows ip fresh h ih =>
    have hlacking : lacking need (row :: rows) = lacking need rows + 1 := by simp [lacking, h]
    rw [hlacking] at henough ⊢
    rw [addresses_cons, addresses_cons, hneed _ h, take_succ_cons]
    exact (ih (Nat.le_of_succ_le_succ henough)).cons ip
  | case5 row rows h ih =>
    -- no host is left, against `henough`
    have hlacking : lacking need (row :: rows) = lacking need rows + 1 := by simp [lacking, h]
    rw [hlacking] at henough
    cases henough

theorem need_address {updateClients : Bool} (vpn : VpnConfig A)
    (h : usersNeed updateClients vpn = .address ∨ remotevpnNeed updateClients vpn = .address) :
    vpn.address = none := by
  cases vpn with
  | absent | noWireguard => rfl
  | wireguard address keys =>
    simp only [usersNeed, remotevpnNeed] at h
    split_ifs at h <;> simp at h

end Fill

theorem Tables.Keyed.modify {tables : Tables I A} {change : List (Row I A) → List (Row I A)}
    (h : tables.Keyed) (hchange : ∀ rows : List (Row I A), (rows.map (·.id)).Nodup →
      ((change rows).map (·.id)).Nodup) (table : Table) : (tables.modify change table).Keyed := by
  cases table with
  | users => exact ⟨hchange _ h.users, h.remotevpn⟩
  | remotevpn => exact ⟨h.users, hchange _ h.remotevpn⟩

section Reset

variable {net : Net A} {reset : Bool} {tables : Tables I A}

theorem addresses_without (rows : List (Row I A)) :
    addresses (rows.map ({ · with vpn := .absent })) = ([] : List A) := by
  simp [addresses, VpnConfig.address]

theorem Tables.Keyed.atInit (h : tables.Keyed) : (tables.atInit reset).Keyed := by
  cases reset with
  | false => exact h
  | true =>
    constructor
    · simpa [atInit, withoutVpn, Function.comp_def] using h.users
    · simpa [atInit, withoutVpn, Function.comp_def] using h.remotevpn

theorem Distinct.atInit (h : Distinct net tables) : Distinct net (tables.atInit reset) := by
  cases reset with
  | false => exact h
  | true =>
    simp [Distinct, Tables.allAddresses, Tables.atInit, Tables.withoutVpn, addresses_without]

end Reset

/-! ## What `init_peers` gives -/

section Condition

variable [DecidableEq A] (net : Net A) (updateClients : Bool) (tables : Tables I A)

def Tables.freeForUsers : List A :=
  free net.hosts (addresses tables.users ++ [net.serverIp])

def Tables.spare : List A :=
  free net.hosts (addresses tables.remotevpn ++ (addresses tables.users ++ [net.serverIp]))

def Tables.lackingUsers : Nat :=
  Vpn.lacking (usersNeed updateClients) tables.users

def Tables.lackingRemotevpn : Nat :=
  Vpn.lacking (remotevpnNeed updateClients) tables.remotevpn

/-- The number of rows that `init_peers` gives an address. -/
def Tables.lacking : Nat :=
  tables.lackingUsers updateClients + tables.lackingRemotevpn updateClients

/-- The hosts that users are given: of those that are neither the server's nor a user's, the first
ones, as many as there are users to be given an address. -/
def Tables.toUsers : List A :=
  (tables.freeForUsers net).take (tables.lackingUsers updateClients)

/-- The hosts that are left for `remotevpn`. -/
def Tables.freeForRemotevpn : List A :=
  ((tables.freeForUsers net).drop (tables.lackingUsers updateClients)).filter
    (· ∉ addresses tables.remotevpn)

def Tables.toRemotevpn : List A :=
  (tables.freeForRemotevpn net updateClients).take (tables.lackingRemotevpn updateClients)

/-- **No clash.** What users are given are not addresses of `remotevpn`. -/
def Tables.NoClash : Prop :=
  ∀ ip ∈ tables.toUsers net updateClients, ip ∉ addresses tables.remotevpn

instance : Decidable (tables.NoClash net updateClients) :=
  inferInstanceAs (Decidable (∀ ip ∈ tables.toUsers net updateClients, ip ∉ _))

/-- What is reserved once the users have their addresses. -/
def Tables.reservedAfterUsers : List A :=
  addresses tables.remotevpn ++ ((tables.toUsers net updateClients).reverse
    ++ (addresses tables.users ++ [net.serverIp]))

def Tables.filled : Wg I A where
  tables :=
    { users := fill (usersNeed updateClients) tables.users (tables.freeForUsers net)
      remotevpn := fill (remotevpnNeed updateClients) tables.remotevpn
        (tables.freeForRemotevpn net updateClients) }
  reserved := (tables.toRemotevpn net updateClients).reverse
    ++ tables.reservedAfterUsers net updateClients

theorem length_spare_le :
    (tables.spare net).length
      ≤ tables.lackingUsers updateClients + (tables.freeForRemotevpn net updateClients).length := by
  have hspare : tables.spare net
      = (tables.toUsers net updateClients).filter (· ∉ addresses tables.remotevpn)
        ++ tables.freeForRemotevpn net updateClients := by
    rw [Tables.freeForRemotevpn, Tables.toUsers, ← filter_append, take_append_drop]
    exact free_append ..
  have htake : ((tables.toUsers net updateClients).filter
      (· ∉ addresses tables.remotevpn)).length ≤ tables.lackingUsers updateClients :=
    Nat.le_trans (length_filter_le _ _) (length_take_le _ _)
  rw [hspare, length_append]
  omega

theorem free_filled_users : free net.hosts (tables.reservedAfterUsers net updateClients)
    = tables.freeForRemotevpn net updateClients := by
  rw [Tables.reservedAfterUsers, free_append, Tables.toUsers, Tables.freeForUsers,
    free_reverse_take net.nodup]
  rfl

theorem length_free_filled :
    (free net.hosts (tables.filled net updateClients).reserved).length
      = (tables.freeForRemotevpn net updateClients).length
        - tables.lackingRemotevpn updateClients := by
  rw [Tables.filled, Tables.toRemotevpn, ← free_filled_users, free_reverse_take net.nodup,
    length_drop]

end Condition

section Init

variable [DecidableEq A] {net : Net A} {updateClients reset : Bool} {tables : Tables I A}

theorem noClash_atInit :
    (tables.atInit reset).NoClash net updateClients
      ↔ reset = true ∨ tables.NoClash net updateClients := by
  cases reset with
  | false => simp [Tables.atInit]
  | true => simp [Tables.NoClash, Tables.atInit, Tables.withoutVpn, addresses_without]

/-! ## Distinct after `init_peers` -/

theorem keyed_filled (hkeyed : tables.Keyed) : (tables.filled net updateClients).tables.Keyed where
  users := by
    show ((fill _ _ _).map (·.id)).Nodup
    rw [ids_fill]
    exact hkeyed.users
  remotevpn := by
    show ((fill _ _ _).map (·.id)).Nodup
    rw [ids_fill]
    exact hkeyed.remotevpn

variable (henough : tables.lacking updateClients ≤ (tables.spare net).length)

include henough

theorem enough_for_both :
    tables.lackingUsers updateClients ≤ (tables.freeForUsers net).length
      ∧ tables.lackingRemotevpn updateClients
        ≤ (tables.freeForRemotevpn net updateClients).length := by
  have hleft := length_spare_le net updateClients tables
  have hspare : (tables.spare net).length ≤ (tables.freeForUsers net).length := by
    rw [Tables.spare, free_append]
    exact length_filter_le _ _
  unfold Tables.lacking at henough
  omega

theorem allAddresses_filled :
    ((tables.filled net updateClients).tables.allAddresses net).Perm
      (net.serverIp :: ((tables.toUsers net updateClients ++ addresses tables.users)
        ++ (tables.toRemotevpn net updateClients ++ addresses tables.remotevpn))) := by
  obtain ⟨husers, hremotevpn⟩ := enough_for_both henough
  exact ((addresses_fill (fun vpn h => need_address vpn (.inl h)) husers).append
    (addresses_fill (fun vpn h => need_address vpn (.inr h)) hremotevpn)).cons _

/-- **`init_peers`.** From distinct addresses, it leaves distinct addresses exactly if there is no
clash. -/
theorem distinct_filled_iff (hdistinct : Distinct net tables) :
    Distinct net (tables.filled net updateClients).tables
      ↔ tables.NoClash net updateClients := by
  rw [Distinct, (allAddresses_filled henough).nodup_iff]
  constructor
  · intro hnodup ip hip hremotevpn
    obtain ⟨-, hnodup⟩ := nodup_cons.mp hnodup
    obtain ⟨-, -, hdisjoint⟩ := nodup_append'.mp hnodup
    exact hdisjoint (mem_append_left _ hip) (mem_append_right _ hremotevpn)
  · intro hno
    have hfree : (tables.freeForUsers net).Nodup := nodup_free net.nodup
    -- a free host is not the server's and not a user's
    have hfresh {ip : A} (hip : ip ∈ tables.freeForUsers net) :
        ip ∉ addresses tables.users ∧ ip ≠ net.serverIp := by
      simpa using (mem_free.mp hip).2
    have hgivenFree {ip : A} (hip : ip ∈ tables.toUsers net updateClients) :
        ip ∈ tables.freeForUsers net :=
      mem_of_mem_take hip
    -- what `remotevpn` is given is left by the users, and not its own
    have hleft {ip : A} (hip : ip ∈ tables.toRemotevpn net updateClients) :
        ip ∈ (tables.freeForUsers net).drop (tables.lackingUsers updateClients)
          ∧ ip ∉ addresses tables.remotevpn := by
      simpa [Tables.freeForRemotevpn] using mem_of_mem_take hip
    have hleftFree {ip : A} (hip : ip ∈ tables.toRemotevpn net updateClients) :
        ip ∈ tables.freeForUsers net :=
      mem_of_mem_drop (hleft hip).1
    have hapart : (tables.toUsers net updateClients).Disjoint
        (tables.toRemotevpn net updateClients) := fun ip hip hip' =>
      disjoint_take_drop hfree (Nat.le_refl _) hip (hleft hip').1
    obtain ⟨hserver, hnodup⟩ := nodup_cons.mp hdistinct
    obtain ⟨husers, hremotevpn, hdisjoint⟩ := nodup_append'.mp hnodup
    rw [mem_append, not_or] at hserver
    -- of the four groups of addresses, only what users are given can meet what `remotevpn` has
    refine nodup_cons.mpr ⟨?_, nodup_append'.mpr ⟨?_, ?_, ?_⟩⟩
    · intro hmem
      rcases mem_append.mp hmem with hmem | hmem <;>
        rcases mem_append.mp hmem with hip | hip
      · exact (hfresh (hgivenFree hip)).2 rfl
      · exact hserver.1 hip
      · exact (hfresh (hleftFree hip)).2 rfl
      · exact hserver.2 hip
    · refine nodup_append'.mpr ⟨hfree.take, husers, fun ip hip hold => ?_⟩
      exact (hfresh (hgivenFree hip)).1 hold
    · refine nodup_append'.mpr ⟨?_, hremotevpn, fun ip hip hold => (hleft hip).2 hold⟩
      exact (hfree.drop.filter _).take
    · intro ip hmem hmem'
      rcases mem_append.mp hmem with hip | hip <;>
        rcases mem_append.mp hmem' with hip' | hip'
      · exact hapart hip hip'
      · exact hno ip hip hip'
      · exact (hfresh (hleftFree hip')).1 hip
      · exact hdisjoint hip hip'

theorem inv_filled (hkeyed : tables.Keyed) (hdistinct : Distinct net tables)
    (hno : tables.NoClash net updateClients) : Inv net (tables.filled net updateClients) where
  keyed := keyed_filled hkeyed
  distinct := (distinct_filled_iff henough hdistinct).mpr hno
  reserved ip hip := by
    have hip := (allAddresses_filled henough).mem_iff.mp hip
    simp only [mem_cons, mem_append] at hip
    simp only [Tables.filled, Tables.reservedAfterUsers, mem_append, mem_reverse, mem_singleton]
    tauto

end Init

variable [DecidableEq I]

section Insert

variable {net : Net A} {wg : Wg I A} {rows : List (Row I A)} {ip : A} {id : I}

theorem addresses_insertRow : addresses (insertRow id rows) = addresses rows := by
  unfold insertRow
  split_ifs
  · rfl
  · simp [addresses, VpnConfig.address]

theorem nodup_insertRow (hnodup : (rows.map (·.id)).Nodup) :
    ((insertRow id rows).map (·.id)).Nodup := by
  unfold insertRow
  split_ifs with hmem
  · exact hnodup
  · rw [map_append]
    exact nodup_append'.mpr ⟨hnodup, nodup_singleton id, disjoint_singleton.mpr hmem⟩

theorem Inv.insert (h : Inv net wg) (table : Table) :
    Inv net { wg with tables := wg.tables.modify (insertRow id) table } := by
  have hsame : (wg.tables.modify (insertRow id) table).allAddresses net
      = wg.tables.allAddresses net := by
    cases table with
    | users | remotevpn => simp [Tables.allAddresses, Tables.modify, addresses_insertRow]
  refine ⟨h.keyed.modify (fun _ => nodup_insertRow) table, ?_, ?_⟩
  · rw [Distinct, hsame]
    exact h.distinct
  · rw [hsame]
    exact h.reserved

/-- The row that `add_peer` writes. -/
abbrev given (id : I) (ip : A) : Row I A := ⟨id, .wireguard (some ip) true⟩

theorem addresses_update (hnodup : (rows.map (·.id)).Nodup) :
    (addresses (update rows (given id ip))).Subperm (ip :: addresses rows) := by
  induction rows with
  | nil => exact nil_subperm
  | cons row rows ih =>
    obtain ⟨hrow, hrows⟩ := nodup_cons.mp (map_cons ▸ hnodup)
    by_cases heq : row.id = id
    · have hrest : update rows (given id ip) = rows := update_of_notMem (heq ▸ hrow)
      have hself : update (row :: rows) (given id ip) = given id ip :: rows := by
        rw [update, map_cons, if_pos heq]
        exact congrArg _ hrest
      rw [hself, addresses_cons, addresses_cons]
      exact ((sublist_append_right _ _).cons_cons ip).subperm
    · have hself : update (row :: rows) (given id ip) = row :: update rows (given id ip) := by
        rw [update, map_cons, if_neg heq]
        rfl
      rw [hself, addresses_cons, addresses_cons]
      exact ((subperm_append_left _).mpr (ih hrows)).trans perm_middle.subperm

theorem allAddresses_update {tables : Tables I A} (hkeyed : tables.Keyed) (table : Table) :
    ((tables.modify (update · (given id ip)) table).allAddresses net).Subperm
      (ip :: tables.allAddresses net) := by
  -- the new address is moved to the front
  suffices h : (addresses (tables.modify (update · (given id ip)) table).users
      ++ addresses
        (tables.modify (update · (given id ip)) table).remotevpn).Subperm
      (ip :: (addresses tables.users ++ addresses tables.remotevpn)) by
    exact ((subperm_cons _).mpr h).trans (Perm.swap _ _ _).subperm
  cases table with
  | users => exact (subperm_append_right _).mpr (addresses_update hkeyed.users)
  | remotevpn =>
    exact ((subperm_append_left _).mpr (addresses_update hkeyed.remotevpn)).trans
      perm_middle.subperm

end Insert

variable [DecidableEq A]

theorem initPeers_eq {net : Net A} {updateClients reset : Bool}
    {tables : Tables I A} (hkeyed : (tables.atInit reset).Keyed)
    (henough : (tables.atInit reset).lacking updateClients
      ≤ ((tables.atInit reset).spare net).length) :
    initPeers net updateClients reset tables
      = some ((tables.atInit reset).filled net updateClients) := by
  generalize htables : tables.atInit reset = t at hkeyed henough
  obtain ⟨husers, hremotevpn⟩ := enough_for_both henough
  rw [initPeers, htables]
  simp only [backfill_eq hkeyed.users husers]
  have hfree := free_filled_users net updateClients t
  rw [← hfree] at hremotevpn
  simp only [Tables.reservedAfterUsers, Tables.toUsers, Tables.lackingUsers,
    Tables.freeForUsers] at hremotevpn hfree
  simp only [backfill_eq hkeyed.remotevpn hremotevpn, hfree]
  rfl

/-! ## `add_peer` -/

section Add

variable {net : Net A} {wg : Wg I A} {ip : A}

theorem Inv.add {rest : List A} (h : Inv net wg) (table : Table) (id : I) (up : Bool)
    (hfree : free net.hosts wg.reserved = ip :: rest) :
    ∃ wg', addPeer net wg table id up = some wg' ∧ Inv net wg'
      ∧ free net.hosts wg'.reserved = rest := by
  have hip : ip ∉ wg.reserved := (mem_free.mp (hfree ▸ mem_cons_self)).2
  have hleft : free net.hosts (ip :: wg.reserved) = rest := free_cons net.nodup hfree
  have hadd : addPeer net wg table id up = some
      { tables := if up then wg.tables.modify (update · (given id ip)) table
          else wg.tables
        reserved := ip :: wg.reserved } := by
    rw [addPeer, genNewPeer, genClientIp, allocate_of_free hfree]
    rfl
  refine ⟨_, hadd, ?_, hleft⟩
  cases up with
  | false => exact ⟨h.keyed, h.distinct, fun a ha => .tail _ (h.reserved a ha)⟩
  | true =>
    have hsub : ((wg.tables.modify (update · (given id ip)) table).allAddresses
        net).Subperm (ip :: wg.tables.allAddresses net) := allAddresses_update h.keyed table
    have hnodup : (ip :: wg.tables.allAddresses net).Nodup :=
      nodup_cons.mpr ⟨fun hmem => hip (h.reserved ip hmem), h.distinct⟩
    refine ⟨h.keyed.modify (fun rows hrows => ?_) table, ?_, fun a ha => ?_⟩
    · show ((update rows (given id ip)).map (·.id)).Nodup
      rw [ids_update]
      exact hrows
    · obtain ⟨l, hperm, hsublist⟩ := hsub
      exact hperm.nodup_iff.mp (hnodup.sublist hsublist)
    · rcases mem_cons.mp (hsub.subset ha) with rfl | hold
      · exact .head _
      · exact .tail _ (h.reserved a hold)

/-- The number of calls of `add_peer`. -/
def adds (events : List (Event I)) : Nat :=
  events.countP fun
    | .add _ _ _ => true
    | .insert _ _ => false

theorem Inv.run {events : List (Event I)} (h : Inv net wg)
    (henough : adds events ≤ (free net.hosts wg.reserved).length) :
    ∃ wg', (wgUsers net).run wg events = some wg' ∧ Inv net wg' := by
  induction events generalizing wg with
  | nil => exact ⟨wg, rfl, h⟩
  | cons event events ih =>
    cases event with
    | insert table id =>
      obtain ⟨wg', hrun, hinv⟩ := ih (h.insert table) henough
      exact ⟨wg', hrun, hinv⟩
    | add table id up =>
      have hadds : adds (.add table id up :: events) = adds events + 1 :=
        countP_cons_of_pos rfl
      rw [hadds] at henough
      cases hfree : free net.hosts wg.reserved with
      | nil =>
        rw [hfree] at henough
        cases henough
      | cons ip rest =>
        obtain ⟨wg₁, hadd, hinv₁, hrest⟩ := h.add table id up hfree
        rw [hfree] at henough
        obtain ⟨wg', hrun, hinv⟩ := ih hinv₁ (hrest ▸ Nat.le_of_succ_le_succ henough)
        exact ⟨wg', (wgUsers net).run_cons.mpr ⟨wg₁, hadd, hrun⟩, hinv⟩

end Add

/-! ## Every run -/

/-- **The addresses are distinct.** From distinct addresses and with hosts enough for `init_peers`:
it ends, every call of `add_peer` for which there are hosts enough succeeds, and the addresses of
both tables and the server's are distinct after every such run, if and only if the tables are reset
or there is no clash. -/
theorem addresses_distinct_iff {net : Net A} {updateClients reset : Bool} {tables : Tables I A}
    (hkeyed : tables.Keyed) (hdistinct : Distinct net tables)
    (henough : (tables.atInit reset).lacking updateClients
      ≤ ((tables.atInit reset).spare net).length) :
    (∀ events : List (Event I),
        (tables.atInit reset).lacking updateClients + adds events
          ≤ ((tables.atInit reset).spare net).length →
        ∃ wg wg', initPeers net updateClients reset tables = some wg
          ∧ (wgUsers net).run wg events = some wg' ∧ Distinct net wg'.tables)
      ↔ reset = true ∨ tables.NoClash net updateClients := by
  have hinit := initPeers_eq hkeyed.atInit henough
  rw [← noClash_atInit]
  constructor
  · intro hall
    -- already the tables that `init_peers` leaves are distinct
    obtain ⟨wg, wg', hwg, ⟨⟩, hend⟩ := hall [] henough
    rw [hinit] at hwg
    cases hwg
    exact (distinct_filled_iff henough hdistinct.atInit).mp hend
  · intro hno events hevents
    have hinv := inv_filled henough hkeyed.atInit hdistinct.atInit hno
    have hleft := length_spare_le net updateClients (tables.atInit reset)
    have hadds : adds events
        ≤ (free net.hosts ((tables.atInit reset).filled net updateClients).reserved).length := by
      rw [length_free_filled]
      unfold Tables.lacking at hevents
      omega
    obtain ⟨wg', hrun, hend⟩ := hinv.run hadds
    exact ⟨_, wg', hinit, hrun, hend.distinct⟩

def smallNet : Net Nat where
  hosts := [1, 2, 3, 4, 5, 6]
  serverIp := 1
  nodup := by decide

/-- A user without an address; the address of `remotevpn` is not the next one. -/
def remoteBehind : Tables Nat Nat where
  users := [⟨0, .wireguard (some 2) true⟩, ⟨1, .absent⟩]
  remotevpn := [⟨0, .wireguard (some 5) true⟩]

theorem remoteBehind_distinct :
    ∃ wg wg', initPeers smallNet false false remoteBehind = some wg
      ∧ (wgUsers smallNet).run wg [.insert .users 2, .add .users 2 true] = some wg'
      ∧ Distinct smallNet wg'.tables := by
  have hkeyed : remoteBehind.Keyed := ⟨by decide, by decide⟩
  have hdistinct : Distinct smallNet remoteBehind := by unfold Distinct; decide
  exact (addresses_distinct_iff hkeyed hdistinct (by decide)).mpr (.inr (by decide)) _ (by decide)

/-- The address of `remotevpn` is the first free one. -/
def remoteNext : Tables Nat Nat where
  users := [⟨0, .absent⟩]
  remotevpn := [⟨0, .wireguard (some 2) true⟩]

/-- The user is given the address of the row of `remotevpn`. -/
theorem remoteNext_clash :
    remoteNext.Keyed ∧ Distinct smallNet remoteNext
      ∧ ∃ wg, initPeers smallNet false false remoteNext = some wg
        ∧ addresses wg.tables.users = [2] ∧ addresses wg.tables.remotevpn = [2]
        ∧ ¬Distinct smallNet wg.tables := by
  refine ⟨⟨by decide, by decide⟩, by unfold Distinct; decide, _, rfl, rfl, rfl, ?_⟩
  unfold Distinct
  decide

end IsardVDI.Vpn
