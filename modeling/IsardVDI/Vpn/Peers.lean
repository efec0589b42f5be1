import IsardVDI.Lib.FirstFree
import IsardVDI.Lib.Machine
import Mathlib.Data.List.Perm.Basic

/-!
# The peers of the users' VPN and their addresses

`init_peers` and `add_peer` of the users' interface. The addresses of the tables `users` and
`remotevpn` come from one network, with one set of reserved addresses in memory. `init_peers`
reserves those of the users, gives one to every user that has none, then reserves those of
`remotevpn` and gives one to every row of it that has none; the new rows are written in batches.

* **`backfill_eq`** — a backfill writes what `fill` says, whatever the size of the batches.
-/

namespace IsardVDI.Vpn

open List

/-- The hosts of `server_net`, in order, and the server's own address. -/
structure Net (A : Type) where
  hosts : List A
  serverIp : A
  nodup : hosts.Nodup

inductive VpnConfig (A : Type)
  /-- no key `vpn` -/
  | absent
  /-- `vpn` is null or has no `wireguard` -/
  | noWireguard
  /-- the `Address`, if it has one, and whether it has `keys` -/
  | wireguard (address : Option A) (keys : Bool)
deriving DecidableEq

structure Row (I A : Type) where
  id : I
  vpn : VpnConfig A
deriving DecidableEq

structure Tables (I A : Type) where
  users : List (Row I A)
  remotevpn : List (Row I A)
deriving DecidableEq

variable {I A : Type} [DecidableEq I]

def VpnConfig.address : VpnConfig A → Option A
  | .wireguard address _ => address
  | .absent | .noWireguard => none

def addresses (rows : List (Row I A)) : List A :=
  rows.filterMap (·.vpn.address)

/-! ## The functions of `wgtools` -/

section

variable [DecidableEq A] (net : Net A)

/-- The first host that is not reserved; `none` is `StopIteration`. -/
def genClientIp (reserved : List A) : Option (A × List A) :=
  FirstFree.allocate net.hosts reserved

def genNewPeer (reserved : List A) (id : I) : Option (Row I A × List A) :=
  (genClientIp net reserved).map fun (ip, reserved) => (⟨id, .wireguard (some ip) true⟩, reserved)

/-- What `init_peers` has to do for a row. -/
inductive Need
  | nothing
  /-- new keys; the address stays -/
  | keys
  | address
deriving DecidableEq

def usersNeed (updateClients : Bool) : VpnConfig A → Need
  | .wireguard _ keys => if updateClients ∨ ¬keys then .keys else .nothing
  | .absent | .noWireguard => .address

/-- A row of `remotevpn`; there the key `vpn` is enough. -/
def remotevpnNeed (updateClients : Bool) : VpnConfig A → Need
  | .wireguard _ _ => if updateClients then .keys else .nothing
  | .noWireguard => .nothing
  | .absent => .address

def newPeer (need : Need) (reserved : List A) (row : Row I A) :
    Option (Option (Row I A) × List A) :=
  match need with
  | .nothing => some (none, reserved)
  | .keys => some (some { row with vpn := .wireguard row.vpn.address true }, reserved)
  | .address => (genNewPeer net reserved row.id).map fun (peer, reserved) => (some peer, reserved)

/-- `r.table(table).get(peer["id"]).update(peer)`: a row that is gone is not recreated. -/
def update (table : List (Row I A)) (peer : Row I A) : List (Row I A) :=
  table.map fun row => if row.id = peer.id then peer else row

def flushPeersBatch (table batch : List (Row I A)) : List (Row I A) :=
  batch.foldl update table

/-- A loop of `init_peers` over the rows it has read, with its `create_peers`. -/
def backfill (need : VpnConfig A → Need) (batchSize : Nat) :
    List (Row I A) → List (Row I A) → List (Row I A) → List A → Option (List (Row I A) × List A)
  | [], createPeers, table, reserved => some (flushPeersBatch table createPeers, reserved)
  | row :: rows, createPeers, table, reserved =>
    match newPeer net (need row.vpn) reserved row with
    | none => none
    | some (peer, reserved) =>
      let createPeers := createPeers ++ peer.toList
      if batchSize ≤ createPeers.length then
        backfill need batchSize rows [] (flushPeersBatch table createPeers) reserved
      else backfill need batchSize rows createPeers table reserved

structure Wg (I A : Type) where
  tables : Tables I A
  reserved : List A

def initPeersBatch : Nat := 100

def Tables.withoutVpn (tables : Tables I A) : Tables I A where
  users := tables.users.map ({ · with vpn := .absent })
  remotevpn := tables.remotevpn.map ({ · with vpn := .absent })

def Tables.atInit (reset : Bool) (tables : Tables I A) : Tables I A :=
  if reset then tables.withoutVpn else tables

def initPeers (updateClients reset : Bool) (tables : Tables I A) : Option (Wg I A) :=
  let tables := tables.atInit reset
  match backfill net (usersNeed updateClients) initPeersBatch tables.users [] tables.users
    (addresses tables.users ++ [net.serverIp]) with
  | none => none
  | some (users, reserved) =>
    -- only now are the addresses of `remotevpn` reserved
    match backfill net (remotevpnNeed updateClients) initPeersBatch tables.remotevpn []
      tables.remotevpn (addresses tables.remotevpn ++ reserved) with
    | none => none
    | some (remotevpn, reserved) => some ⟨⟨users, remotevpn⟩, reserved⟩

inductive Table
  | users
  | remotevpn

def Tables.modify (tables : Tables I A) (change : List (Row I A) → List (Row I A)) :
    Table → Tables I A
  | .users => { tables with users := change tables.users }
  | .remotevpn => { tables with remotevpn := change tables.remotevpn }

/-- `add_peer`, with the result of `up_peer`; every call takes a new address. -/
def addPeer (wg : Wg I A) (table : Table) (id : I) (up : Bool) : Option (Wg I A) :=
  (genNewPeer net wg.reserved id).map fun (peer, reserved) =>
    { tables := if up then wg.tables.modify (update · peer) table else wg.tables
      reserved := reserved }

/-- What happens after `init_peers`. -/
inductive Event (I : Type)
  /-- a row without `vpn` is inserted -/
  | insert (table : Table) (id : I)
  | add (table : Table) (id : I) (up : Bool)

def insertRow (id : I) (table : List (Row I A)) : List (Row I A) :=
  if id ∈ table.map (·.id) then table else table ++ [⟨id, .absent⟩]

def wgUsers : Machine (Wg I A) (Event I) where
  next wg
    | .insert table id => some { wg with tables := wg.tables.modify (insertRow id) table }
    | .add table id up => addPeer net wg table id up

end

/-! ## What a backfill writes -/

open FirstFree

def fill (need : VpnConfig A → Need) : List (Row I A) → List A → List (Row I A)
  | [], _ => []
  | row :: rows, fresh =>
    match need row.vpn, fresh with
    | .nothing, fresh => row :: fill need rows fresh
    | .keys, fresh => { row with vpn := .wireguard row.vpn.address true } :: fill need rows fresh
    | .address, ip :: fresh => ⟨row.id, .wireguard (some ip) true⟩ :: fill need rows fresh
    | .address, [] => row :: fill need rows []

def lacking (need : VpnConfig A → Need) (rows : List (Row I A)) : Nat :=
  rows.countP (need ·.vpn = .address)

section Flush

variable {table done rest createPeers : List (Row I A)} {row peer : Row I A}

theorem ids_update (table : List (Row I A)) (peer : Row I A) :
    (update table peer).map (·.id) = table.map (·.id) := by
  rw [update, map_map]
  refine map_congr_left fun row _ => ?_
  show (if row.id = peer.id then peer else row).id = row.id
  split_ifs with heq
  · exact heq.symm
  · rfl

theorem ids_flush (table batch : List (Row I A)) :
    (flushPeersBatch table batch).map (·.id) = table.map (·.id) := by
  induction batch generalizing table with
  | nil => rfl
  | cons peer batch ih => exact (ih (update table peer)).trans (ids_update table peer)

theorem update_of_notMem (h : peer.id ∉ table.map (·.id)) : update table peer = table := by
  refine (map_congr_left fun row hrow => ?_).trans (map_id table)
  refine if_neg fun heq => h ?_
  rw [← heq]
  exact mem_map_of_mem hrow

theorem flush_append (l r batch : List (Row I A)) :
    flushPeersBatch (l ++ r) batch = flushPeersBatch l batch ++ flushPeersBatch r batch := by
  induction batch generalizing l r with
  | nil => rfl
  | cons peer batch ih =>
    show flushPeersBatch (update (l ++ r) peer) batch = _
    rw [update, map_append]
    exact ih _ _

theorem flush_of_notMem {batch : List (Row I A)}
    (h : ∀ peer ∈ batch, peer.id ∉ table.map (·.id)) : flushPeersBatch table batch = table := by
  induction batch with
  | nil => rfl
  | cons peer batch ih =>
    obtain ⟨hpeer, hbatch⟩ := forall_mem_cons.mp h
    show flushPeersBatch (update table peer) batch = table
    rw [update_of_notMem hpeer]
    exact ih hbatch

theorem flush_turn {newPeer : Option (Row I A)}
    (hnodup : ((done ++ row :: rest).map (·.id)).Nodup)
    (hcreate : ∀ peer ∈ createPeers, peer.id ∈ done.map (·.id))
    (hpeer : ∀ peer ∈ newPeer, peer.id = row.id) :
    flushPeersBatch (done ++ row :: rest) (createPeers ++ newPeer.toList)
      = flushPeersBatch done createPeers ++ newPeer.getD row :: rest := by
  rw [map_append, map_cons] at hnodup
  obtain ⟨-, hrest, hdisjoint⟩ := nodup_append'.mp hnodup
  -- the batch so far has no row from here on
  have hlater : flushPeersBatch (row :: rest) createPeers = row :: rest :=
    flush_of_notMem fun peer hmem hin => hdisjoint (hcreate peer hmem) hin
  have hsplit (l : List (Row I A)) : flushPeersBatch l (createPeers ++ newPeer.toList)
      = flushPeersBatch (flushPeersBatch l createPeers) newPeer.toList := foldl_append
  rw [flush_append, hsplit, hsplit, hlater]
  cases newPeer with
  | none => rfl
  | some peer =>
    have hid : peer.id = row.id := hpeer peer rfl
    have hdone : update (flushPeersBatch done createPeers) peer
        = flushPeersBatch done createPeers := by
      apply update_of_notMem
      rw [ids_flush, hid]
      exact fun hin => hdisjoint hin (.head _)
    have hself : update (row :: rest) peer = peer :: update rest peer := by
      rw [update, map_cons, if_pos hid.symm, update]
    show update (flushPeersBatch done createPeers) peer ++ update (row :: rest) peer = _
    rw [hdone, hself, update_of_notMem (hid ▸ (nodup_cons.mp hrest).1)]
    rfl

end Flush

section Backfill

variable [DecidableEq A] {net : Net A} {need : VpnConfig A → Need} {row : Row I A}
  {rows : List (Row I A)} {reserved : List A}

omit [DecidableEq I] in
theorem newPeer_eq (henough : lacking need (row :: rows) ≤ (free net.hosts reserved).length) :
    ∃ peer reserved', newPeer net (need row.vpn) reserved row = some (peer, reserved')
      ∧ (∀ p ∈ peer, p.id = row.id)
      ∧ lacking need rows ≤ (free net.hosts reserved').length
      ∧ fill need (row :: rows) (free net.hosts reserved)
        = peer.getD row :: fill need rows (free net.hosts reserved')
      ∧ ((free net.hosts reserved).take (lacking need (row :: rows))).reverse ++ reserved
        = ((free net.hosts reserved').take (lacking need rows)).reverse ++ reserved' := by
  cases hneed : need row.vpn with
  | nothing =>
    have hlacking : lacking need (row :: rows) = lacking need rows := by
      simp [lacking, hneed]
    rw [hlacking] at henough ⊢
    exact ⟨none, reserved, rfl, nofun, henough, by simp [fill, hneed], rfl⟩
  | keys =>
    have hlacking : lacking need (row :: rows) = lacking need rows := by
      simp [lacking, hneed]
    rw [hlacking] at henough ⊢
    refine ⟨some _, reserved, rfl, ?_, henough, by simp [fill, hneed], rfl⟩
    rintro p ⟨⟩
    rfl
  | address =>
    have hlacking : lacking need (row :: rows) = lacking need rows + 1 := by
      simp [lacking, hneed]
    rw [hlacking] at henough ⊢
    cases hfree : free net.hosts reserved with
    | nil =>
      rw [hfree] at henough
      cases henough
    | cons ip rest =>
      have hrest : free net.hosts (ip :: reserved) = rest := free_cons net.nodup hfree
      have hnew : newPeer net .address reserved row
          = some (some ⟨row.id, .wireguard (some ip) true⟩, ip :: reserved) := by
        rw [newPeer, genNewPeer, genClientIp, allocate_of_free hfree]
        rfl
      rw [hfree] at henough
      refine ⟨_, _, hnew, ?_, ?_, ?_, ?_⟩
      · rintro p ⟨⟩
        rfl
      · rw [hrest]
        exact Nat.le_of_succ_le_succ henough
      · simp [fill, hneed, hrest]
      · rw [hrest, take_succ_cons, reverse_cons, append_assoc]
        rfl

theorem backfill_append {batchSize : Nat} {done createPeers : List (Row I A)}
    (hnodup : ((done ++ rows).map (·.id)).Nodup)
    (hcreate : ∀ peer ∈ createPeers, peer.id ∈ done.map (·.id))
    (henough : lacking need rows ≤ (free net.hosts reserved).length) :
    backfill net need batchSize rows createPeers (done ++ rows) reserved
      = some (flushPeersBatch done createPeers ++ fill need rows (free net.hosts reserved),
        ((free net.hosts reserved).take (lacking need rows)).reverse ++ reserved) := by
  induction rows generalizing done createPeers reserved with
  | nil =>
    rw [backfill, append_nil, fill, append_nil]
    rfl
  | cons row rows ih =>
    obtain ⟨peer, reserved', hpeer, hid, henough', hfill, hreserved⟩ := newPeer_eq henough
    have hwritten : flushPeersBatch (done ++ row :: rows) (createPeers ++ peer.toList)
        = flushPeersBatch done createPeers ++ peer.getD row :: rows :=
      flush_turn hnodup hcreate hid
    have hpeerId : (peer.getD row).id = row.id := by
      cases peer with
      | none => rfl
      | some peer => exact hid peer rfl
    rw [backfill, hpeer, hfill, hreserved]
    show (if batchSize ≤ (createPeers ++ peer.toList).length then
        backfill net need batchSize rows []
          (flushPeersBatch (done ++ row :: rows) (createPeers ++ peer.toList)) reserved'
      else backfill net need batchSize rows (createPeers ++ peer.toList) (done ++ row :: rows)
        reserved') = _
    split_ifs
    · -- the batch is full: it is written, and the next one begins
      have hids : ((flushPeersBatch done createPeers ++ [peer.getD row]) ++ rows).map (·.id)
          = (done ++ row :: rows).map (·.id) := by
        simp [ids_flush, hpeerId]
      have hbegin : ∀ p ∈ ([] : List (Row I A)),
          p.id ∈ (flushPeersBatch done createPeers ++ [peer.getD row]).map (·.id) := nofun
      rw [hwritten, append_cons _ _ rows, ih (hids ▸ hnodup) hbegin henough',
        append_cons _ _ (fill _ _ _)]
      rfl
    · -- the batch goes on, and the table stays as it was read
      have hturn : flushPeersBatch (done ++ [row]) (createPeers ++ peer.toList)
          = flushPeersBatch done createPeers ++ [peer.getD row] := by
        refine flush_turn ?_ hcreate hid
        rw [append_cons, map_append] at hnodup
        exact (nodup_append'.mp hnodup).1
      rw [append_cons _ _ rows, ih (by rwa [← append_cons]) ?_ henough', hturn, ← append_cons]
      intro p hp
      rw [map_append, mem_append]
      rcases mem_append.mp hp with hold | hnew
      · exact .inl (hcreate p hold)
      · exact .inr (mem_singleton.mpr (hid p (Option.mem_toList.mp hnew)))

theorem backfill_eq {batchSize : Nat} (hnodup : (rows.map (·.id)).Nodup)
    (henough : lacking need rows ≤ (free net.hosts reserved).length) :
    backfill net need batchSize rows [] rows reserved
      = some (fill need rows (free net.hosts reserved),
        ((free net.hosts reserved).take (lacking need rows)).reverse ++ reserved) := by
  have hnone : ∀ peer ∈ ([] : List (Row I A)), peer.id ∈ ([] : List (Row I A)).map (·.id) := nofun
  exact backfill_append hnodup hnone henough

end Backfill

end IsardVDI.Vpn
