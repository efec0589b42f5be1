import IsardVDI.Lib.Worklist

/-!
# What reads through a backing file

Before a disk is purged the worker asks an index of the headers of the pool what reads through it.
The disks that the same purge takes away are covered and do not block it.
-/

namespace IsardVDI.Storage.Dependents

open List

abbrev Path := List Char

/-- `os.path` and the regular expression for a uuid. -/
structure Paths where
  normpath : Path → Path
  dirname : Path → Path
  basename : Path → Path
  join : Path → Path → Path
  searchUuid : Path → Option Path

/-- `_has_protocol`: a colon before any slash. -/
def hasProtocol : Path → Bool
  | [] => false
  | ch :: rest => if ch = '/' then false else if ch = ':' then true else hasProtocol rest

inductive Header where
  | unreadable
  | noBacking
  | backing (raw : Path)
  deriving DecidableEq, Repr

structure Entry where
  uuid : Option Path
  backingRaw : Option Path
  backingPath : Option Path
  backingUuid : Option Path
  readable : Bool
  deriving DecidableEq, Repr

namespace Paths

variable (os : Paths)

def uuidFromPath (path : Path) : Option Path :=
  if path.isEmpty then none else os.searchUuid (os.basename path)

def fullBackingFilename (imagePath : Path) (backingFile : Option Path) : Option Path :=
  match backingFile with
  | none | some [] => none
  | some raw =>
    if raw.head? = some '/' || hasProtocol raw then some (os.normpath raw)
    else some (os.normpath (os.join (os.dirname imagePath) raw))

def readBacking : Header → Option Path × Bool
  | .unreadable => (none, false)
  | .noBacking => (none, true)
  | .backing raw => (some raw, true)

def entry (path : Path) (header : Header) : Entry :=
  let (raw, readable) := readBacking header
  { uuid := os.uuidFromPath path
    backingRaw := raw
    backingPath := os.fullBackingFilename path raw
    backingUuid := raw.bind os.uuidFromPath
    readable }

def readsThrough (e : Entry) (target : Path) (targetUuid : Option Path) : Bool :=
  if targetUuid.isSome && e.backingUuid = targetUuid then true
  else match e.backingRaw with
    | none | some [] => false
    | some raw => raw = target || e.backingPath = some (os.normpath target)

end Paths

structure Pool where
  os : Paths
  paths : List Path
  header : Path → Header

/-- `build_backing_index`, as the items of the dictionary. -/
def Pool.index (pool : Pool) : List (Path × Entry) :=
  pool.paths.dedup.map fun path => (path, pool.os.entry path (pool.header path))

structure Query where
  target : Path
  covered : List Path
  /-- `None` takes every disk for live. -/
  liveUuids : Option (List Path)

def Query.skip (q : Query) (path : Path) : Bool := path ∈ q.covered || path = q.target

def Query.counts (q : Query) (uuid : Option Path) : Bool :=
  match q.liveUuids with
  | none => true
  | some live => uuid.any (· ∈ live)

section Walk

variable (pool : Pool) (q : Query)

/-- The disks that read through a file, without those that are skipped. The uuid in an entry is that
of its path. -/
def readers (path : Path) : List Path :=
  (pool.index.filter fun (p, e) =>
    !q.skip p && pool.os.readsThrough e path (pool.os.uuidFromPath path)).map (·.1)

/-- The files that are walked, the last found first. Every turn takes one from the frontier, and
every file that is walked adds its readers once. -/
def walked (transitive : Bool) : List Path :=
  if transitive then
    Worklist.dfs (readers pool q) (pool.index.length * (pool.index.length + 1) + 2) [] [q.target]
  else [q.target]

def dependentsOf (transitive : Bool) : List Path × List Path :=
  (((walked pool q transitive).flatMap (readers pool q)).dedup.filter fun p =>
      q.counts (pool.os.uuidFromPath p),
    (pool.index.filter fun (p, e) => !q.skip p && !e.readable).map (·.1))

structure BackingInUse where
  dependents : List Path
  blockingUnreadable : List Path

def refuseIfBacksLiveDisks : Except BackingInUse Unit :=
  let (dependents, unreadable) := dependentsOf pool q true
  let blockingUnreadable := unreadable.filter fun p => q.counts (pool.os.uuidFromPath p)
  if dependents.isEmpty && blockingUnreadable.isEmpty then .ok ()
  else .error { dependents, blockingUnreadable }

/-! ## The backing graph -/

def Backs (path p : Path) : Prop :=
  ∃ e, (p, e) ∈ pool.index ∧ pool.os.readsThrough e path (pool.os.uuidFromPath path)

def Through : Path → Path → Prop := Relation.TransGen (Backs pool)

def ThroughKept : Path → Path → Prop :=
  Relation.TransGen fun path p => Backs pool path p ∧ q.skip p = false

/-- A disk that blocks the purge: it is live and not part of it. -/
def Query.Blocks (p : Path) : Prop := q.skip p = false ∧ q.counts (pool.os.uuidFromPath p)

theorem mem_readers {path p : Path} :
    p ∈ readers pool q path ↔ Backs pool path p ∧ q.skip p = false := by
  simp only [readers, mem_map, mem_filter, Bool.and_eq_true, Bool.not_eq_true',
    Prod.exists, exists_and_right, exists_eq_right, Backs]
  constructor
  · rintro ⟨e, hmem, hskip, hreads⟩
    exact ⟨⟨e, hmem, hreads⟩, hskip⟩
  · rintro ⟨⟨e, hmem, hreads⟩, hskip⟩
    exact ⟨e, hmem, hskip, hreads⟩

theorem mem_walked (p : Path) : p ∈ walked pool q true
    ↔ Worklist.Reaches (readers pool q) q.target p := by
  set members : Finset Path := insert q.target (pool.index.map (·.1)).toFinset with hmembers
  have hnext : ∀ a ∈ members, ∀ b ∈ readers pool q a, b ∈ members := by
    intro a _ b hb
    obtain ⟨⟨e, hmem, -⟩, -⟩ := (mem_readers pool q).mp hb
    exact Finset.mem_insert_of_mem (mem_toFinset.mpr (mem_map_of_mem hmem))
  have hlength : ∀ a ∈ members, (readers pool q a).length ≤ pool.index.length := by
    intro a _
    rw [readers, length_map]
    exact length_filter_le _ _
  have hcard : members.card ≤ pool.index.length + 1 := by
    refine (Finset.card_insert_le _ _).trans ?_
    have hfiles := toFinset_card_le (pool.index.map (·.1))
    rw [length_map] at hfiles
    omega
  have hturns : ∑ a ∈ members, (readers pool q a).length
      < pool.index.length * (pool.index.length + 1) + 2 := by
    calc ∑ a ∈ members, (readers pool q a).length
        ≤ members.card * pool.index.length := Finset.sum_le_card_nsmul _ _ _ hlength
      _ ≤ (pool.index.length + 1) * pool.index.length := Nat.mul_le_mul_right _ hcard
      _ < pool.index.length * (pool.index.length + 1) + 2 := by
        rw [Nat.mul_comm]
        omega
  exact (Worklist.dfs_order members (Finset.mem_insert_self _ _) hnext hturns).mem_iff p

theorem mem_dependentsOf (p : Path) : p ∈ (dependentsOf pool q true).1
    ↔ ThroughKept pool q q.target p ∧ q.Blocks pool p := by
  have hedge : (fun a b => b ∈ readers pool q a)
      = fun path p => Backs pool path p ∧ q.skip p = false := by
    funext a b
    exact propext (mem_readers pool q)
  have hreach : (∃ path ∈ walked pool q true, p ∈ readers pool q path)
      ↔ ThroughKept pool q q.target p := by
    rw [ThroughKept, ← hedge, Relation.TransGen.tail'_iff]
    exact exists_congr fun path => and_congr_left fun _ => mem_walked pool q path
  simp only [dependentsOf, mem_filter, mem_dedup, mem_flatMap, hreach, Query.Blocks]
  refine and_congr_right fun hthrough => (and_iff_right ?_).symm
  -- the last disk of the chain is not skipped
  obtain ⟨_, -, -, hskip⟩ := Relation.TransGen.tail'_iff.mp hthrough
  exact hskip

/-- **What the guard lets pass.** -/
theorem refuse_ok_iff : refuseIfBacksLiveDisks pool q = .ok () ↔
    (∀ p, ThroughKept pool q q.target p → ¬ q.Blocks pool p)
      ∧ ∀ p e, (p, e) ∈ pool.index → e.readable = false → ¬ q.Blocks pool p := by
  have hdependents : (dependentsOf pool q true).1 = []
      ↔ ∀ p, ThroughKept pool q q.target p → ¬ q.Blocks pool p := by
    rw [eq_nil_iff_forall_not_mem]
    refine forall_congr' fun p => ?_
    rw [mem_dependentsOf, not_and]
  have hunreadable :
      (dependentsOf pool q true).2.filter (fun p => q.counts (pool.os.uuidFromPath p)) = []
        ↔ ∀ p e, (p, e) ∈ pool.index → e.readable = false → ¬ q.Blocks pool p := by
    rw [eq_nil_iff_forall_not_mem]
    simp only [dependentsOf, mem_filter, mem_map, Prod.exists, exists_and_right,
      exists_eq_right, Bool.and_eq_true, Bool.not_eq_true', Query.Blocks]
    constructor
    · rintro h p e hmem hreadable ⟨hskip, hcounts⟩
      exact h p ⟨⟨e, hmem, hskip, hreadable⟩, hcounts⟩
    · rintro h p ⟨⟨e, hmem, hskip, hreadable⟩, hcounts⟩
      exact h p e hmem hreadable ⟨hskip, hcounts⟩
  rw [← hdependents, ← hunreadable]
  simp only [refuseIfBacksLiveDisks, List.isEmpty_iff, Bool.and_eq_true]
  split_ifs with h
  · exact iff_of_true rfl h
  · exact iff_of_false not_false h

/-- **The guard is complete** for a target exactly when a live disk that reads through it at any
depth, over covered disks or not, comes with one that does so over disks that are kept, or with a
live disk that cannot be read. -/
theorem guard_complete_iff :
    (refuseIfBacksLiveDisks pool q = .ok () →
        ∀ p, Through pool q.target p → ¬ q.Blocks pool p)
      ↔ ((∃ p, Through pool q.target p ∧ q.Blocks pool p) →
        (∃ p, ThroughKept pool q q.target p ∧ q.Blocks pool p)
          ∨ ∃ p e, (p, e) ∈ pool.index ∧ e.readable = false ∧ q.Blocks pool p) := by
  rw [refuse_ok_iff]
  constructor
  · rintro h ⟨p, hthrough, hblocks⟩
    by_contra hnone
    rw [not_or] at hnone
    refine h ⟨fun p' hkept hb => hnone.1 ⟨p', hkept, hb⟩, fun p' e hmem hreadable hb => ?_⟩ p
      hthrough hblocks
    exact hnone.2 ⟨p', e, hmem, hreadable, hb⟩
  · rintro h ⟨hkept, hreadable⟩ p hthrough hblocks
    rcases h ⟨p, hthrough, hblocks⟩ with ⟨p', hp', hb⟩ | ⟨p', e, hmem, he, hb⟩
    · exact hkept p' hp' hb
    · exact hreadable p' e hmem he hb

end Walk

/-! ## A covered disk in between -/

/-- `_UUID_RE`. -/
def isUuid (s : Path) : Bool :=
  s.length = 36 ∧ ∀ x ∈ s.zipIdx, if x.2 ∈ [8, 13, 18, 23] then x.1 = '-'
    else x.1 ∈ "0123456789abcdefABCDEF".toList

/-- Names without directories. -/
def flatNames : Paths where
  normpath path := path
  dirname _ := []
  basename path := path
  join _ path := path
  searchUuid path := (path.tails.map (·.take 36)).find? isUuid

def disk (digit : Char) : Path := "00000000-0000-0000-0000-00000000000".toList ++ [digit]

/-- The disk `d` reads through `c`, and `c` through `b`. -/
def chain : Pool where
  os := flatNames
  paths := [disk 'b', disk 'c', disk 'd']
  header path :=
    if path = disk 'c' then .backing (disk 'b')
    else if path = disk 'd' then .backing (disk 'c') else .noBacking

def purge : Query where
  target := disk 'b'
  covered := [disk 'b', disk 'c']
  liveUuids := some [disk 'd']

/-- With `c` covered the guard lets `b` go, and `d`, which is live and stays, reads through it. -/
theorem covered_hides_live :
    refuseIfBacksLiveDisks chain purge = .ok () ∧ Through chain purge.target (disk 'd')
      ∧ purge.Blocks chain (disk 'd') := by
  have hnone : (dependentsOf chain purge true) = ([], []) := by decide +kernel
  refine ⟨by rw [refuseIfBacksLiveDisks, hnone]; rfl, ?_, by decide +kernel, by decide +kernel⟩
  have hc : Backs chain (disk 'b') (disk 'c') := ⟨_, .tail _ (.head _), by decide +kernel⟩
  have hd : Backs chain (disk 'c') (disk 'd') := ⟨_, .tail _ (.tail _ (.head _)), by decide +kernel⟩
  exact (Relation.TransGen.single hc).tail hd

end IsardVDI.Storage.Dependents
