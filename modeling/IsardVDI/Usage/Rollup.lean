import IsardVDI.Lib.Grouping
import IsardVDI.Lib.Keyed
import IsardVDI.Usage.Retention

/-!
# The rollup of `usage_consumption`

`rollup.py`: the rows of a scan are grouped by item and bucket, and each group is replaced by one
row at the bucket's date that carries the sum of its `inc`. The groups are made from the rows the
scan returned; they are written one after the other, each at the primary key of its bucket.

* **`balance_processGroup`** — a group loses what it holds exactly when its bucket is at the key of
  a row that a later group deletes.
-/

namespace IsardVDI.Usage

open List

/-- The fields `gen_pk` and `bucket_pk` hash beside the date. -/
structure Item where
  itemId : String
  itemType : String
  itemConsumer : String
  deriving DecidableEq, Repr

/-- A row of `usage_consumption`; a parameter that is missing from `inc` counts nothing. -/
structure Row (K V A : Type) where
  item : Item
  date : Int
  itemConsumerCategoryId : Option String
  itemName : Option String
  abs : A
  inc : K → V
  granularity : Option Tier

variable {K V A : Type}

/-- The hash is taken to be injective: the key is what it hashes. -/
def bucketPk (item : Item) (bucketDate : Int) : Item × Int :=
  (item, bucketDate)

def Row.pk (row : Row K V A) : Item × Int :=
  bucketPk row.item row.date

structure Table (K V A : Type) where
  rows : List (Row K V A)
  nodup : (rows.map Row.pk).Nodup

def Table.delete (pks : List (Item × Int)) (table : Table K V A) : Table K V A where
  rows := table.rows.filter (·.pk ∉ pks)
  nodup := table.nodup.sublist (List.filter_sublist.map Row.pk)

def Table.replace (row : Row K V A) (table : Table K V A) : Table K V A where
  rows := Keyed.upsert Row.pk table.rows row
  nodup := Keyed.nodup_upsert table.nodup row

/-- An unordered cursor: what a query selects, in some order. -/
structure Cursor (α : Type) where
  fetch : List α → List α
  perm : ∀ selected, (fetch selected).Perm selected

def Row.consolidated (item : Item) (date : Int) (value : Int) : Row Unit Int Unit where
  item := item
  date := date
  itemConsumerCategoryId := none
  itemName := none
  abs := ()
  inc := fun _ => value
  granularity := none

/-- An entry of the dictionary of a pass: a bucket's key and the rows read for it. -/
abbrev Group (K V A : Type) := (Item × Int) × List (Row K V A)

def bucketKey (row : Row K V A) (tier : Tier) : Except BucketError (Item × Int) :=
  (bucketFor row.date tier).map fun bucket => (row.item, bucket)

/-- The loop over the cursor of `_scan_window` and of `run_backfill`. -/
def collect (retention : UsageRetentionConfig) (now : Int) :
    List (Group K V A) → List (Row K V A) → Except BucketError (List (Group K V A))
  | groups, [] => .ok groups
  | groups, row :: rows =>
    match classifyTier retention now row.date with
    | .daily => collect retention now groups rows
    | tier => do
      let key ← bucketKey row tier
      collect retention now (Grouping.push key row groups) rows

/-- `max(sources, key=lambda s: s["date"])`: the first of the latest ones. -/
def latest (first : Row K V A) (sources : List (Row K V A)) : Row K V A :=
  sources.foldl (fun best source => if best.date < source.date then source else best) first

variable (retention : UsageRetentionConfig) (now : Int)

section

variable [AddCommGroup V]

def aggregateInc (rows : List (Row K V A)) (parameter : K) : V :=
  (rows.map (·.inc parameter)).sum

def buildBucketRow (key : Item × Int) (first : Row K V A) (sources : List (Row K V A))
    (tier : Tier) : Row K V A where
  item := key.1
  date := key.2
  itemConsumerCategoryId := (latest first sources).itemConsumerCategoryId
  itemName := (latest first sources).itemName
  abs := (latest first sources).abs
  inc := aggregateInc (first :: sources)
  granularity := some tier

def processGroup (table : Table K V A) : Group K V A → Table K V A
  | (_, []) => table
  | (key, first :: sources) =>
    match classifyTier retention now first.date with
    | .daily => table
    | .delete => table.delete ((first :: sources).map Row.pk)
    | tier =>
      if sources = [] ∧ first.date = key.2 ∧ first.granularity = some tier then table
      else
        let newRow := buildBucketRow key first sources tier
        -- the row that already sits at the bucket's key is left to the replacing insert
        let deletePks := ((first :: sources).map Row.pk).filter (· ≠ newRow.pk)
        (table.delete deletePks).replace newRow

def processGroups (groups : List (Group K V A)) (table : Table K V A) : Table K V A :=
  groups.foldl (processGroup retention now) table

end

/-! ## The groups of a scan

Where no row has the delete tier the loop returns the dictionary; a row that has it ends the
loop. -/

def rolled (row : Row K V A) : Bool :=
  classifyTier retention now row.date ≠ .daily

def rowKey (row : Row K V A) : Item × Int :=
  (row.item, bucketOf retention now row.date)

def groupsOf (scan : List (Row K V A)) : List (Group K V A) :=
  Grouping.group (rowKey retention now) (scan.filter (rolled retention now))

/-- What the tiers leave to be rolled up. -/
abbrev Bucketed (date : Int) : Prop :=
  classifyTier retention now date ≠ .daily ∧ classifyTier retention now date ≠ .delete

abbrev Undeleted (scan : List (Row K V A)) : Prop :=
  ∀ row ∈ scan, classifyTier retention now row.date ≠ .delete

variable {retention : UsageRetentionConfig} {now : Int} {table : Table K V A} {row : Row K V A}
  {sources scan : List (Row K V A)} {groups : List (Group K V A)} {key pk : Item × Int}

theorem bucketKey_eq (htier : classifyTier retention now row.date ≠ .delete) :
    bucketKey row (classifyTier retention now row.date) = .ok (rowKey retention now row) := by
  unfold bucketKey
  rw [bucketFor_eq htier]
  rfl

theorem collect_eq (h : Undeleted retention now scan) (groups : List (Group K V A)) :
    collect retention now groups scan
      = .ok ((scan.filter (rolled retention now)).foldl
          (fun groups row => Grouping.push (rowKey retention now row) row groups) groups) := by
  induction scan generalizing groups with
  | nil => rfl
  | cons row scan ih =>
    obtain ⟨hrow, hscan⟩ := forall_mem_cons.mp h
    have hkey := bucketKey_eq hrow
    rw [collect]
    cases htier : classifyTier retention now row.date with
    | daily =>
      rw [filter_cons_of_neg (by simp [rolled, htier])]
      exact ih hscan groups
    | delete => exact absurd htier hrow
    | _ =>
      rw [htier] at hkey
      rw [filter_cons_of_pos (by simp [rolled, htier]), foldl_cons]
      simp only [hkey]
      exact ih hscan _

theorem collect_delete (h : ∃ row ∈ scan, classifyTier retention now row.date = .delete)
    (groups : List (Group K V A)) :
    collect retention now groups scan = .error (.noBoundary .delete) := by
  induction scan generalizing groups with
  | nil => simp at h
  | cons row scan ih =>
    rw [collect]
    cases htier : classifyTier retention now row.date with
    | delete => rfl
    | daily => exact ih (by simpa [htier] using h) groups
    | _ => exact ih (by simpa [htier] using h) _

abbrev sourcesOf (groups : List (Group K V A)) : List (Row K V A) :=
  groups.flatMap Prod.snd

abbrev pksOf (groups : List (Group K V A)) : List (Item × Int) :=
  (sourcesOf groups).map Row.pk

theorem mem_pksOf : pk ∈ pksOf groups ↔ ∃ g ∈ groups, pk ∈ g.2.map Row.pk := by
  rw [pksOf, map_flatMap, mem_flatMap]

theorem mem_pksOf_cons {g : Group K V A} :
    pk ∈ pksOf (g :: groups) ↔ pk ∈ g.2.map Row.pk ∨ pk ∈ pksOf groups := by
  rw [pksOf, sourcesOf, flatMap_cons, map_append, mem_append]

/-- The groups are a dictionary of rows with different primary keys. What is at the key of a bucket
was read by the scan, and where it belongs to that bucket it is still there. -/
structure Pending (retention : UsageRetentionConfig) (now : Int) (table : Table K V A)
    (groups : List (Group K V A)) : Prop where
  keys : (groups.map Prod.fst).Nodup
  pks : (pksOf groups).Nodup
  nonempty : ∀ g ∈ groups, g.2 ≠ []
  tier : ∀ source ∈ sourcesOf groups, Bucketed retention now source.date
  item : ∀ g ∈ groups, ∀ source ∈ g.2, source.item = g.1.1
  known : ∀ g ∈ groups, ∀ row ∈ table.rows, row.pk = g.1 → row.pk ∈ pksOf groups
  own : ∀ g ∈ groups, ∀ source ∈ g.2, source.pk = g.1 → source ∈ table.rows

theorem Pending.disjoint (h : Pending retention now table ((key, sources) :: groups))
    (hin : pk ∈ sources.map Row.pk) : pk ∉ pksOf groups := by
  have hpks := h.pks
  rw [pksOf, sourcesOf, flatMap_cons, map_append, nodup_append'] at hpks
  exact hpks.2.2 hin

/-! The scan returns rows of the table, each once; a row at the key of a bucket is taken to be one
of them. -/

theorem sourcesOf_groupsOf_perm (scan : List (Row K V A)) :
    (sourcesOf (groupsOf retention now scan)).Perm (scan.filter (rolled retention now)) :=
  Grouping.flatMap_group_perm _

theorem mem_sourcesOf_groupsOf :
    row ∈ sourcesOf (groupsOf retention now scan)
      ↔ row ∈ scan ∧ classifyTier retention now row.date ≠ .daily := by
  rw [(sourcesOf_groupsOf_perm scan).mem_iff, mem_filter, rolled, decide_eq_true_eq]

theorem mem_groupsOf (h : (key, sources) ∈ groupsOf retention now scan) :
    sources ≠ [] ∧ sources
      = (scan.filter (rolled retention now)).filter (rowKey retention now · = key) := by
  obtain ⟨rfl, row, hrow, hkey⟩ := Grouping.mem_group.mp h
  exact ⟨ne_nil_of_mem (mem_filter.mpr ⟨hrow, decide_eq_true hkey⟩), rfl⟩

theorem rowKey_of_mem_groupsOf (h : (key, sources) ∈ groupsOf retention now scan)
    (hrow : row ∈ sources) : rowKey retention now row = key := by
  rw [(mem_groupsOf h).2] at hrow
  exact of_decide_eq_true (mem_filter.mp hrow).2

theorem date_le_of_pk {other : Row K V A} (h : other.pk = rowKey retention now row) :
    other.date ≤ row.date := by
  rw [show other.date = bucketOf retention now row.date from congrArg Prod.snd h]
  exact bucketOf_le ..

theorem pending_groupsOf {p : Row K V A → Bool} (hperm : scan.Perm (table.rows.filter p))
    (hdelete : Undeleted retention now scan)
    (hknown : ∀ row ∈ scan, classifyTier retention now row.date ≠ .daily → ∀ other ∈ table.rows,
      other.pk = rowKey retention now row → other ∈ scan) :
    Pending retention now table (groupsOf retention now scan) where
  keys := Grouping.nodup_group _
  pks := by
    have hpks : (scan.map Row.pk).Nodup := by
      rw [(hperm.map Row.pk).nodup_iff]
      exact table.nodup.sublist (filter_sublist.map _)
    rw [((sourcesOf_groupsOf_perm scan).map Row.pk).nodup_iff]
    exact hpks.sublist (filter_sublist.map _)
  nonempty := fun g hg => (mem_groupsOf hg).1
  tier := by
    intro source hsource
    obtain ⟨hscan, hdaily⟩ := mem_sourcesOf_groupsOf.mp hsource
    exact ⟨hdaily, hdelete source hscan⟩
  item := fun g hg source hsource => congrArg Prod.fst (rowKey_of_mem_groupsOf hg hsource)
  known := by
    intro g hg other hother hpk
    obtain ⟨first, hfirst⟩ := exists_mem_of_ne_nil _ (mem_groupsOf hg).1
    have hsource : first ∈ sourcesOf (groupsOf retention now scan) :=
      mem_flatMap.mpr ⟨g, hg, hfirst⟩
    obtain ⟨hscan, hdaily⟩ := mem_sourcesOf_groupsOf.mp hsource
    have hkey := hpk.trans (rowKey_of_mem_groupsOf hg hfirst).symm
    refine mem_map.mpr ⟨other, mem_sourcesOf_groupsOf.mpr ⟨?_, ?_⟩, rfl⟩
    · exact hknown first hscan hdaily other hother hkey
    · exact not_daily_of_le hdaily (hdelete first hscan) (date_le_of_pk hkey)
  own := by
    intro g hg source hsource _
    have hmem : source ∈ sourcesOf (groupsOf retention now scan) :=
      mem_flatMap.mpr ⟨g, hg, hsource⟩
    exact mem_of_mem_filter (hperm.mem_iff.mp (mem_sourcesOf_groupsOf.mp hmem).1)

variable {g g' later : Group K V A}

/-! Which groups come after which: seen from the first group, and from the groups after it. -/

theorem mem_of_after_head (hfresh : g.1 ∉ groups.map Prod.fst) (hlater : later ∈ g :: groups)
    (hsub : [g.1, later.1].Sublist ((g :: groups).map Prod.fst)) : later ∈ groups := by
  rw [map_cons, cons_sublist_cons, singleton_sublist] at hsub
  rcases mem_cons.mp hlater with rfl | hlater
  · exact absurd hsub hfresh
  · exact hlater

theorem after_of_mem_tail (hfresh : g.1 ∉ groups.map Prod.fst) (hg' : g' ∈ groups)
    (hlater : later ∈ g :: groups)
    (hsub : [g'.1, later.1].Sublist ((g :: groups).map Prod.fst)) :
    later ∈ groups ∧ [g'.1, later.1].Sublist (groups.map Prod.fst) := by
  have hne : g'.1 ≠ g.1 := fun heq => hfresh (heq ▸ mem_map_of_mem hg')
  have hrest := hsub.of_cons_of_ne hne
  rcases mem_cons.mp hlater with rfl | hlater
  · exact absurd (hrest.subset (.tail _ (.head _))) hfresh
  · exact ⟨hlater, hrest⟩
section Sums

variable [AddCommGroup V] (item : Item) (parameter : K)

/-! ## One group

The row at a bucket's key carries the sum of the group, whether it was written or was the group. -/

/-- What a row adds to the sum of a parameter over the rows of an item. -/
def Row.share (item : Item) (parameter : K) (row : Row K V A) : V :=
  if row.item = item then row.inc parameter else 0

def Table.total (table : Table K V A) (item : Item) (parameter : K) : V :=
  (table.rows.map (Row.share item parameter)).sum

theorem sum_share {owner : Item} (hitem : ∀ source ∈ sources, source.item = owner) :
    (sources.map (Row.share item parameter)).sum
      = if owner = item then aggregateInc sources parameter else 0 := by
  split_ifs with heq
  · refine congrArg sum (map_congr_left fun source hsource => ?_)
    exact if_pos ((hitem source hsource).trans heq)
  · refine sum_eq_zero fun x hx => ?_
    obtain ⟨source, hsource, rfl⟩ := mem_map.mp hx
    exact if_neg fun h => heq ((hitem source hsource).symm.trans h)

theorem share_buildBucketRow {first : Row K V A}
    (hitem : ∀ source ∈ first :: sources, source.item = key.1) (tier : Tier) :
    (buildBucketRow key first sources tier).share item parameter
      = ((first :: sources).map (Row.share item parameter)).sum :=
  (sum_share item parameter hitem).symm

/-- The sources have given way to one bucket under the key, with their sum. -/
def Merged (table : Table K V A) (key : Item × Int) (sources rows : List (Row K V A)) :
    Prop :=
  ∃ bucket : Row K V A, bucket.pk = key
    ∧ (∀ item parameter, bucket.share item parameter
      = (sources.map (Row.share item parameter)).sum)
    ∧ ∀ row, row ∈ rows
      ↔ row = bucket ∨ row ∈ table.rows ∧ row.pk ≠ key ∧ row.pk ∉ sources.map Row.pk

theorem mem_processGroup (hne : sources ≠ [])
    (htier : ∀ source ∈ sources, Bucketed retention now source.date)
    (hitem : ∀ source ∈ sources, source.item = key.1)
    (hin : ∀ source ∈ sources, source.pk = key → source ∈ table.rows) :
    Merged table key sources (processGroup retention now table (key, sources)).rows := by
  match sources, hne with
  | first :: sources, _ =>
    obtain ⟨hdaily, hdelete⟩ := htier first (.head _)
    -- what both bucket tiers do
    have hturn (tier : Tier) : Merged table key (first :: sources)
        (if sources = [] ∧ first.date = key.2 ∧ first.granularity = some tier then table
          else (table.delete (((first :: sources).map Row.pk).filter
            (· ≠ (buildBucketRow key first sources tier).pk))).replace
            (buildBucketRow key first sources tier)).rows := by
      split_ifs with hskip
      · obtain ⟨rfl, hdate, -⟩ := hskip
        have hpk : first.pk = key := Prod.ext (hitem first (.head _)) hdate
        have hfirst := hin first (.head _) hpk
        refine ⟨first, hpk, fun item parameter => by simp, fun row => ?_⟩
        have huniq : row ∈ table.rows → row.pk = key → row = first := fun hrow hkey =>
          inj_on_of_nodup_map table.nodup hrow hfirst (hkey.trans hpk.symm)
        grind
      · refine ⟨buildBucketRow key first sources tier, rfl,
          fun item parameter => share_buildBucketRow item parameter hitem tier, fun row => ?_⟩
        have hpk : (buildBucketRow key first sources tier).pk = key := rfl
        simp only [Table.replace, Table.delete, Keyed.mem_upsert, hpk, mem_filter]
        grind
    rw [processGroup]
    cases h : classifyTier retention now first.date with
    | daily => exact absurd h hdaily
    | delete => exact absurd h hdelete
    | weekly => exact hturn .weekly
    | monthly => exact hturn .monthly

/-! ## A pass

A row of the table counts at its value as long as no group still to be written holds its key; the
rows of those groups count at the value the scan read. Writing a group keeps that balance unless the
bucket is put where a later group deletes. -/

def balance (table : Table K V A) (groups : List (Group K V A)) : V :=
  ((table.rows.filter (·.pk ∉ pksOf groups)).map (Row.share item parameter)).sum
    + ((sourcesOf groups).map (Row.share item parameter)).sum

/-- What the groups lose whose bucket a later group deletes. -/
def lost : List (Group K V A) → V
  | [] => 0
  | g :: groups =>
    (if g.1 ∈ pksOf groups then (g.2.map (Row.share item parameter)).sum else 0)
      + lost groups

namespace Pending

section

variable (h : Pending retention now table ((key, sources) :: groups))

include h

theorem head :
    Merged table key sources (processGroup retention now table (key, sources)).rows :=
  mem_processGroup (h.nonempty _ (.head _))
    (fun source hsource => h.tier source (mem_append_left _ hsource))
    (h.item _ (.head _)) (h.own _ (.head _))

theorem tail : Pending retention now (processGroup retention now table (key, sources)) groups := by
  obtain ⟨bucket, hpk, -, hmem⟩ := h.head
  obtain ⟨hkey, hkeys⟩ := nodup_cons.mp (map_cons ▸ h.keys)
  have hother : ∀ g ∈ groups, g.1 ≠ key := fun g hg heq =>
    hkey (mem_map.mpr ⟨g, hg, heq⟩)
  refine
    { keys := hkeys
      pks := ?pks
      nonempty := fun g hg => h.nonempty g (.tail _ hg)
      tier := fun source hsource => h.tier source (mem_append_right _ hsource)
      item := fun g hg => h.item g (.tail _ hg)
      known := ?known
      own := ?own }
  case pks =>
    refine h.pks.sublist (Sublist.map _ ?_)
    exact sublist_append_right _ _
  case known =>
    intro g hg row hrow hkeyed
    -- another bucket's key: the row was there before, and not in the group that was written
    rcases (hmem row).mp hrow with rfl | ⟨hrow, -, hnot⟩
    · exact absurd (hkeyed.symm.trans hpk) (hother g hg)
    · have hknown := h.known g (.tail _ hg) row hrow hkeyed
      exact (mem_pksOf_cons.mp hknown).resolve_left hnot
  case own =>
    intro g hg source hsource hkeyed
    have hmine : source.pk ∈ pksOf groups :=
      mem_map.mpr ⟨source, mem_flatMap.mpr ⟨g, hg, hsource⟩, rfl⟩
    refine (hmem source).mpr (.inr ⟨h.own g (.tail _ hg) source hsource hkeyed, ?_, ?_⟩)
    · rw [hkeyed]
      exact hother g hg
    · exact fun hin => h.disjoint hin hmine

theorem balance_processGroup :
    balance item parameter (processGroup retention now table (key, sources)) groups
        + (if key ∈ pksOf groups then (sources.map (Row.share item parameter)).sum else 0)
      = balance item parameter table ((key, sources) :: groups) := by
  obtain ⟨bucket, hpk, hshare, hmem⟩ := h.head
  set table' := processGroup retention now table (key, sources) with htable'
  have hnodup (t : Table K V A) (pks : List (Item × Int)) :
      (t.rows.filter (·.pk ∉ pks)).Nodup := (Nodup.of_map _ t.nodup).filter _
  have hall : ∀ row ∈ table.rows, row.pk = key →
      row.pk ∈ pksOf ((key, sources) :: groups) := h.known _ (.head _)
  -- the rows that no group holds any more are the ones from before, and the bucket if it stays
  have hperm : (table'.rows.filter (·.pk ∉ pksOf groups)).Perm
      ((if key ∈ pksOf groups then [] else [bucket])
        ++ table.rows.filter (·.pk ∉ pksOf ((key, sources) :: groups))) := by
    have hcons (row : Row K V A) :
        row.pk ∉ pksOf ((key, sources) :: groups)
          ↔ row.pk ∉ sources.map Row.pk ∧ row.pk ∉ pksOf groups := by
      rw [mem_pksOf_cons, not_or]
    have hfresh : key ∉ pksOf groups → bucket ∉ table.rows.filter
        (·.pk ∉ pksOf ((key, sources) :: groups)) := by
      intro _ hin
      rw [mem_filter, decide_eq_true_eq] at hin
      exact hin.2 (hall bucket hin.1 hpk)
    refine (perm_ext_iff_of_nodup (hnodup _ _) ?_).mpr fun row => ?_
    · split_ifs with hkey
      · exact hnodup _ _
      · exact nodup_cons.mpr ⟨hfresh hkey, hnodup _ _⟩
    · rw [mem_filter, hmem, mem_append, mem_filter, decide_eq_true_eq, decide_eq_true_eq, hcons]
      have hput : (row ∈ if key ∈ pksOf groups then [] else [bucket])
          ↔ row = bucket ∧ key ∉ pksOf groups := by
        split_ifs with hkey <;> simp [hkey]
      rw [hput]
      constructor
      · rintro ⟨rfl | ⟨hrow, -, hnot⟩, hlater⟩
        · exact .inl ⟨rfl, hpk ▸ hlater⟩
        · exact .inr ⟨hrow, hnot, hlater⟩
      · rintro (⟨rfl, hlater⟩ | ⟨hrow, hnot⟩)
        · exact ⟨.inl rfl, hpk ▸ hlater⟩
        · have hkey : row.pk ≠ key := fun hkey => (hcons row).mpr hnot (hall row hrow hkey)
          exact ⟨.inr ⟨hrow, hkey, hnot.1⟩, hnot.2⟩
  have hsources : ((sourcesOf ((key, sources) :: groups)).map (Row.share item parameter)).sum
      = (sources.map (Row.share item parameter)).sum
        + ((sourcesOf groups).map (Row.share item parameter)).sum := by
    rw [sourcesOf, flatMap_cons, map_append, sum_append]
  unfold balance
  rw [(hperm.map _).sum_eq, map_append, sum_append, hsources]
  split_ifs
  · simp only [map_nil, sum_nil]
    abel
  · simp only [map_cons, map_nil, sum_cons, sum_nil, hshare]
    abel

end

variable (h : Pending retention now table groups)

include h

theorem balance_processGroups :
    (processGroups retention now groups table).total item parameter + lost item parameter groups
      = balance item parameter table groups := by
  induction groups generalizing table with
  | nil => simp [processGroups, Table.total, balance, lost]
  | cons g groups ih =>
    rw [← h.balance_processGroup, ← ih h.tail, lost, add_comm (ite _ _ _), ← add_assoc]
    rfl

/-! Which rows a pass keeps, brings and puts. -/

theorem mem_or_key (hrow : row ∈ (processGroups retention now groups table).rows) :
    row ∈ table.rows ∨ row.pk ∈ groups.map Prod.fst := by
  induction groups generalizing table with
  | nil => exact .inl hrow
  | cons g groups ih =>
    obtain ⟨bucket, hpk, -, hmem⟩ := h.head
    rcases ih h.tail hrow with hrow | hkey
    · rcases (hmem row).mp hrow with rfl | ⟨hrow, -⟩
      · exact .inr (hpk ▸ .head _)
      · exact .inl hrow
    · exact .inr (.tail _ hkey)

theorem mem_of_untouched (hrow : row ∈ table.rows) (hkey : row.pk ∉ groups.map Prod.fst)
    (hsource : row.pk ∉ pksOf groups) :
    row ∈ (processGroups retention now groups table).rows := by
  induction groups generalizing table with
  | nil => exact hrow
  | cons g groups ih =>
    obtain ⟨bucket, -, -, hmem⟩ := h.head
    rw [map_cons, mem_cons, not_or] at hkey
    rw [mem_pksOf_cons, not_or] at hsource
    exact ih h.tail ((hmem row).mpr (.inr ⟨hrow, hkey.1, hsource.1⟩)) hkey.2 hsource.2

theorem exists_bucket (hkey : key ∈ groups.map Prod.fst)
    (hsource : key ∉ pksOf groups) :
    ∃ row ∈ (processGroups retention now groups table).rows, row.pk = key := by
  induction groups generalizing table with
  | nil => cases hkey
  | cons g groups ih =>
    obtain ⟨bucket, hpk, -, hmem⟩ := h.head
    rw [mem_pksOf_cons, not_or] at hsource
    rw [map_cons, mem_cons] at hkey
    obtain ⟨hfresh, -⟩ := nodup_cons.mp (map_cons ▸ h.keys)
    rcases hkey with rfl | hkey
    · have hbucket := (hmem bucket).mpr (.inl rfl)
      exact ⟨bucket, h.tail.mem_of_untouched hbucket (hpk ▸ hfresh) (hpk ▸ hsource.2), hpk⟩
    · exact ih h.tail hkey hsource.2

end Pending

/-- **A pass.** Where the rows of the groups are rows of the table, the sum of `inc` falls by what
the groups lose. -/
theorem total_processGroups (h : Pending retention now table groups)
    (hin : ∀ source ∈ sourcesOf groups, source ∈ table.rows) :
    (processGroups retention now groups table).total item parameter + lost item parameter groups
      = table.total item parameter := by
  rw [h.balance_processGroups]
  have hnodup := Nodup.of_map _ table.nodup
  -- what the groups hold of the table is the rows they were made from
  have hheld : (table.rows.filter (·.pk ∈ pksOf groups)).Perm (sourcesOf groups) := by
    refine (perm_ext_iff_of_nodup (hnodup.filter _) (h.pks.of_map)).mpr fun row => ?_
    rw [mem_filter, decide_eq_true_eq, mem_map]
    constructor
    · rintro ⟨hrow, source, hsource, hpk⟩
      exact inj_on_of_nodup_map table.nodup (hin source hsource) hrow hpk ▸ hsource
    · exact fun hrow => ⟨hin row hrow, row, hrow, rfl⟩
  have hperm : (table.rows.filter (·.pk ∉ pksOf groups) ++ sourcesOf groups).Perm table.rows := by
    refine (perm_append_comm.trans (hheld.symm.append_right _)).trans ?_
    simpa using filter_append_perm (fun row => decide (row.pk ∈ pksOf groups)) table.rows
  rw [balance, ← sum_append, ← map_append, (hperm.map _).sum_eq, Table.total]

theorem lost_eq_zero (hkeys : (groups.map Prod.fst).Nodup)
    (hown : ∀ g ∈ groups, ∀ later ∈ groups, g.1 ∈ later.2.map Row.pk → later.1 = g.1) :
    lost item parameter groups = 0 := by
  induction groups with
  | nil => rfl
  | cons g groups ih =>
    obtain ⟨hfresh, hkeys⟩ := nodup_cons.mp (map_cons ▸ hkeys)
    have hnot : g.1 ∉ pksOf groups := by
      rw [mem_pksOf]
      rintro ⟨later, hlater, hin⟩
      exact hfresh (mem_map.mpr ⟨later, hlater, hown g (.head _) later (.tail _ hlater) hin⟩)
    rw [lost, if_neg hnot, zero_add]
    exact ih hkeys fun g hg later hlater => hown g (.tail _ hg) later (.tail _ hlater)

/-- The groups that lose something are followed by one that holds a row at their key; where there is
at most one such group of an item, nothing is lost when that group holds nothing. -/
theorem lost_eq_zero_iff (hkeys : (groups.map Prod.fst).Nodup)
    (hitem : ∀ g ∈ groups, ∀ source ∈ g.2, source.item = g.1.1)
    (hone : ∀ g ∈ groups, ∀ g' ∈ groups, g.1.1 = item → g'.1.1 = item →
      (∃ later ∈ groups, later.1 ≠ g.1 ∧ g.1 ∈ later.2.map Row.pk) →
      (∃ later ∈ groups, later.1 ≠ g'.1 ∧ g'.1 ∈ later.2.map Row.pk) → g.1 = g'.1) :
    lost item parameter groups = 0
      ↔ ∀ g ∈ groups, g.1.1 = item → ∀ later ∈ groups,
        [g.1, later.1].Sublist (groups.map Prod.fst) → g.1 ∈ later.2.map Row.pk →
          aggregateInc g.2 parameter = 0 := by
  induction groups with
  | nil => simp [lost]
  | cons g groups ih =>
    obtain ⟨hfresh, hkeys⟩ := nodup_cons.mp (map_cons ▸ hkeys)
    have ih := ih hkeys (fun g hg => hitem g (.tail _ hg))
      fun g₁ hg₁ g₂ hg₂ h₁ h₂ ⟨later₁, hlater₁, hover₁⟩ ⟨later₂, hlater₂, hover₂⟩ =>
        hone g₁ (.tail _ hg₁) g₂ (.tail _ hg₂) h₁ h₂ ⟨later₁, .tail _ hlater₁, hover₁⟩
          ⟨later₂, .tail _ hlater₂, hover₂⟩
    have hsum := sum_share item parameter (hitem g (.head _))
    by_cases hover : g.1.1 = item ∧ g.1 ∈ pksOf groups
    · obtain ⟨hown, hpk⟩ := hover
      obtain ⟨later, hlater, hin⟩ := mem_pksOf.mp hpk
      have hne : later.1 ≠ g.1 := fun heq => hfresh (heq ▸ mem_map_of_mem hlater)
      -- the head is the one group: no group after it loses anything
      have hvoid : ∀ g' ∈ groups, g'.1.1 = item → ∀ later' ∈ groups,
          [g'.1, later'.1].Sublist (groups.map Prod.fst) → g'.1 ∉ later'.2.map Row.pk := by
        intro g' hg' hown' later' hlater' hsub hin'
        have hne' : later'.1 ≠ g'.1 := by
          have := hkeys.sublist hsub
          simp only [nodup_cons, mem_singleton] at this
          exact Ne.symm this.1
        have heq := hone g (.head _) g' (.tail _ hg') hown hown' ⟨later, .tail _ hlater, hne, hin⟩
          ⟨later', .tail _ hlater', hne', hin'⟩
        exact hfresh (heq ▸ mem_map_of_mem hg')
      have hrest : lost item parameter groups = 0 :=
        ih.mpr fun g' hg' hown' later' hlater' hsub hin' =>
          absurd hin' (hvoid g' hg' hown' later' hlater' hsub)
      rw [lost, if_pos hpk, hrest, add_zero, hsum, if_pos hown]
      constructor
      · intro hzero g' hg' hown' later' hlater' hsub hin'
        rcases mem_cons.mp hg' with rfl | hg'
        · exact hzero
        · obtain ⟨hlater', hsub⟩ := after_of_mem_tail hfresh hg' hlater' hsub
          exact absurd hin' (hvoid g' hg' hown' later' hlater' hsub)
      · intro h
        refine h g (.head _) hown later (.tail _ hlater) ?_ hin
        exact cons_sublist_cons.mpr (singleton_sublist.mpr (mem_map_of_mem hlater))
    · have hzero : (if g.1 ∈ pksOf groups then (g.2.map (Row.share item parameter)).sum else 0)
          = 0 := by
        rw [hsum]
        split_ifs with hpk hown
        · exact absurd ⟨hown, hpk⟩ hover
        · rfl
        · rfl
      rw [lost, hzero, zero_add, ih]
      constructor
      · intro h g' hg' hown' later' hlater' hsub hin'
        rcases mem_cons.mp hg' with rfl | hg'
        · have hafter := mem_of_after_head hfresh hlater' hsub
          exact absurd ⟨hown', mem_pksOf.mpr ⟨later', hafter, hin'⟩⟩ hover
        · obtain ⟨hlater', hsub⟩ := after_of_mem_tail hfresh hg' hlater' hsub
          exact h g' hg' hown' later' hlater' hsub hin'
      · intro h g' hg' hown' later' hlater' hsub hin'
        exact h g' (.tail _ hg') hown' later' (.tail _ hlater') (hsub.cons _) hin'

end Sums

end IsardVDI.Usage
