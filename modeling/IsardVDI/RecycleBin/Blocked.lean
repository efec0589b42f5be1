import Mathlib.Data.Finset.Pairwise
import Mathlib.Data.Finset.Union

/-!
# Entries that a purge leaves

`blocked_storage_entries`: an entry stays recycled while a live disk that no other entry takes, or a
disk of an entry that stays, reads through one of its disks. The loop goes round until no entry is
found, with the disks that are still covered and those that are kept.
-/

namespace IsardVDI.RecycleBin

/-- A row of `_entry_storage_children`. There are statuses outside `StorageStatusEnum`. -/
structure Child (S : Type) where
  id : S
  status : String

/-- `entries_storages` and `entries_children` of a purge. -/
structure Purge (E S : Type) where
  entries : Finset E
  storages : E → Finset S
  children : E → List (Child S)

structure Round (E S : Type) where
  blocked : Finset E
  /-- What keeps a blocked entry. -/
  uncovered : E → Finset S
  covered : Finset S
  kept : Finset S

variable {E S : Type} [DecidableEq E] [DecidableEq S]

def Child.live (child : Child S) : Bool := child.status = "ready" ∨ child.status = "maintenance"

def uncoveredStorageChildren (covered : Finset S) (children : List (Child S)) : Finset S :=
  ((children.filter fun child => child.id ∉ covered ∧ child.live).map (·.id)).toFinset

namespace Purge

variable (p : Purge E S)

/-- A kept disk reads through its parent whatever its status. -/
def uncovered (r : Round E S) (e : E) : Finset S :=
  uncoveredStorageChildren r.covered (p.children e)
    ∪ ((p.children e).map (·.id)).toFinset.filter (· ∈ r.kept)

def newly (r : Round E S) : Finset E :=
  (p.entries \ r.blocked).filter fun e => p.uncovered r e ≠ ∅

def next (r : Round E S) : Round E S where
  blocked := r.blocked ∪ p.newly r
  uncovered := fun e => if e ∈ p.newly r then p.uncovered r e else r.uncovered e
  covered := r.covered \ (p.newly r).biUnion p.storages
  kept := r.kept ∪ (p.newly r).biUnion p.storages

/-- The loop, for so many rounds. -/
def rounds : Nat → Round E S → Option (Round E S)
  | 0, _ => none
  | turns + 1, r => if p.newly r = ∅ then some r else rounds turns (p.next r)

def blockedStorageEntries (covered : Finset S) (turns : Nat) : Option (Round E S) :=
  p.rounds turns ⟨∅, fun _ => ∅, covered, ∅⟩

/-! ## The least set -/

/-- The child keeps its entry where the entries of `B` stay. -/
def Keeps (B : Set E) (child : Child S) : Prop :=
  (child.live ∧ ∀ e ∈ p.entries, e ∉ B → child.id ∉ p.storages e)
    ∨ ∃ e ∈ p.entries, e ∈ B ∧ child.id ∈ p.storages e

def Closed (B : Set E) : Prop :=
  ∀ e ∈ p.entries, e ∉ B → ∀ child ∈ p.children e, ¬ p.Keeps B child

variable {p} {r : Round E S} {e : E}

omit [DecidableEq E] [DecidableEq S] in
theorem Keeps.mono {A B : Set E} (hsub : A ⊆ B) {child : Child S} (h : p.Keeps A child) :
    p.Keeps B child := by
  rcases h with ⟨hlive, hout⟩ | ⟨e, he, hin, hid⟩
  · exact .inl ⟨hlive, fun e he hnot => hout e he fun hin => hnot (hsub hin)⟩
  · exact .inr ⟨e, he, hsub hin, hid⟩

structure Inv (p : Purge E S) (r : Round E S) : Prop where
  entries : r.blocked ⊆ p.entries
  covered : ∀ x, x ∈ r.covered ↔ ∃ e ∈ p.entries, e ∉ r.blocked ∧ x ∈ p.storages e
  kept : ∀ x, x ∈ r.kept ↔ ∃ e ∈ r.blocked, x ∈ p.storages e
  least : ∀ B, p.Closed B → ↑r.blocked ⊆ B

theorem Inv.mem_uncovered (h : p.Inv r) {x : S} : x ∈ p.uncovered r e
    ↔ ∃ child ∈ p.children e, child.id = x ∧ p.Keeps r.blocked child := by
  simp only [uncovered, uncoveredStorageChildren, Finset.mem_union, Finset.mem_filter,
    List.mem_toFinset, List.mem_map, List.mem_filter, decide_eq_true_eq, h.covered, h.kept, Keeps,
    Finset.mem_coe]
  constructor
  · rintro (⟨child, ⟨hchild, hout, hlive⟩, rfl⟩ | ⟨⟨child, hchild, rfl⟩, e, he, hid⟩)
    · exact ⟨child, hchild, rfl, .inl ⟨hlive, fun e he hnot hid => hout ⟨e, he, hnot, hid⟩⟩⟩
    · exact ⟨child, hchild, rfl, .inr ⟨e, h.entries he, he, hid⟩⟩
  · rintro ⟨child, hchild, rfl, ⟨hlive, hout⟩ | ⟨e, -, he, hid⟩⟩
    · exact .inl ⟨child, ⟨hchild, fun ⟨e, he, hnot, hid⟩ => hout e he hnot hid, hlive⟩, rfl⟩
    · exact .inr ⟨⟨child, hchild, rfl⟩, e, he, hid⟩

theorem Inv.mem_newly (h : p.Inv r) : e ∈ p.newly r
    ↔ (e ∈ p.entries ∧ e ∉ r.blocked) ∧ ∃ child ∈ p.children e, p.Keeps r.blocked child := by
  simp [newly, ← Finset.nonempty_iff_ne_empty, Finset.Nonempty, h.mem_uncovered]

theorem Inv.next (h : p.Inv r) (hdisjoint : (p.entries : Set E).PairwiseDisjoint p.storages) :
    p.Inv (p.next r) where
  entries := Finset.union_subset h.entries fun e he => (h.mem_newly.mp he).1.1
  covered x := by
    simp only [Purge.next, Finset.mem_sdiff, Finset.mem_biUnion, Finset.mem_union, not_or]
    constructor
    · rintro ⟨hx, hnot⟩
      obtain ⟨e, he, hout, hid⟩ := (h.covered x).mp hx
      exact ⟨e, he, ⟨hout, fun hnew => hnot ⟨e, hnew, hid⟩⟩, hid⟩
    · rintro ⟨e, he, ⟨hout, hnew⟩, hid⟩
      refine ⟨(h.covered x).mpr ⟨e, he, hout, hid⟩, ?_⟩
      rintro ⟨other, hother, hin⟩
      -- a disk is of one entry
      rw [hdisjoint.elim_finset (h.mem_newly.mp hother).1.1 he x hin hid] at hother
      exact hnew hother
  kept x := by
    simp only [Purge.next, Finset.mem_union, h.kept, Finset.mem_biUnion, or_and_right, exists_or]
  least B hB := by
    intro e he
    rcases Finset.mem_union.mp he with hold | hnew
    · exact h.least B hB hold
    · obtain ⟨⟨hentry, -⟩, child, hchild, hkeeps⟩ := h.mem_newly.mp hnew
      by_contra hout
      exact hB e hentry hout child hchild (hkeeps.mono (h.least B hB))

theorem Inv.rounds (h : p.Inv r) (hdisjoint : (p.entries : Set E).PairwiseDisjoint p.storages)
    {turns : Nat} (hturns : (p.entries \ r.blocked).card < turns) :
    ∃ r', p.rounds turns r = some r' ∧ p.Inv r' ∧ p.newly r' = ∅ := by
  induction turns generalizing r with
  | zero => cases hturns
  | succ turns ih =>
    rw [Purge.rounds]
    split_ifs with hempty
    · exact ⟨r, rfl, h, hempty⟩
    · -- an entry is found, and one less is left
      refine ih (h.next hdisjoint) ((Finset.card_lt_card ?_).trans_le (Nat.lt_succ_iff.mp hturns))
      obtain ⟨e, he⟩ := Finset.nonempty_iff_ne_empty.mpr hempty
      refine Finset.ssubset_iff_of_subset ?_ |>.mpr ⟨e, ?_, ?_⟩
      · exact Finset.sdiff_subset_sdiff le_rfl Finset.subset_union_left
      · exact Finset.mem_sdiff.mpr (h.mem_newly.mp he).1
      · exact fun hin => (Finset.mem_sdiff.mp hin).2 (Finset.mem_union_right _ he)

/-- **The least blocked set.** For entries with disjoint storages that are all covered, the loop
ends with the least set of entries for which no entry outside is kept. -/
theorem blockedStorageEntries_least (p : Purge E S)
    (hdisjoint : (p.entries : Set E).PairwiseDisjoint p.storages) :
    ∃ r, p.blockedStorageEntries (p.entries.biUnion p.storages) (p.entries.card + 1) = some r
      ∧ r.blocked ⊆ p.entries ∧ p.Closed r.blocked ∧ ∀ B, p.Closed B → ↑r.blocked ⊆ B := by
  have hinv : p.Inv ⟨∅, fun _ => ∅, p.entries.biUnion p.storages, ∅⟩ :=
    ⟨Finset.empty_subset _, fun x => by simp, fun x => by simp, fun B _ => by simp⟩
  obtain ⟨r, hrun, h, hempty⟩ := hinv.rounds hdisjoint (by simp : _ < p.entries.card + 1)
  refine ⟨r, hrun, h.entries, fun e he hout child hchild hkeeps => ?_, h.least⟩
  have hnew : e ∈ p.newly r := h.mem_newly.mpr ⟨⟨he, hout⟩, child, hchild, hkeeps⟩
  rw [hempty] at hnew
  cases hnew

end Purge

/-- The disk of entry 1 is read by one that stays, and that of entry 2 by the disk of entry 1. -/
def nested : Purge Nat Nat where
  entries := {1, 2, 3}
  storages e := {e}
  children
    | 1 => [⟨9, "ready"⟩]
    | 2 => [⟨1, "recycled"⟩]
    | _ => [⟨8, "Failed"⟩]

theorem nested_blocked :
    ∃ r, nested.blockedStorageEntries (nested.entries.biUnion nested.storages) 4 = some r
      ∧ r.blocked = {1, 2} ∧ nested.Closed r.blocked := by
  have hdisjoint : (nested.entries : Set Nat).PairwiseDisjoint nested.storages :=
    fun a _ b _ hne => by simpa [nested, Function.onFun] using hne
  obtain ⟨r, hrun, -, hclosed, -⟩ := nested.blockedStorageEntries_least hdisjoint
  refine ⟨r, hrun, ?_, hclosed⟩
  cases hrun.symm.trans rfl
  decide

end IsardVDI.RecycleBin
