import Mathlib

/-!
# Combinations of a slice

Choosing a group of elements of a slice by trying them all.

* **`Combinations`** — a function that enumerates the non-empty combinations of a slice, in
  any order and possibly more than once. `byMask` is the enumeration by bit masks.
* **`keepBest`** — the search for the best element that qualifies, where the first candidate
  too has to beat a given start. Ties go to the first, and any combination may be that.
* **`filter_mem_map_of_sublist`** — a combination of a slice with unique keys is what the
  slice has under its keys, so taking the keys out leaves the others.
-/

namespace IsardVDI

open List

/-! ## Enumerating -/

structure Combinations where
  all : {α : Type} → List α → List (List α)
  mem_all : ∀ {α : Type} (l c : List α), c ∈ all l ↔ c ≠ [] ∧ c.Sublist l

namespace Combinations

/-- The masks from 1 on, the first element of the slice being the lowest bit. -/
def byMask : Combinations where
  all l := l.sublists.filter fun c => !c.isEmpty
  mem_all l c := by
    rw [List.mem_filter, List.mem_sublists, and_comm]
    simp

/-- The elements of the slice where the mask is set. -/
def pick {α : Type} : List Bool → List α → List α
  | true :: mask, x :: l => x :: pick mask l
  | false :: mask, _ :: l => pick mask l
  | _, _ => []

theorem pick_sublist {α : Type} (mask : List Bool) (l : List α) : (pick mask l).Sublist l := by
  fun_induction pick mask l with
  | case1 mask x l ih => exact ih.cons_cons x
  | case2 mask x l ih => exact ih.cons x
  | case3 => exact nil_sublist _

theorem exists_pick {α : Type} {c l : List α} (h : c.Sublist l) : ∃ mask, pick mask l = c := by
  induction h with
  | slnil => exact ⟨[], rfl⟩
  | cons x _ ih =>
    obtain ⟨mask, rfl⟩ := ih
    exact ⟨false :: mask, rfl⟩
  | cons_cons x _ ih =>
    obtain ⟨mask, rfl⟩ := ih
    exact ⟨true :: mask, rfl⟩

/-- The combination of a mask, and then all. -/
def first (mask : List Bool) : Combinations where
  all l := (pick mask l :: l.sublists).filter fun c => !c.isEmpty
  mem_all l c := by
    rw [List.mem_filter, mem_cons, List.mem_sublists, and_comm]
    simp only [Bool.not_eq_true', List.isEmpty_eq_false_iff]
    exact and_congr_right fun _ => ⟨fun h => h.elim (fun h => h ▸ pick_sublist mask l) id, .inr⟩

/-- Any combination may come first. -/
theorem exists_first {α : Type} {c l : List α} (hne : c ≠ []) (hsub : c.Sublist l) :
    ∃ (comb : Combinations) (rest : List (List α)), comb.all l = c :: rest := by
  obtain ⟨mask, rfl⟩ := exists_pick hsub
  refine ⟨first mask, l.sublists.filter fun c => !c.isEmpty, ?_⟩
  have hpick : (pick mask l).isEmpty = false := by simpa using hne
  simp only [first, filter_cons, hpick, Bool.not_false, if_true]

end Combinations

/-! ## Keeping the best -/

section KeepBest

variable {α : Type} (ok : α → Bool) (better : α → α → Bool)

/-- `if ok(c) { if better(c, best) { best = c } }`, over the slice. -/
def keepBest (start : α) (l : List α) : α :=
  l.foldl (fun best c => if ok c && better c best then c else best) start

theorem keepBest_cons (start x : α) (l : List α) :
    keepBest ok better start (x :: l)
      = keepBest ok better (if ok x && better x start then x else start) l :=
  rfl

variable {ok better}

/-- What is kept is the start, or it qualifies and beats the start. Nothing that qualifies beats
it. -/
theorem keepBest_best {β : Type} [LinearOrder β] {key : α → β}
    (hkey : ∀ x y, better x y = true ↔ key y < key x) {start kept : α} {l : List α}
    (hkept : keepBest ok better start l = kept) :
    (kept = start ∨ kept ∈ l ∧ ok kept = true ∧ key start < key kept)
      ∧ ∀ x ∈ l, ok x = true → key x ≤ key kept := by
  induction l generalizing start with
  | nil => exact ⟨.inl hkept.symm, nofun⟩
  | cons x l ih =>
    rw [keepBest_cons] at hkept
    by_cases hx : (ok x && better x start) = true
    · rw [if_pos hx] at hkept
      obtain ⟨hor, hbest⟩ := ih hkept
      obtain ⟨hok, hbetter⟩ := Bool.and_eq_true_iff.mp hx
      have hlt : key start < key x := (hkey x start).mp hbetter
      rcases hor with rfl | ⟨hmem, hok', hlt'⟩
      · exact ⟨.inr ⟨.head _, hok, hlt⟩, forall_mem_cons.mpr ⟨fun _ => le_rfl, hbest⟩⟩
      · exact ⟨.inr ⟨.tail _ hmem, hok', hlt.trans hlt'⟩,
          forall_mem_cons.mpr ⟨fun _ => hlt'.le, hbest⟩⟩
    · rw [if_neg hx] at hkept
      obtain ⟨hor, hbest⟩ := ih hkept
      -- it does not beat the start
      have hle : ok x = true → key x ≤ key start := fun hok => not_lt.mp fun hlt =>
        hx (Bool.and_eq_true_iff.mpr ⟨hok, (hkey x start).mpr hlt⟩)
      rcases hor with rfl | ⟨hmem, hok, hlt⟩
      · exact ⟨.inl rfl, forall_mem_cons.mpr ⟨hle, hbest⟩⟩
      · exact ⟨.inr ⟨.tail _ hmem, hok, hlt⟩,
          forall_mem_cons.mpr ⟨fun hok => (hle hok).trans hlt.le, hbest⟩⟩

theorem keepBest_start {start : α} {l : List α}
    (h : ∀ x ∈ l, ok x = true → better x start = false) : keepBest ok better start l = start := by
  induction l with
  | nil => rfl
  | cons x l ih =>
    have hx : (ok x && better x start) = false := by
      cases hok : ok x with
      | false => rfl
      | true => rw [h x (.head _) hok]; rfl
    rw [keepBest_cons, hx]
    exact ih fun y hy => h y (.tail _ hy)

end KeepBest

/-! ## Taking a combination out -/

theorem filter_mem_map_of_sublist {α κ : Type} [DecidableEq κ] (key : α → κ) {c l : List α}
    (hsub : c.Sublist l) (hnodup : (l.map key).Nodup) :
    (l.filter fun x => decide (key x ∈ c.map key)) = c := by
  induction hsub with
  | slnil => rfl
  | @cons c l x hsub ih =>
    rw [map_cons, nodup_cons] at hnodup
    have hx : key x ∉ c.map key := fun h => hnodup.1 ((hsub.map key).subset h)
    rw [filter_cons_of_neg (by simpa using hx), ih hnodup.2]
  | @cons_cons c l x hsub ih =>
    rw [map_cons, nodup_cons] at hnodup
    rw [filter_cons_of_pos (by simp)]
    congr 1
    -- behind `x` no element has its key
    refine Eq.trans (filter_congr fun y hy => ?_) (ih hnodup.2)
    have hne : key y ≠ key x := fun h => hnodup.1 (h ▸ mem_map_of_mem hy)
    simp [hne]

end IsardVDI
