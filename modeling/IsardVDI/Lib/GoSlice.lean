import Mathlib.Data.List.Basic
import Mathlib.Data.List.Pairwise

/-!
# Loops over Go slices

Two loop shapes of Go programs, over lists.

* **`pickBest`** — the search for the best element that qualifies, keeping the first of
  equals.
* **`removeWhileRanging`** — removing from a slice in the body of a `range` over it. The
  loop goes over the slice it started with, while `append(s[:i], s[i+1:]...)` moves the
  elements of the shared array to the left under it. With at most one element to remove,
  this does remove it.
-/

namespace IsardVDI.GoSlice

open List

variable {α : Type}

/-! ## Picking -/

/-- `if ok { if best == nil || better(h, best) { best = h } }`, over the slice. -/
def pickBest (ok : α → Bool) (better : α → α → Bool) (l : List α) : Option α :=
  l.foldl
    (fun best x =>
      if ok x then
        match best with
        | some b => if better x b then some x else some b
        | none => some x
      else best)
    none

variable {l : List α}

theorem pickBest_some {ok : α → Bool} {better : α → α → Bool} {x : α}
    (h : pickBest ok better l = some x) : x ∈ l ∧ ok x = true := by
  -- whatever the fold holds is what it started with or a qualifying element
  have hfold : ∀ (l : List α) (best : Option α),
      l.foldl (fun best x =>
        if ok x then
          match best with
          | some b => if better x b then some x else some b
          | none => some x
        else best) best = some x → best = some x ∨ (x ∈ l ∧ ok x = true) := by
    intro l
    induction l with
    | nil => exact fun best h => .inl h
    | cons y l ih =>
      intro best h
      rw [foldl_cons] at h
      rcases ih _ h with hstep | ⟨hx, hok⟩
      · by_cases hy : ok y = true
        · rw [if_pos hy] at hstep
          cases best with
          | none =>
            cases hstep
            exact .inr ⟨.head _, hy⟩
          | some b =>
            dsimp only at hstep
            split at hstep
            · cases hstep
              exact .inr ⟨.head _, hy⟩
            · exact .inl hstep
        · rw [if_neg hy] at hstep
          exact .inl hstep
      · exact .inr ⟨.tail _ hx, hok⟩
  rcases hfold l none h with h | h
  · cases h
  · exact h

/-! ## Removing while ranging -/

/-- The loop from index `i` for `k` more elements of the array, of which the slice is now
the first `len`. -/
def rangeRemove (p : α → Bool) : Nat → Nat → List α → Nat → List α
  | 0, _, array, len => array.take len
  | k + 1, i, array, len =>
    match array[i]? with
    | none => array.take len
    | some x =>
      if p x then
        rangeRemove p k (i + 1)
          (array.take i ++ (array.take len).drop (i + 1) ++ array.drop (len - 1)) (len - 1)
      else rangeRemove p k (i + 1) array len

def removeWhileRanging (p : α → Bool) (l : List α) : List α :=
  rangeRemove p l.length 0 l l.length

variable {p : α → Bool}

theorem rangeRemove_none (k i : Nat) (array : List α) (len : Nat)
    (h : ∀ x ∈ array.drop i, p x = false) : rangeRemove p k i array len = array.take len := by
  induction k generalizing i with
  | zero => rfl
  | succ k ih =>
    unfold rangeRemove
    cases hget : array[i]? with
    | none => rfl
    | some x =>
      have hdrop : array.drop i = x :: array.drop (i + 1) :=
        drop_eq_getElem?_toList_append.trans (by rw [hget]; rfl)
      rw [hdrop] at h
      simp only [h x (.head _), Bool.false_eq_true, if_false]
      exact ih (i + 1) fun y hy => h y (.tail _ hy)

theorem rangeRemove_one {before after : List α} {x : α} (hx : p x = true)
    (hbefore : ∀ y ∈ before, p y = false) (hafter : ∀ y ∈ after, p y = false) (k i : Nat)
    (hk : i + k = (before ++ x :: after).length) (hi : i ≤ before.length) :
    rangeRemove p k i (before ++ x :: after) (before ++ x :: after).length = before ++ after := by
  induction k generalizing i with
  | zero =>
    rw [length_append, length_cons] at hk
    omega
  | succ k ih =>
    unfold rangeRemove
    rcases Nat.lt_or_eq_of_le hi with hlt | rfl
    · have hget : (before ++ x :: after)[i]? = some before[i] := by
        rw [getElem?_append_left hlt, getElem?_eq_getElem hlt]
      rw [hget]
      simp only [hbefore before[i] (getElem_mem hlt), Bool.false_eq_true, if_false]
      exact ih (i + 1) (by omega) hlt
    · have hget : (before ++ x :: after)[before.length]? = some x := by
        rw [getElem?_append_right (Nat.le_refl _), Nat.sub_self]
        rfl
      rw [hget]
      simp only [hx, if_true]
      -- the array after the move: the rest shifted, with the old last element left at the end
      have harray : (before ++ x :: after).take before.length
            ++ ((before ++ x :: after).take (before ++ x :: after).length).drop (before.length + 1)
          = before ++ after := by
        rw [take_length, take_left, drop_length_add_append]
        rfl
      rw [harray, rangeRemove_none]
      · rw [take_append_of_le_length (by simp), take_of_length_le (by simp)]
      · intro y hy
        cases after with
        | nil => simp at hy
        | cons a after =>
          rw [append_assoc, drop_length_add_append] at hy
          rcases mem_append.mp (mem_of_mem_drop hy) with hy | hy
          · exact hafter y hy
          · rw [show (before ++ x :: a :: after).length - 1
                = before.length + (after.length + 1) by simp,
              drop_length_add_append, drop_succ_cons] at hy
            exact hafter y (mem_of_mem_drop hy)

theorem removeWhileRanging_eq_filter (h : l.Pairwise fun x y => ¬ (p x = true ∧ p y = true)) :
    removeWhileRanging p l = l.filter fun x => !p x := by
  by_cases hex : ∃ x ∈ l, p x = true
  · obtain ⟨x, hmem, hx⟩ := hex
    obtain ⟨before, after, rfl⟩ := append_of_mem hmem
    rw [pairwise_append, pairwise_cons] at h
    have hbefore : ∀ y ∈ before, p y = false := by
      intro y hy
      by_contra hpy
      exact h.2.2 y hy x (.head _) ⟨by simpa using hpy, hx⟩
    have hafter : ∀ y ∈ after, p y = false := by
      intro y hy
      by_contra hpy
      exact h.2.1.1 y hy ⟨hx, by simpa using hpy⟩
    have hkeep : ∀ m : List α, (∀ y ∈ m, p y = false) → (m.filter fun y => !p y) = m := by
      intro m hm
      exact filter_eq_self.mpr fun y hy => by rw [hm y hy]; rfl
    rw [removeWhileRanging, rangeRemove_one hx hbefore hafter _ 0 (by omega) (Nat.zero_le _),
      filter_append, filter_cons_of_neg (by simp [hx]), hkeep before hbefore,
      hkeep after hafter]
  · have hnone : ∀ x ∈ l, p x = false := by simpa using hex
    rw [removeWhileRanging, rangeRemove_none _ _ _ _ (by simpa using hnone), take_length]
    exact (filter_eq_self.mpr fun y hy => by rw [hnone y hy]; rfl).symm

end IsardVDI.GoSlice
