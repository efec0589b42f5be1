import Mathlib.Data.List.Nodup

/-!
# First-free allocation

A pool of names and the list of the reserved ones. An allocation takes the first name of the pool
that is not reserved, and reserves it; so allocations take the free names in their order.

* **`free_reverse_take`** — what is free after some allocations.
-/

namespace IsardVDI.FirstFree

open List

variable {α : Type} [DecidableEq α] {pool reserved rest : List α} {a : α}

def allocate (pool reserved : List α) : Option (α × List α) :=
  (pool.find? (· ∉ reserved)).map fun a => (a, a :: reserved)

def free (pool reserved : List α) : List α :=
  pool.filter (· ∉ reserved)

theorem mem_free : a ∈ free pool reserved ↔ a ∈ pool ∧ a ∉ reserved := by
  simp [free]

theorem nodup_free (hpool : pool.Nodup) : (free pool reserved).Nodup :=
  hpool.filter _

theorem allocate_of_free (h : free pool reserved = a :: rest) :
    allocate pool reserved = some (a, a :: reserved) := by
  have hfind : pool.find? (· ∉ reserved) = some a := by
    rw [← head?_filter]
    exact congrArg head? h
  rw [allocate, hfind, Option.map_some]

theorem free_append (pool extra reserved : List α) :
    free pool (extra ++ reserved) = (free pool reserved).filter (· ∉ extra) := by
  rw [free, free, filter_filter]
  exact filter_congr fun a _ => by simp [not_or]

theorem free_cons (hpool : pool.Nodup) (h : free pool reserved = a :: rest) :
    free pool (a :: reserved) = rest := by
  have hnodup : (a :: rest).Nodup := h ▸ nodup_free hpool
  rw [← singleton_append, free_append, h, filter_cons_of_neg (by simp)]
  refine filter_eq_self.mpr fun b hb => ?_
  have hne : b ≠ a := fun heq => (nodup_cons.mp hnodup).1 (heq ▸ hb)
  simpa using hne

theorem free_reverse_take (hpool : pool.Nodup) (n : Nat) :
    free pool (((free pool reserved).take n).reverse ++ reserved)
      = (free pool reserved).drop n := by
  induction n generalizing reserved with
  | zero => rfl
  | succ n ih =>
    cases h : free pool reserved with
    | nil => exact h
    | cons a rest =>
      -- the first allocation, then the others from the names it leaves
      have hrest : free pool (a :: reserved) = rest := free_cons hpool h
      have hn : free pool (((free pool (a :: reserved)).take n).reverse ++ a :: reserved)
          = (free pool (a :: reserved)).drop n := ih
      rw [hrest] at hn
      rw [take_succ_cons, drop_succ_cons, reverse_cons, append_assoc]
      exact hn

end IsardVDI.FirstFree
