import Mathlib

/-!
# Grouping by a key

A dictionary of lists, filled one element at a time: a key keeps the place it was first seen at, and
its elements their order.

* **`mem_group`** — what a group holds.
* **`precedes_iff`** — which of two groups comes first.
-/

namespace IsardVDI.Grouping

open List

variable {α κ : Type} [DecidableEq κ] {key : α → κ}

/-- `groups[k].append(a)` -/
def push (k : κ) (a : α) : List (κ × List α) → List (κ × List α)
  | [] => [(k, [a])]
  | (k', as) :: groups => if k' = k then (k', as ++ [a]) :: groups else (k', as) :: push k a groups

def group (key : α → κ) (l : List α) : List (κ × List α) :=
  l.foldl (fun groups a => push (key a) a groups) []

variable (l : List α)

theorem group_concat (a : α) : group key (l ++ [a]) = push (key a) a (group key l) :=
  foldl_concat ..

theorem push_keys (k : κ) (a : α) (groups : List (κ × List α)) :
    (push k a groups).map Prod.fst
      = if k ∈ groups.map Prod.fst then groups.map Prod.fst else groups.map Prod.fst ++ [k] := by
  induction groups with
  | nil => rfl
  | cons g groups ih =>
    obtain ⟨k', as⟩ := g
    by_cases hk : k' = k
    · simp [push, hk]
    · have hne : k ≠ k' := Ne.symm hk
      simp only [push, if_neg hk, map_cons, ih, mem_cons, hne, false_or]
      split <;> rfl

variable {k k' : κ} {as : List α}

theorem mem_push {a : α} {groups : List (κ × List α)} (hnodup : (groups.map Prod.fst).Nodup) :
    (k', as) ∈ push k a groups
      ↔ k' ≠ k ∧ (k', as) ∈ groups
        ∨ k' = k ∧ ((∃ old, (k, old) ∈ groups ∧ as = old ++ [a])
          ∨ k ∉ groups.map Prod.fst ∧ as = [a]) := by
  induction groups with
  | nil => simp [push]
  | cons g groups ih =>
    obtain ⟨k₀, as₀⟩ := g
    obtain ⟨hk₀, hnodup⟩ := nodup_cons.mp (map_cons ▸ hnodup)
    by_cases hk : k₀ = k
    · simp only [push, mem_cons, Prod.mk.injEq, map_cons]
      grind
    · simp only [push, if_neg hk, mem_cons, ih hnodup, Prod.mk.injEq, map_cons]
      grind

theorem nodup_group : ((group key l).map Prod.fst).Nodup := by
  induction l using reverseRecOn with
  | nil => exact nodup_nil
  | append_singleton l a ih =>
    rw [group_concat, push_keys]
    split_ifs with hmem
    · exact ih
    · exact ih.append (nodup_singleton _) (disjoint_singleton.mpr hmem)

theorem mem_keys_group {l : List α} : k ∈ (group key l).map Prod.fst ↔ ∃ a ∈ l, key a = k := by
  induction l using reverseRecOn with
  | nil => simp [group]
  | append_singleton l a ih =>
    rw [group_concat, push_keys]
    split_ifs with hmem
    · grind
    · grind

theorem mem_group {l : List α} :
    (k, as) ∈ group key l ↔ as = l.filter (key · = k) ∧ ∃ a ∈ l, key a = k := by
  induction l using reverseRecOn generalizing as with
  | nil => simp [group]
  | append_singleton l a ih =>
    rw [group_concat, mem_push (nodup_group l), mem_keys_group, filter_append]
    by_cases hk : k = key a
    · by_cases hseen : ∃ b ∈ l, key b = key a
      · grind
      · have hnone : l.filter (key · = key a) = [] := by
          rw [filter_eq_nil_iff]
          intro b hb
          simpa using fun hkey => hseen ⟨b, hb, hkey⟩
        grind
    · grind

theorem flatMap_push_perm (k : κ) (a : α) (groups : List (κ × List α)) :
    ((push k a groups).flatMap Prod.snd).Perm (a :: groups.flatMap Prod.snd) := by
  induction groups with
  | nil => exact .refl _
  | cons g groups ih =>
    obtain ⟨k', as⟩ := g
    by_cases hk : k' = k
    · simp only [push, if_pos hk, flatMap_cons, append_assoc, singleton_append]
      exact perm_middle
    · simp only [push, if_neg hk, flatMap_cons]
      exact (ih.append_left as).trans perm_middle

theorem flatMap_group_perm : ((group key l).flatMap Prod.snd).Perm l := by
  induction l using reverseRecOn with
  | nil => exact .refl _
  | append_singleton l a ih =>
    rw [group_concat]
    exact ((flatMap_push_perm _ a _).trans (ih.cons a)).trans
      (perm_append_singleton a l).symm

theorem keys_append (key : α → κ) (l r : List α) :
    ∃ added, (group key (l ++ r)).map Prod.fst = (group key l).map Prod.fst ++ added := by
  induction r using reverseRecOn with
  | nil => exact ⟨[], by simp⟩
  | append_singleton r a ih =>
    obtain ⟨added, hadded⟩ := ih
    rw [← append_assoc, group_concat, push_keys, hadded]
    split_ifs
    · exact ⟨added, rfl⟩
    · exact ⟨added ++ [key a], append_assoc ..⟩

/-- The group of `k` comes before that of `k'` when some element of `k` comes before all of `k'`. -/
theorem precedes_iff {l : List α} :
    [k, k'].Sublist ((group key l).map Prod.fst)
      ↔ (∃ a ∈ l, key a = k')
        ∧ ∃ before after, l = before ++ after ∧ (∃ a ∈ before, key a = k)
          ∧ ∀ a ∈ before, key a ≠ k' := by
  constructor
  · intro hsub
    refine ⟨mem_keys_group.mp (hsub.subset (by simp)), ?_⟩
    induction l using reverseRecOn with
    | nil => cases hsub
    | append_singleton l a ih =>
      rw [group_concat, push_keys] at hsub
      have hlater (hsub : [k, k'].Sublist ((group key l).map Prod.fst)) :
          ∃ before after, l ++ [a] = before ++ after ∧ (∃ a ∈ before, key a = k)
            ∧ ∀ a ∈ before, key a ≠ k' := by
        obtain ⟨before, after, rfl, hin, hout⟩ := ih hsub
        exact ⟨before, after ++ [a], append_assoc .., hin, hout⟩
      split_ifs at hsub with hmem
      · exact hlater hsub
      · -- the new key is the last one: it is `k'`, or neither
        rw [sublist_append_iff] at hsub
        obtain ⟨s, t, hst, hs, ht⟩ := hsub
        match s, t, hst with
        | [], _, rfl => exact absurd ht.length_le (by simp)
        | [_], _, rfl =>
          obtain rfl : k' = key a := by simpa using ht
          refine ⟨l, [a], rfl, mem_keys_group.mp (singleton_sublist.mp hs), ?_⟩
          intro b hb hkey
          exact hmem (mem_keys_group.mpr ⟨b, hb, hkey⟩)
        | [_, _], [], rfl => exact hlater hs
  · rintro ⟨hk', before, after, rfl, hin, hout⟩
    obtain ⟨added, hadded⟩ := keys_append key before after
    have hmem := mem_keys_group.mpr hk'
    rw [hadded] at hmem ⊢
    have hnot : k' ∉ (group key before).map Prod.fst := fun hmem => by
      obtain ⟨a, ha, hkey⟩ := mem_keys_group.mp hmem
      exact hout a ha hkey
    exact (singleton_sublist.mpr (mem_keys_group.mpr hin)).append
      (singleton_sublist.mpr ((mem_append.mp hmem).resolve_left hnot))

end IsardVDI.Grouping
