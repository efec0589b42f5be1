import Mathlib

/-!
# Rows by key

A table that is written row by row, where a row replaces the one of its key.
-/

namespace IsardVDI.Keyed

open List

variable {α β κ : Type} [DecidableEq κ] {key : α → κ}

def upsert (key : α → κ) (rows : List α) (row : α) : List α :=
  if rows.any (key · = key row) then rows.map fun old => if key old = key row then row else old
  else rows ++ [row]

variable {rows batch : List α} {x : α}

theorem mem_upsert {row : α} : x ∈ upsert key rows row ↔ x = row ∨ x ∈ rows ∧ key x ≠ key row := by
  unfold upsert
  split_ifs with hany
  · obtain ⟨old, hold, hkey⟩ : ∃ old ∈ rows, key old = key row := by simpa using hany
    rw [mem_map]
    constructor
    · rintro ⟨y, hy, rfl⟩
      split_ifs with hne
      · exact .inl rfl
      · exact .inr ⟨hy, hne⟩
    · rintro (rfl | ⟨hx, hne⟩)
      · exact ⟨old, hold, if_pos hkey⟩
      · exact ⟨x, hx, if_neg hne⟩
  · have hnone : ∀ old ∈ rows, key old ≠ key row := by simpa using hany
    rw [mem_append, mem_singleton]
    constructor
    · rintro (hx | rfl)
      · exact .inr ⟨hx, hnone x hx⟩
      · exact .inl rfl
    · rintro (rfl | ⟨hx, -⟩)
      · exact .inr rfl
      · exact .inl hx

theorem nodup_upsert (h : (rows.map key).Nodup) (row : α) :
    ((upsert key rows row).map key).Nodup := by
  unfold upsert
  split_ifs with hany
  · have hkeys : key ∘ (fun old => if key old = key row then row else old) = key := by
      funext x
      show key (if key x = key row then row else x) = key x
      split_ifs with hkey
      · exact hkey.symm
      · rfl
    rw [map_map, hkeys]
    exact h
  · have hnone : ∀ old ∈ rows, key old ≠ key row := by simpa using hany
    rw [map_append, map_cons, map_nil]
    refine h.append (nodup_singleton _) (disjoint_singleton.mpr ?_)
    rintro hmem
    obtain ⟨old, hold, hkey⟩ := mem_map.mp hmem
    exact hnone old hold hkey

theorem nodup_foldl_upsert (h : (rows.map key).Nodup) (batch : List α) :
    ((batch.foldl (upsert key) rows).map key).Nodup := by
  induction batch generalizing rows with
  | nil => exact h
  | cons row batch ih => exact ih (nodup_upsert h row)

theorem mem_of_mem_foldl_upsert (h : x ∈ batch.foldl (upsert key) rows) : x ∈ batch ∨ x ∈ rows := by
  induction batch generalizing rows with
  | nil => exact .inr h
  | cons row batch ih =>
    rcases ih h with hx | hx
    · exact .inl (.tail _ hx)
    · rcases mem_upsert.mp hx with rfl | ⟨hx, -⟩
      · exact .inl (.head _)
      · exact .inr hx

theorem mem_foldl_upsert (hnodup : (batch.map key).Nodup) :
    x ∈ batch.foldl (upsert key) rows
      ↔ x ∈ batch ∨ x ∈ rows ∧ ∀ row ∈ batch, key row ≠ key x := by
  induction batch generalizing rows with
  | nil => simp
  | cons row batch ih =>
    obtain ⟨hrow, hnodup⟩ := nodup_cons.mp (map_cons ▸ hnodup)
    rw [foldl_cons, ih hnodup, mem_upsert, mem_cons, forall_mem_cons]
    constructor
    · rintro (hx | ⟨rfl | ⟨hx, hne⟩, hbatch⟩)
      · exact .inl (.inr hx)
      · exact .inl (.inl rfl)
      · exact .inr ⟨hx, Ne.symm hne, hbatch⟩
    · rintro ((rfl | hx) | ⟨hx, hne, hbatch⟩)
      · exact .inr ⟨.inl rfl, fun y hy hkey => hrow (mem_map.mpr ⟨y, hy, hkey⟩)⟩
      · exact .inl hx
      · exact .inr ⟨.inr ⟨hx, Ne.symm hne⟩, hbatch⟩

theorem mem_foldl_upsert_of_inj (hinj : ∀ a ∈ batch, ∀ b ∈ batch, key a = key b → a = b) :
    x ∈ batch.foldl (upsert key) [] ↔ x ∈ batch := by
  induction batch using reverseRecOn with
  | nil => rfl
  | append_singleton batch row ih =>
    rw [foldl_concat, mem_upsert, mem_append, mem_singleton,
      ih fun a ha b hb => hinj a (mem_append_left _ ha) b (mem_append_left _ hb)]
    constructor
    · rintro (rfl | ⟨hx, -⟩)
      · exact .inr rfl
      · exact .inl hx
    · rintro (hx | rfl)
      · by_cases hkey : key x = key row
        · exact .inl (hinj x (by simp [hx]) row (by simp) hkey)
        · exact .inr ⟨hx, hkey⟩
      · exact .inl rfl

theorem mem_foldl_upsert_flatMap {batches : List β} {batch : β → List α}
    (hnodup : ∀ b ∈ batches, ((batch b).map key).Nodup) :
    x ∈ (batches.flatMap batch).foldl (upsert key) []
      ↔ ∃ before b after, batches = before ++ b :: after ∧ x ∈ batch b
        ∧ ∀ b' ∈ after, ∀ row ∈ batch b', key row ≠ key x := by
  -- the batches from the last one on, as the fold reads them
  induction batches using reverseRecOn with
  | nil => simp
  | append_singleton batches last ih =>
    have hlast := hnodup last (by simp)
    have hinit := ih fun b hb => hnodup b (mem_append_left _ hb)
    rw [flatMap_append, foldl_append, flatMap_singleton, mem_foldl_upsert hlast, hinit]
    constructor
    · rintro (hx | ⟨⟨before, b, after, rfl, hx, hafter⟩, hne⟩)
      · exact ⟨batches, last, [], rfl, hx, by simp⟩
      · refine ⟨before, b, after ++ [last], by simp, hx, fun b' hb' => ?_⟩
        rcases mem_append.mp hb' with hb' | hb'
        · exact hafter b' hb'
        · exact (mem_singleton.mp hb') ▸ hne
    · rintro ⟨before, b, after, hsplit, hx, hafter⟩
      rcases eq_nil_or_concat after with rfl | ⟨init, b', rfl⟩
      · obtain ⟨-, hb⟩ := append_inj' hsplit rfl
        exact .inl ((singleton_inj.mp hb) ▸ hx)
      · rw [concat_eq_append, ← cons_append, ← append_assoc] at hsplit
        obtain ⟨rfl, hb⟩ := append_inj' hsplit rfl
        obtain rfl := singleton_inj.mp hb
        exact .inr ⟨⟨before, b, init, rfl, hx, fun c hc => hafter c (by simp [hc])⟩,
          hafter last (by simp)⟩

end IsardVDI.Keyed
