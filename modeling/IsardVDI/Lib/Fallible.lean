import Mathlib

/-!
# Computations that can fail

Rules for `Except` and `Option`: a sequence that succeeds succeeded at every step, and what one
turn of a loop keeps, the loop keeps.

* **`foldlM_invariant`** — an invariant of a loop, with what it says of the error the loop may
  end with.
* **`foldlM_all`** — a loop that ends well has done its work for every element.
* `exists_of_mapM`, `mapM_eq_ok_map`, `exists_of_mem_mapM` — a list that is made element by element
  has what each of them gives, and nothing else.
-/

namespace IsardVDI

open List Option

variable {α β ε : Type}

variable {b : β} {I I' : β → Prop} {E E' : ε → Prop} {l : List α}

theorem bind_eq_ok {first : Except ε α} {rest : α → Except ε β} :
    (first >>= rest) = .ok b ↔ ∃ a, first = .ok a ∧ rest a = .ok b := by
  cases first with
  | error e | ok a => simp [bind, Except.bind]

theorem toOption_eq_some {result : Except ε α} {a : α} :
    result.toOption = some a ↔ result = .ok a := by
  cases result with
  | error e | ok b => simp [Except.toOption]

def EndsIn (I : β → Prop) (E : ε → Prop) : Except ε β → Prop
  | .ok b => I b
  | .error e => E e

variable {result : Except ε β}

theorem EndsIn.imp (h : EndsIn I E result) (hI : ∀ b, I b → I' b) (hE : ∀ e, E e → E' e) :
    EndsIn I' E' result := by
  cases result with
  | ok b => exact hI b h
  | error e => exact hE e h

theorem EndsIn.and (h : EndsIn I E result) (h' : EndsIn I' E' result) :
    EndsIn (fun b => I b ∧ I' b) (fun e => E e ∧ E' e) result := by
  cases result with
  | ok b | error e => exact ⟨h, h'⟩

variable {f : β → α → Except ε β}

theorem foldlM_invariant (hstep : ∀ b, ∀ a ∈ l, I b → EndsIn I E (f b a)) (hb : I b) :
    EndsIn I E (l.foldlM f b) := by
  induction l generalizing b with
  | nil => exact hb
  | cons a l ih =>
    have hfirst := hstep b a (.head _) hb
    rw [foldlM_cons]
    cases hrun : f b a with
    | error e =>
      rw [hrun] at hfirst
      exact hfirst
    | ok b' =>
      rw [hrun] at hfirst
      exact ih (fun b a ha => hstep b a (.tail _ ha)) hfirst

/-- `Q` is the work for one element: a turn does it for its own, and keeps it for the others. -/
theorem foldlM_all {Q : α → β → Prop}
    (hstep : ∀ b, ∀ a ∈ l, ∀ b', I b → f b a = .ok b' → I b' ∧ Q a b')
    (hkeep : ∀ b a b' x, I b → f b a = .ok b' → Q x b → Q x b') {r : β} (hb : I b)
    (h : l.foldlM f b = .ok r) : I r ∧ ∀ a ∈ l, Q a r := by
  -- what is done for the elements before stays done
  suffices hgen : ∀ (done : List α), (∀ x ∈ done, Q x b) →
      I r ∧ ∀ x ∈ done ++ l, Q x r by simpa using hgen [] (by simp)
  induction l generalizing b with
  | nil =>
    intro done hdone
    cases h
    exact ⟨hb, by simpa using hdone⟩
  | cons a l ih =>
    intro done hdone
    obtain ⟨b', hrun, hrest⟩ := bind_eq_ok.mp h
    obtain ⟨hI, hQ⟩ := hstep b a (.head _) b' hb hrun
    have hdone' : ∀ x ∈ done ++ [a], Q x b' := by
      intro x hx
      rcases mem_append.mp hx with hx | hx
      · exact hkeep b a b' x hb hrun (hdone x hx)
      · rwa [mem_singleton.mp hx]
    have hfinal := ih (fun b a ha => hstep b a (.tail _ ha)) hI hrest _ hdone'
    simpa using hfinal

theorem forM_eq_ok {f : α → Except ε Unit} : l.forM f = .ok () ↔ ∀ a ∈ l, f a = .ok () := by
  induction l with
  | nil => exact iff_of_true rfl nofun
  | cons a l ih =>
    rw [show (a :: l).forM f = f a >>= fun _ => l.forM f from rfl, bind_eq_ok,
      forall_mem_cons, ← ih]
    exact ⟨fun ⟨_, hfirst, hrest⟩ => ⟨hfirst, hrest⟩, fun ⟨hfirst, hrest⟩ => ⟨(), hfirst, hrest⟩⟩

variable {r : List β}

theorem exists_of_mapM {f : α → Option β} (h : l.mapM f = some r) {a : α} (ha : a ∈ l) :
    ∃ b ∈ r, f a = some b := by
  induction l generalizing r with
  | nil => cases ha
  | cons x l ih =>
    rw [mapM_cons] at h
    obtain ⟨b, hb, h⟩ := bind_eq_some_iff.mp h
    obtain ⟨bs, hbs, h⟩ := bind_eq_some_iff.mp h
    cases h
    rcases mem_cons.mp ha with rfl | ha
    · exact ⟨b, .head _, hb⟩
    · obtain ⟨c, hc, hfc⟩ := ih hbs ha
      exact ⟨c, .tail _ hc, hfc⟩

variable {f : α → Except ε β}

theorem mapM_eq_ok_map {g : α → β} (h : ∀ a ∈ l, f a = .ok (g a)) : l.mapM f = .ok (l.map g) := by
  induction l with
  | nil => rfl
  | cons a l ih =>
    rw [mapM_cons, h a (.head _), ih fun x hx => h x (.tail _ hx)]
    rfl

theorem exists_of_mem_mapM (h : l.mapM f = .ok r) (hb : b ∈ r) : ∃ a ∈ l, f a = .ok b := by
  induction l generalizing r with
  | nil =>
    cases h
    cases hb
  | cons x l ih =>
    rw [mapM_cons] at h
    obtain ⟨y, hy, h⟩ := bind_eq_ok.mp h
    obtain ⟨ys, hys, h⟩ := bind_eq_ok.mp h
    cases h
    rcases mem_cons.mp hb with rfl | hb
    · exact ⟨x, .head _, hy⟩
    · obtain ⟨a, ha, hfa⟩ := ih hys hb
      exact ⟨a, .tail _ ha, hfa⟩

end IsardVDI
