import Mathlib.Data.Option.Basic

/-!
# Machines, runs and invariants

A machine is a partial step function on a state type: `next s a = none` says that the
action `a` is not possible in `s` (a guard refuses it, or the modelled call fails). Runs
are finite lists of actions, so a statement "in every reachable state" is a statement
about every list of actions, and a concrete run is evaluated by `decide`.
-/

namespace IsardVDI

/-- A partial, deterministic step function. Non-determinism lives in the action. -/
structure Machine (S A : Type) where
  next : S → A → Option S

namespace Machine

variable {S A : Type} (M : Machine S A)

/-- The state after the actions, or `none` if one of them is not possible. -/
def run : S → List A → Option S
  | s, [] => some s
  | s, a :: as =>
    match M.next s a with
    | some s' => run s' as
    | none => none

/-- Every step of the run is taken in a state where `P` allows it. -/
def Meets (P : S → A → Prop) : S → List A → Prop
  | _, [] => True
  | s, a :: as =>
    P s a ∧
      match M.next s a with
      | some s' => Meets P s' as
      | none => True

instance decidableMeets (P : S → A → Prop) [∀ s a, Decidable (P s a)] :
    ∀ s as, Decidable (M.Meets P s as)
  | _, [] => isTrue trivial
  | s, a :: as =>
    have : Decidable (match M.next s a with
        | some s' => M.Meets P s' as
        | none => True) :=
      match M.next s a with
      | some s' => decidableMeets P s' as
      | none => isTrue trivial
    inferInstanceAs (Decidable (_ ∧ _))

variable {s s' : S} {as : List A}

theorem run_cons {a : A} :
    M.run s (a :: as) = some s' ↔ ∃ t, M.next s a = some t ∧ M.run t as = some s' := by
  cases h : M.next s a with
  | none | some t => simp [run, h]

variable {P : S → A → Prop}

theorem meets_cons {t : S} {a : A} (ht : M.next s a = some t) :
    M.Meets P s (a :: as) ↔ P s a ∧ M.Meets P t as := by
  simp [Meets, ht]

theorem meets_of_forall (h : ∀ a ∈ as, ∀ s, P s a) (s : S) : M.Meets P s as := by
  induction as generalizing s with
  | nil => trivial
  | cons a as ih =>
    refine ⟨h a (.head _) s, ?_⟩
    split
    · exact ih (fun a' ha' => h a' (.tail _ ha')) _
    · trivial

variable (P : S → A → Prop) (Inv : S → Prop)

/-- **The invariant rule.** What every allowed step preserves holds after every run
whose steps are all allowed. -/
theorem run_invariant (hstep : ∀ s a s', Inv s → P s a → M.next s a = some s' → Inv s') (hs : Inv s)
    (hP : M.Meets P s as) (hrun : M.run s as = some s') : Inv s' := by
  induction as generalizing s with
  | nil =>
    cases hrun
    exact hs
  | cons a as ih =>
    obtain ⟨t, ht, hrest⟩ := M.run_cons.mp hrun
    obtain ⟨hPa, hPas⟩ := (M.meets_cons ht).mp hP
    exact ih (hstep s a t hs hPa ht) hPas hrest

theorem meets_of_invariant (Q : S → A → Prop) (Inv : S → Prop)
    (hstep : ∀ s a s', Inv s → P s a → M.next s a = some s' → Inv s')
    (himp : ∀ s a, Inv s → P s a → Q s a) (hs : Inv s) (hP : M.Meets P s as) : M.Meets Q s as := by
  induction as generalizing s with
  | nil => trivial
  | cons a as ih =>
    obtain ⟨hPa, hPas⟩ := hP
    refine ⟨himp s a hs hPa, ?_⟩
    cases hnext : M.next s a with
    | none => trivial
    | some t =>
      rw [hnext] at hPas
      exact ih (hstep s a t hs hPa hnext) hPas

theorem run_preserves (hstep : ∀ s a s', Inv s → M.next s a = some s' → Inv s') (hs : Inv s)
    (hrun : M.run s as = some s') : Inv s' :=
  M.run_invariant (fun _ _ => True) Inv (fun s a s' hs _ => hstep s a s' hs) hs
    (M.meets_of_forall (fun _ _ _ => trivial) s) hrun

end Machine

end IsardVDI
