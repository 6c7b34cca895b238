import Mathlib.Data.Nat.Notation
import Mathlib.Tactic.Common

/-!
# Runs of a machine

A machine takes an action where it is enabled.  What holds at the start and is kept by each action
that meets a condition holds in every state of a run whose actions meet the condition.
-/

namespace Jumanpp.Lib

variable {σ α : Type}

/-- The states reached from `s` by actions that meet `cond` where they are taken. -/
inductive Reachable (step : σ → α → Option σ) (cond : σ → α → Prop) (s : σ) : σ → Prop
  | start : Reachable step cond s s
  | next {t u : σ} (a : α) : Reachable step cond s t → cond t a → step t a = some u →
      Reachable step cond s u

variable {step : σ → α → Option σ} {cond : σ → α → Prop}

theorem Reachable.invariant {P : σ → Prop} {s t : σ} (h : Reachable step cond s t) (hs : P s)
    (hkeep : ∀ {t u a}, P t → cond t a → step t a = some u → P u) : P t := by
  induction h with
  | start => exact hs
  | next a _ hcond hstep ih => exact hkeep ih hcond hstep

theorem Reachable.mono {cond' : σ → α → Prop} {s t : σ} (h : Reachable step cond s t)
    (hcond : ∀ {t a}, cond t a → cond' t a) : Reachable step cond' s t := by
  induction h with
  | start => exact .start
  | next a _ ha hstep ih => exact .next a ih (hcond ha) hstep

/-- A machine that takes only the actions that meet the condition. -/
def guarded (step : σ → α → Option σ) (cond : σ → α → Prop) [∀ s a, Decidable (cond s a)] (s : σ)
    (a : α) : Option σ :=
  if cond s a then step s a else none

theorem reachable_of_guarded [∀ s a, Decidable (cond s a)] {r s t : σ} {actions : List α}
    (h : Reachable step cond r s) (hrun : actions.foldlM (guarded step cond) s = some t) :
    Reachable step cond r t := by
  induction actions generalizing s with
  | nil =>
      rwa [← Option.some.inj hrun]
  | cons a actions ih =>
      rw [List.foldlM_cons] at hrun
      obtain ⟨u, hu, hrest⟩ := Option.bind_eq_some_iff.mp hrun
      unfold guarded at hu
      split_ifs at hu with ha
      exact ih (h.next a ha hu) hrest

/-! ## Runs without idle actions -/

/-- The state is reached by `n` actions that each change it. -/
inductive Moves (step : σ → α → Option σ) (cond : σ → α → Prop) (s : σ) : Nat → σ → Prop
  | start : Moves step cond s 0 s
  | next {n : Nat} {t u : σ} (a : α) : Moves step cond s n t → cond t a → step t a = some u → u ≠ t →
      Moves step cond s (n + 1) u

theorem Moves.mono {cond' : σ → α → Prop} {s t : σ} {n : Nat} (h : Moves step cond s n t)
    (hcond : ∀ {t a}, cond t a → cond' t a) : Moves step cond' s n t := by
  induction h with
  | start => exact .start
  | next a _ ha hstep hne ih => exact .next a ih (hcond ha) hstep hne

theorem Moves.reachable {r s t : σ} {n : Nat} (h : Moves step cond s n t)
    (hs : Reachable step cond r s) : Reachable step cond r t := by
  induction h with
  | start => exact hs
  | next a _ ha hstep _ ih => exact ih.next a ha hstep

/-- If each of the actions makes less of something, there is an end to them. -/
theorem Moves.length_add_le {s t : σ} {n : Nat} (left : σ → Nat) (h : Moves step cond s n t)
    (hless : ∀ {t u a}, cond t a → step t a = some u → u ≠ t → left u < left t) :
    n + left t ≤ left s := by
  induction h with
  | start => exact Nat.le_of_eq (Nat.zero_add _)
  | next a _ ha hstep hne ih =>
      have hlt := hless ha hstep hne
      omega

theorem reachable_of_run {s t : σ} {actions : List α} (h : actions.foldlM step s = some t) :
    Reachable step (fun _ _ => True) s t := by
  have hrun : ∀ (actions : List α) (r : σ), Reachable step (fun _ _ => True) s r →
      actions.foldlM step r = some t → Reachable step (fun _ _ => True) s t := by
    intro actions
    induction actions with
    | nil =>
        intro r hr heq
        rwa [← Option.some.inj heq]
    | cons a actions ih =>
        intro r hr heq
        rw [List.foldlM_cons] at heq
        obtain ⟨u, hu, hrest⟩ := Option.bind_eq_some_iff.mp heq
        exact ih u (hr.next a trivial hu) hrest
  exact hrun actions s .start h

/-- No action changes the state. -/
def Stuck (step : σ → α → Option σ) (s : σ) : Prop :=
  ∀ a t, step s a = some t → t = s

end Jumanpp.Lib
