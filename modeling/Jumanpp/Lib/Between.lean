import Mathlib.Data.List.Basic
import Mathlib.Data.List.Nodup
import Mathlib.Tactic.Common

/-!
# What a loop over a range puts out

`between b e f` are the outputs `f b`, …, `f (e - 1)` of the turns of a loop in their order.
-/

namespace Jumanpp.Lib

variable {α β : Type}

def between (b e : Nat) (f : Nat → List α) : List α :=
  (List.range' b (e - b)).flatMap f

variable {b e k : Nat} {f g : Nat → List α}

@[simp]
theorem between_self (b : Nat) (f : Nat → List α) : between b b f = [] := by
  unfold between
  rw [Nat.sub_self]
  rfl

theorem between_succ (h : b ≤ e) : between b (e + 1) f = between b e f ++ f e := by
  unfold between
  rw [Nat.succ_sub h, List.range'_concat, List.flatMap_append, List.flatMap_singleton, Nat.one_mul,
    Nat.add_sub_cancel' h]

theorem between_append (hb : b ≤ k) (he : k ≤ e) :
    between b k f ++ between k e f = between b e f := by
  obtain ⟨d, rfl⟩ := Nat.exists_eq_add_of_le he
  induction d with
  | zero => rw [Nat.add_zero, between_self, List.append_nil]
  | succ d ih =>
      rw [← Nat.add_assoc, between_succ (by omega), between_succ (by omega), ← ih (by omega),
        List.append_assoc]

theorem mem_between_iff {x : α} : x ∈ between b e f ↔ ∃ i, b ≤ i ∧ i < e ∧ x ∈ f i := by
  unfold between
  simp only [List.mem_flatMap, List.mem_range'_1]
  constructor
  · rintro ⟨i, hi, hx⟩
    exact ⟨i, hi.1, by omega, hx⟩
  · rintro ⟨i, hb, he, hx⟩
    exact ⟨i, ⟨hb, by omega⟩, hx⟩

theorem between_congr (h : ∀ i, b ≤ i → i < e → f i = g i) : between b e f = between b e g := by
  unfold between
  apply List.flatMap_congr
  intro i hi
  rw [List.mem_range'_1] at hi
  exact h i hi.1 (by omega)

/-- The outputs of the turns from `k` on may be empty. -/
theorem between_of_nil (hb : b ≤ k) (he : k ≤ e) (h : ∀ i, k ≤ i → i < e → f i = []) :
    between b e f = between b k f := by
  obtain ⟨d, rfl⟩ := Nat.exists_eq_add_of_le he
  induction d with
  | zero => rfl
  | succ d ih =>
      rw [← Nat.add_assoc, between_succ (by omega), h (k + d) (by omega) (by omega), List.append_nil]
      exact ih (by omega) fun i hi hlt => h i hi (by omega)

theorem map_between (g : α → β) (b e : Nat) (f : Nat → List α) :
    (between b e f).map g = between b e fun i => (f i).map g := by
  unfold between
  rw [List.map_flatMap]

/-- One turn alone puts out `x`. -/
theorem count_between [BEq α] [LawfulBEq α] {x : α} (hne : ∀ i, i ≠ k → x ∉ f i) :
    (between b e f).count x = if b ≤ k ∧ k < e then (f k).count x else 0 := by
  by_cases hbe : b ≤ e
  · obtain ⟨d, rfl⟩ := Nat.exists_eq_add_of_le hbe
    induction d with
    | zero =>
        rw [Nat.add_zero, between_self, if_neg (by omega)]
        rfl
    | succ d ih =>
        rw [← Nat.add_assoc, between_succ (by omega), List.count_append, ih (by omega)]
        by_cases hk : b + d = k
        · subst hk
          rw [if_neg (by omega), if_pos (by omega), Nat.zero_add]
        · rw [List.count_eq_zero.mpr (hne _ hk), Nat.add_zero]
          split_ifs <;> first | rfl | omega
  · unfold between
    rw [Nat.sub_eq_zero_of_le (by omega), if_neg (by omega)]
    rfl

end Jumanpp.Lib
