import Mathlib.Data.Fintype.EquivFin
import Mathlib.Data.Nat.ModEq
import Mathlib.Data.Nat.Prime.Basic
import Mathlib.Tactic.Common
import Mathlib.Tactic.Ring

/-!
# Triangular probing

The slots that are probed in a table of `2 ^ n` slots are a triangular number away from the first
one.  The first `2 ^ n` probes reach each slot once.
-/

namespace Jumanpp.Lib

def triangle : Nat → Nat
  | 0 => 0
  | p + 1 => triangle p + (p + 1)

theorem two_mul_triangle (p : Nat) : 2 * triangle p = p * (p + 1) := by
  induction p with
  | zero => rfl
  | succ p ih =>
      rw [triangle, Nat.mul_add, ih]
      ring

/-- The slot of the probe with this number. -/
def probe (capacity start p : Nat) : Nat := (start + triangle p) % capacity

theorem probe_succ (capacity start p : Nat) :
    probe capacity start (p + 1) = (probe capacity start p + (p + 1)) % capacity := by
  unfold probe
  rw [triangle, Nat.mod_add_mod, Nat.add_assoc]

theorem probe_lt {capacity : Nat} (h : 0 < capacity) (start p : Nat) :
    probe capacity start p < capacity :=
  Nat.mod_lt _ h

/-- A power of two that divides a product of an even and an odd number divides the even one. -/
theorem two_pow_dvd_of_mul {n a b : Nat} (h : 2 ^ n ∣ a * b) (hodd : a % 2 = 1 ∨ b % 2 = 1) :
    2 ^ n ∣ a ∨ 2 ^ n ∣ b := by
  rcases hodd with hodd | hodd
  · have hcoprime : Nat.Coprime (2 ^ n) a := by
      refine Nat.Coprime.pow_left n ?_
      rw [Nat.coprime_two_left, Nat.odd_iff]
      exact hodd
    exact .inr (hcoprime.dvd_of_dvd_mul_left h)
  · have hcoprime : Nat.Coprime (2 ^ n) b := by
      refine Nat.Coprime.pow_left n ?_
      rw [Nat.coprime_two_left, Nat.odd_iff]
      exact hodd
    exact .inl (hcoprime.dvd_of_dvd_mul_right h)

theorem probe_ne {n p q : Nat} (start : Nat) (hpq : p < q) (hq : q < 2 ^ n) :
    probe (2 ^ n) start p ≠ probe (2 ^ n) start q := by
  intro heq
  have hcongr : triangle p ≡ triangle q [MOD 2 ^ n] := Nat.ModEq.add_left_cancel' start heq
  have htwice : 2 ^ (n + 1) ∣ 2 * triangle q - 2 * triangle p := by
    have hle : triangle p ≤ triangle q := by
      have hp := two_mul_triangle p
      have hq := two_mul_triangle q
      have hmul : p * (p + 1) ≤ q * (q + 1) := Nat.mul_le_mul (by omega) (by omega)
      omega
    have hdvd := (Nat.modEq_iff_dvd' hle).mp hcongr
    rw [pow_succ, Nat.mul_comm, ← Nat.mul_sub]
    exact Nat.mul_dvd_mul_left 2 hdvd
  have hproduct : 2 * triangle q - 2 * triangle p = (q - p) * (p + q + 1) := by
    obtain ⟨d, rfl⟩ : ∃ d, q = p + d := ⟨q - p, by omega⟩
    rw [two_mul_triangle, two_mul_triangle, Nat.add_sub_cancel_left]
    refine Nat.sub_eq_of_eq_add ?_
    ring
  rw [hproduct] at htwice
  rcases two_pow_dvd_of_mul htwice (by omega) with hdvd | hdvd
  · have hle := Nat.le_of_dvd (by omega) hdvd
    rw [pow_succ] at hle
    omega
  · have hle := Nat.le_of_dvd (by omega) hdvd
    rw [pow_succ] at hle
    omega

/-- Every slot is probed. -/
theorem exists_probe {n slot : Nat} (start : Nat) (hslot : slot < 2 ^ n) :
    ∃ p < 2 ^ n, probe (2 ^ n) start p = slot := by
  have hpos : 0 < 2 ^ n := Nat.two_pow_pos n
  let f : Fin (2 ^ n) → Fin (2 ^ n) := fun p => ⟨probe (2 ^ n) start p, probe_lt hpos start p⟩
  have hinjective : Function.Injective f := by
    intro p q hpq
    have heq : probe (2 ^ n) start p = probe (2 ^ n) start q := congrArg Fin.val hpq
    rcases Nat.lt_trichotomy p q with hlt | hsame | hlt
    · exact absurd heq (probe_ne start hlt q.isLt)
    · exact Fin.ext hsame
    · exact absurd heq.symm (probe_ne start hlt p.isLt)
  obtain ⟨p, hp⟩ := (Finite.injective_iff_surjective.mp hinjective) ⟨slot, hslot⟩
  exact ⟨p, p.isLt, congrArg Fin.val hp⟩

/-- The first probe that finds what is looked for. -/
theorem exists_first_probe {n : Nat} (start : Nat) {found : Nat → Prop} [DecidablePred found]
    (h : ∃ slot < 2 ^ n, found slot) :
    ∃ p < 2 ^ n, found (probe (2 ^ n) start p) ∧ ∀ q < p, ¬ found (probe (2 ^ n) start q) := by
  obtain ⟨slot, hslot, hfound⟩ := h
  obtain ⟨p, hp, rfl⟩ := exists_probe start hslot
  have hex : ∃ p, found (probe (2 ^ n) start p) := ⟨p, hfound⟩
  exact ⟨Nat.find hex, (Nat.find_min' hex hfound).trans_lt hp, Nat.find_spec hex,
    fun q hq => Nat.find_min hex hq⟩

end Jumanpp.Lib
