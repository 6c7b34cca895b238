import Mathlib.Algebra.Order.Ring.Rat
import Mathlib.Order.Monotone.Basic
import Mathlib.Tactic.Linarith
import Mathlib.Tactic.Positivity

/-!
# Numbers in binary32

A number is its 32 bits: sign, exponent and fraction.  Every finite one is a multiple of the least
positive one, so its value is an integer in that unit; an infinity has the value that would come
next.  `orderKey` is the unsigned number in whose order the values are.
-/

namespace Jumanpp.Lib

abbrev Binary32 := BitVec 32

namespace Binary32

/-- Exponent and fraction. -/
def magnitude (x : Binary32) : Nat := x.toNat % 2 ^ 31

/-- The absolute value for an exponent and a fraction, in units of the least positive number. -/
def scaled (n : Nat) : Nat :=
  -- below the first exponent the leading bit is not there
  if n < 2 ^ 23 then n else (2 ^ 23 + n % 2 ^ 23) * 2 ^ (n / 2 ^ 23 - 1)

def value (x : Binary32) : Int :=
  if x.msb then -(scaled x.magnitude : Int) else scaled x.magnitude

def infinity : Binary32 := 0x7f800000#32

def isNaN (x : Binary32) : Bool := decide (infinity.magnitude < x.magnitude)

def isFinite (x : Binary32) : Bool := decide (x.magnitude < infinity.magnitude)

/-- `<` of the numbers: zero has two signs, and no comparison with a NaN holds. -/
def less (x y : Binary32) : Bool :=
  !isNaN x && !isNaN y && decide (value x < value y)

theorem less_iff {x y : Binary32} :
    less x y = true ↔ isNaN x = false ∧ isNaN y = false ∧ value x < value y := by
  simp [less, and_assoc]

/-! ## The order of the bits -/

def orderKey (x : Binary32) : Binary32 :=
  if x.msb then ~~~x else x ^^^ 0x80000000#32

theorem scaled_lt_succ (n : Nat) : scaled n < scaled (n + 1) := by
  unfold scaled
  split_ifs with hn hnext hnext
  · omega
  · -- the first number with a leading bit
    have hlast : n = 2 ^ 23 - 1 := by omega
    subst hlast
    decide
  · omega
  · by_cases hfraction : n % 2 ^ 23 = 2 ^ 23 - 1
    · -- the fraction starts again and the exponent grows
      have hmod : (n + 1) % 2 ^ 23 = 0 := by omega
      have hdiv : (n + 1) / 2 ^ 23 - 1 = n / 2 ^ 23 - 1 + 1 := by omega
      have hscale : 0 < 2 ^ (n / 2 ^ 23 - 1) := by positivity
      rw [hmod, hdiv, hfraction, Nat.pow_succ (2 : Nat) (n / 2 ^ 23 - 1)]
      omega
    · have hmod : (n + 1) % 2 ^ 23 = n % 2 ^ 23 + 1 := by omega
      have hdiv : (n + 1) / 2 ^ 23 = n / 2 ^ 23 := by omega
      rw [hmod, hdiv]
      exact Nat.mul_lt_mul_of_pos_right (by omega) (by positivity)

theorem scaled_strictMono : StrictMono scaled :=
  strictMono_nat_of_lt_succ scaled_lt_succ

theorem msb_iff (x : Binary32) : x.msb = true ↔ 2 ^ 31 ≤ x.toNat := by
  rw [BitVec.msb_eq_decide, decide_eq_true_iff]

/-- Without the sign the key is that of a positive number. -/
theorem toNat_orderKey (x : Binary32) :
    (orderKey x).toNat = if x.msb then 2 ^ 31 - 1 - x.magnitude else 2 ^ 31 + x.magnitude := by
  have hlt := x.isLt
  unfold orderKey magnitude
  split
  · next hneg =>
      rw [msb_iff] at hneg
      rw [BitVec.toNat_not]
      omega
  · next hpos =>
      rw [msb_iff] at hpos
      rw [BitVec.toNat_xor]
      have hlow := @Nat.xor_mod_two_pow x.toNat (0x80000000#32).toNat 31
      have hhigh := @Nat.xor_div_two_pow x.toNat (0x80000000#32).toNat 31
      have hzero : x.toNat / 2 ^ 31 = 0 := by omega
      rw [hzero] at hhigh
      have hbit : (0x80000000#32).toNat / 2 ^ 31 = 1 := by decide
      have hrest : (0x80000000#32).toNat % 2 ^ 31 = 0 := by decide
      rw [hbit, Nat.zero_xor] at hhigh
      rw [hrest, Nat.xor_zero] at hlow
      omega

theorem magnitude_lt (x : Binary32) : x.magnitude < 2 ^ 31 :=
  Nat.mod_lt _ (by decide)

/-- A smaller number has a smaller key. -/
theorem orderKey_lt {x y : Binary32} (h : value x < value y) : orderKey x < orderKey y := by
  have hx := x.magnitude_lt
  rw [BitVec.lt_def, toNat_orderKey, toNat_orderKey]
  unfold value at h
  split_ifs at h ⊢ with hnegx hnegy hnegy
  · have hmag : y.magnitude < x.magnitude := scaled_strictMono.lt_iff_lt.mp (by omega)
    omega
  · omega
  · omega
  · have hmag : x.magnitude < y.magnitude := scaled_strictMono.lt_iff_lt.mp (by omega)
    omega

theorem msb_orderKey (x : Binary32) : BitVec.msb (orderKey x) = !x.msb := by
  have hx := x.magnitude_lt
  have hkey := msb_iff (orderKey x)
  rw [toNat_orderKey] at hkey
  cases hmsb : BitVec.msb x with
  | false =>
      rw [hmsb] at hkey
      exact hkey.mpr (by rw [if_neg (by decide)]; omega)
  | true =>
      rw [hmsb, if_pos rfl] at hkey
      have hne : ¬ BitVec.msb (orderKey x) = true := fun h => by
        have := hkey.mp h
        omega
      simpa using hne

theorem orderKey_injective : Function.Injective orderKey := by
  intro x y h
  have hx := x.magnitude_lt
  have hy := y.magnitude_lt
  have hkey : (orderKey x).toNat = (orderKey y).toNat := by rw [h]
  rw [toNat_orderKey, toNat_orderKey] at hkey
  have hmsbx := msb_iff x
  have hmsby := msb_iff y
  have hltx := x.isLt
  have hlty := y.isLt
  apply BitVec.eq_of_toNat_eq
  unfold magnitude at *
  split_ifs at hkey with hnegx hnegy hnegy
  · simp only [hnegx, hnegy, true_iff] at hmsbx hmsby
    omega
  · omega
  · omega
  · simp only [hnegx, hnegy, false_iff, Bool.false_eq_true] at hmsbx hmsby
    omega

/-! ## As rational numbers -/

def toRat (x : Binary32) : ℚ := value x / 2 ^ 149

theorem toRat_lt_iff {x y : Binary32} : toRat x < toRat y ↔ value x < value y := by
  unfold toRat
  rw [div_lt_div_iff_of_pos_right (by positivity), Int.cast_lt]

end Binary32

end Jumanpp.Lib
