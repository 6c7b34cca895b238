import Mathlib

/-!
# Words from bytes

The word whose lowest byte comes first.  Up to eight bytes fit into it, and a further byte does not
touch the bits of those before it.
-/

namespace Jumanpp.Lib.LittleEndian

def value (bytes : List UInt8) : Nat := Nat.ofDigits 256 (bytes.map UInt8.toNat)

def word (bytes : List UInt8) : UInt64 := UInt64.ofNat (value bytes)

@[simp] theorem value_nil : value [] = 0 := rfl

@[simp] theorem word_nil : word [] = 0 := rfl

theorem value_append (x y : List UInt8) : value (x ++ y) = value x + 256 ^ x.length * value y := by
  rw [value, List.map_append, Nat.ofDigits_append, List.length_map]
  rfl

theorem value_lt (bytes : List UInt8) : value bytes < 256 ^ bytes.length := by
  have hdigits : ∀ d ∈ bytes.map UInt8.toNat, d < 256 := by
    intro d hd
    obtain ⟨b, -, rfl⟩ := List.mem_map.mp hd
    exact b.toNat_lt
  simpa [value] using Nat.ofDigits_lt_base_pow_length (by decide : 1 < 256) hdigits

theorem value_lt_word {bytes : List UInt8} (h : bytes.length ≤ 8) : value bytes < 2 ^ 64 :=
  calc
    value bytes < 256 ^ bytes.length := value_lt bytes
    _ ≤ 256 ^ 8 := Nat.pow_le_pow_right (by decide) h
    _ = 2 ^ 64 := by norm_num

theorem toNat_word {bytes : List UInt8} (h : bytes.length ≤ 8) : (word bytes).toNat = value bytes :=
  UInt64.toNat_ofNat_of_lt' (value_lt_word h)

theorem value_eq_zero_iff (bytes : List UInt8) : value bytes = 0 ↔ ∀ b ∈ bytes, b = 0 := by
  induction bytes with
  | nil => simp
  | cons b bytes ih =>
      rw [show b :: bytes = [b] ++ bytes from rfl, value_append]
      have hsingle : value [b] = b.toNat := by simp [value]
      have hzero : b.toNat = 0 ↔ b = 0 := UInt8.toNat_inj (b := 0)
      rw [hsingle, Nat.add_eq_zero_iff, Nat.mul_eq_zero, ih, hzero, List.singleton_append,
        List.forall_mem_cons]
      simp

theorem word_eq_zero_iff {bytes : List UInt8} (h : bytes.length ≤ 8) :
    word bytes = 0 ↔ ∀ b ∈ bytes, b = 0 := by
  rw [← value_eq_zero_iff, ← toNat_word h, ← UInt64.toNat_inj]
  rfl

/-- A sum whose terms have no bit in common. -/
theorem xor_two_pow_mul {x i : Nat} (hx : x < 2 ^ i) (y : Nat) : x ^^^ 2 ^ i * y = x + 2 ^ i * y := by
  rw [Nat.add_comm, Nat.two_pow_add_eq_or_of_lt hx]
  apply Nat.eq_of_testBit_eq
  intro j
  rw [Nat.testBit_xor, Nat.testBit_or, Nat.testBit_two_pow_mul]
  by_cases hj : i ≤ j
  · have hzero : x.testBit j = false :=
      Nat.testBit_lt_two_pow (hx.trans_le (Nat.pow_le_pow_right (by decide) hj))
    simp [hzero]
  · simp [hj]

/-- A further byte is put above those before it. -/
theorem word_append_singleton {bytes : List UInt8} (h : bytes.length < 8) (b : UInt8) :
    word (bytes ++ [b]) =
      word bytes ^^^ b.toUInt64 <<< UInt64.ofNat (8 * bytes.length) := by
  have hb : b.toNat < 256 := b.toNat_lt
  have hpow : 256 ^ bytes.length = 2 ^ (8 * bytes.length) := by rw [Nat.pow_mul]
  have hvalue : value (bytes ++ [b]) = value bytes + 2 ^ (8 * bytes.length) * b.toNat := by
    rw [value_append, hpow]
    simp [value]
  have hlt : value bytes < 2 ^ (8 * bytes.length) := hpow ▸ value_lt bytes
  have hfits : value (bytes ++ [b]) < 2 ^ 64 := value_lt_word (by simpa using h)
  have hshift : 2 ^ (8 * bytes.length) * b.toNat < 2 ^ 64 := by omega
  apply UInt64.toNat_inj.mp
  rw [toNat_word (by simpa using h), hvalue, UInt64.toNat_xor, toNat_word (by omega),
    UInt64.toNat_shiftLeft, UInt8.toNat_toUInt64, UInt64.toNat_ofNat_of_lt' (by
      show 8 * bytes.length < 2 ^ 64
      omega), Nat.mod_eq_of_lt (by omega : 8 * bytes.length < 64), Nat.shiftLeft_eq, Nat.mul_comm b.toNat,
    Nat.mod_eq_of_lt hshift, xor_two_pow_mul hlt]

end Jumanpp.Lib.LittleEndian
