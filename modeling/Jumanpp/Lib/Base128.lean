import Mathlib

/-!
# Numbers in groups of seven bits

A number is written in groups of seven bits, the lowest first.  The bytes of its groups have the flag
128, except the last one.
-/

namespace Jumanpp.Lib.Base128

/-- The bytes of the number at the beginning, up to the first one without the flag. -/
def encodingOf : List UInt8 → Option (List UInt8)
  | [] => none
  | b :: rest => if b.toNat < 128 then some [b] else (encodingOf rest).map (b :: ·)

/-- The groups together. -/
def value : List UInt8 → Nat
  | [] => 0
  | b :: rest => b.toNat % 128 + 128 * value rest

/-- The number above `n`, which `count` groups stand for, and what follows it; at most ten groups are
one number of 64 bits. -/
def decodeFrom (count n : Nat) (bytes : List UInt8) : Option (UInt64 × List UInt8) :=
  match encodingOf bytes with
  | none => none
  | some e =>
      if count + e.length ≤ 10 then
        some (UInt64.ofNat (n + value e * 2 ^ (7 * count)), bytes.drop e.length)
      else none

def decode (bytes : List UInt8) : Option (UInt64 × List UInt8) :=
  decodeFrom 0 0 bytes

theorem encodingOf_eq_none_iff {bytes : List UInt8} :
    encodingOf bytes = none ↔ ∀ b ∈ bytes, 128 ≤ b.toNat := by
  induction bytes with
  | nil => exact iff_of_true rfl fun b hb => absurd hb List.not_mem_nil
  | cons b rest ih =>
    rw [encodingOf]
    by_cases hlast : b.toNat < 128
    · rw [if_pos hlast]
      apply iff_of_false (Option.some_ne_none _)
      intro hall
      have hflag := hall b (List.mem_cons_self ..)
      omega
    · rw [if_neg hlast, Option.map_eq_none_iff, ih, List.forall_mem_cons]
      exact ⟨fun h => ⟨Nat.le_of_not_lt hlast, h⟩, fun h => h.2⟩

theorem encodingOf_length_pos {bytes e : List UInt8} (h : encodingOf bytes = some e) :
    0 < e.length := by
  cases bytes with
  | nil => cases h
  | cons b rest =>
    rw [encodingOf] at h
    split at h
    · cases h
      exact Nat.one_pos
    · obtain ⟨tail, -, rfl⟩ := Option.map_eq_some_iff.mp h
      exact Nat.succ_pos _

theorem decode_eq_none_iff {bytes : List UInt8} : decode bytes = none ↔
    (∀ b ∈ bytes, 128 ≤ b.toNat) ∨ ∃ e, encodingOf bytes = some e ∧ 10 < e.length := by
  unfold decode decodeFrom
  rw [← encodingOf_eq_none_iff]
  cases encodingOf bytes with
  | none => exact iff_of_true rfl (.inl rfl)
  | some e =>
    show (if 0 + e.length ≤ 10 then _ else none) = none ↔ _
    by_cases hle : e.length ≤ 10
    · rw [if_pos (by omega)]
      apply iff_of_false (Option.some_ne_none _)
      rintro (h | ⟨e', he, h⟩)
      · cases h
      · obtain rfl := Option.some.inj he
        exact absurd hle (Nat.not_le.mpr h)
    · rw [if_neg (by omega)]
      exact iff_of_true rfl (.inr ⟨e, rfl, Nat.lt_of_not_le hle⟩)

theorem decodeFrom_nil (count n : Nat) : decodeFrom count n [] = none := rfl

theorem decodeFrom_ten (n : Nat) (bytes : List UInt8) : decodeFrom 10 n bytes = none := by
  unfold decodeFrom
  cases hencoding : encodingOf bytes with
  | none => rfl
  | some e =>
    have hpos := encodingOf_length_pos hencoding
    exact if_neg (by omega)

theorem decodeFrom_last {count n : Nat} {b : UInt8} (rest : List UInt8) (hlast : b.toNat < 128)
    (hcount : count < 10) :
    decodeFrom count n (b :: rest) = some (UInt64.ofNat (n + b.toNat * 2 ^ (7 * count)), rest) := by
  unfold decodeFrom
  rw [encodingOf, if_pos hlast]
  show (if count + 1 ≤ 10 then _ else none) = _
  rw [if_pos (Nat.succ_le_of_lt hcount), value, value, Nat.mul_zero, Nat.add_zero, Nat.mod_eq_of_lt hlast]
  rfl

theorem decodeFrom_flag {count n : Nat} {b : UInt8} (rest : List UInt8) (hflag : 128 ≤ b.toNat) :
    decodeFrom count n (b :: rest) =
      decodeFrom (count + 1) (n + b.toNat % 128 * 2 ^ (7 * count)) rest := by
  unfold decodeFrom
  rw [encodingOf, if_neg (Nat.not_lt.mpr hflag)]
  cases encodingOf rest with
  | none => rfl
  | some e =>
    show (if count + (e.length + 1) ≤ 10 then some (UInt64.ofNat
      (n + (b.toNat % 128 + 128 * value e) * 2 ^ (7 * count)), rest.drop e.length) else none) = _
    have hvalue : n + (b.toNat % 128 + 128 * value e) * 2 ^ (7 * count) =
        n + b.toNat % 128 * 2 ^ (7 * count) + value e * 2 ^ (7 * (count + 1)) := by
      rw [show 7 * (count + 1) = 7 + 7 * count by omega, Nat.pow_add]
      ring
    rw [hvalue, show count + (e.length + 1) = count + 1 + e.length by omega]

end Jumanpp.Lib.Base128
