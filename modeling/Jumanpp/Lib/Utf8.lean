import Mathlib

/-!
# Sequences of UTF-8

A character is a byte that says how many continuation bytes follow it, and these bytes.  Its number is
in the bits that are left.
-/

namespace Jumanpp.Lib.Utf8

/-- `10xxxxxx` -/
def Trail (b : UInt8) : Prop := 0x80 ≤ b.toNat ∧ b.toNat < 0xc0

/-- The bytes of one character, and its number: `0xxxxxxx`, `110xxxxx`, `1110xxxx` or `11110xxx` and
the continuation bytes. -/
inductive Sequence : List UInt8 → Nat → Prop
  | one {a : UInt8} : a.toNat < 0x80 → Sequence [a] a.toNat
  | two {a b : UInt8} : 0xc0 ≤ a.toNat → a.toNat < 0xe0 → Trail b →
      Sequence [a, b] (a.toNat % 32 * 64 + b.toNat % 64)
  | three {a b c : UInt8} : 0xe0 ≤ a.toNat → a.toNat < 0xf0 → Trail b → Trail c →
      Sequence [a, b, c] ((a.toNat % 16 * 64 + b.toNat % 64) * 64 + c.toNat % 64)
  | four {a b c d : UInt8} : 0xf0 ≤ a.toNat → a.toNat < 0xf8 → Trail b → Trail c → Trail d →
      Sequence [a, b, c, d]
        (((a.toNat % 8 * 64 + b.toNat % 64) * 64 + c.toNat % 64) * 64 + d.toNat % 64)

def IsSequence (s : List UInt8) : Prop := ∃ n, Sequence s n

/-- The beginning of a character, which is not all of it. -/
def IsCut (s : List UInt8) : Prop := s ≠ [] ∧ ∃ rest, rest ≠ [] ∧ IsSequence (s ++ rest)

/-- The bytes are characters. -/
def IsText (bytes : List UInt8) : Prop :=
  ∃ seqs : List (List UInt8), (∀ s ∈ seqs, IsSequence s) ∧ bytes = seqs.flatten

/-- `n` characters begin in the bytes, the last of which may be cut. -/
def Begin (bytes : List UInt8) (n : Nat) : Prop :=
  ∃ (seqs : List (List UInt8)) (cut : List UInt8), (∀ s ∈ seqs, IsSequence s) ∧
    bytes = seqs.flatten ++ cut ∧
      (cut = [] ∧ n = seqs.length ∨ IsCut cut ∧ n = seqs.length + 1)

/-- The length of a character with this first byte. -/
def lengthOf (lead : UInt8) : Nat :=
  if 0xef < lead then 4 else if 0xdf < lead then 3 else if 0x7f < lead then 2 else 1

theorem lengthOf_pos (lead : UInt8) : 0 < lengthOf lead := by
  unfold lengthOf
  split_ifs <;> decide

theorem Sequence.ne_nil {s : List UInt8} {n : Nat} (h : Sequence s n) : s ≠ [] := by
  cases h <;> exact List.cons_ne_nil _ _

theorem Sequence.length_eq {a : UInt8} {s : List UInt8} {n : Nat} (h : Sequence (a :: s) n) :
    (a :: s).length = lengthOf a := by
  unfold lengthOf
  simp only [UInt8.lt_iff_toNat_lt, UInt8.reduceToNat]
  cases h with
  | one ha => rw [if_neg (by omega), if_neg (by omega), if_neg (by omega)]; rfl
  | two ha ha' => rw [if_neg (by omega), if_neg (by omega), if_pos (by omega)]; rfl
  | three ha ha' => rw [if_neg (by omega), if_pos (by omega)]; rfl
  | four ha ha' => rw [if_pos (by omega)]; rfl

theorem IsCut.length_lt {a : UInt8} {s : List UInt8} (h : IsCut (a :: s)) :
    (a :: s).length < lengthOf a := by
  obtain ⟨-, rest, hrest, n, hseq⟩ := h
  have hlength : (s ++ rest).length + 1 = lengthOf a := hseq.length_eq
  have hpos := List.length_pos_iff.mpr hrest
  rw [List.length_append] at hlength
  rw [List.length_cons]
  omega

/-- Bits that do not overlap. -/
theorem or_eq_add {a b k : Nat} (ha : 2 ^ k ∣ a) (hb : b < 2 ^ k) : a ||| b = a + b := by
  obtain ⟨c, rfl⟩ := ha
  exact (Nat.two_pow_add_eq_or_of_lt hb c).symm

/-- A fact about a byte, tried on all of them. -/
theorem forall_byte {P : UInt8 → Prop} (h : ∀ i : Fin 256, P (UInt8.ofNat i.val)) (b : UInt8) :
    P b := by
  have hb := h ⟨b.toNat, b.toNat_lt⟩
  rwa [UInt8.ofNat_toNat] at hb

end Jumanpp.Lib.Utf8
