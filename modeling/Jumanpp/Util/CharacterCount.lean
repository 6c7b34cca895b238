import Jumanpp.Lib.Utf8
import Jumanpp.Util.Characters

/-!
# Characters and their number

`preprocessRawData` reads the characters of a text one by one, and `numCodepoints` counts them by their
first bytes alone.
-/

namespace Jumanpp.Util

open Jumanpp.Lib.Utf8

/-! ## The code -/

/-- `getCodepoint` with the reads that it makes; `none` is a read past the end. -/
def readCodepoint (bytes : List UInt8) : Option CodePointInfo := do
  let b0 ← bytes[0]?
  if b0 > 0xef then
    if ¬ 4 ≤ bytes.length then return ⟨0, 0⟩
    if ((b0 &&& ~~~0x7) ^^^ 0xf0) != 0 then return ⟨0, 0⟩
    let b1 ← bytes[1]?
    if !isTrail b1 then return ⟨0, 0⟩
    let b2 ← bytes[2]?
    if !isTrail b2 then return ⟨0, 0⟩
    let b3 ← bytes[3]?
    if !isTrail b3 then return ⟨0, 0⟩
    return ⟨(b0 &&& 0x07).toNat <<< 18 ||| trailBits b1 <<< 12 ||| trailBits b2 <<< 6 |||
      trailBits b3, 4⟩
  else if b0 > 0xdf then
    if ¬ 3 ≤ bytes.length then return ⟨0, 0⟩
    if ((b0 &&& ~~~0xf) ^^^ 0xe0) != 0 then return ⟨0, 0⟩
    let b1 ← bytes[1]?
    if !isTrail b1 then return ⟨0, 0⟩
    let b2 ← bytes[2]?
    if !isTrail b2 then return ⟨0, 0⟩
    return ⟨(b0 &&& 0x0f).toNat <<< 12 ||| trailBits b1 <<< 6 ||| trailBits b2, 3⟩
  else if b0 > 0x7f then
    if ¬ 2 ≤ bytes.length then return ⟨0, 0⟩
    if ((b0 &&& ~~~0x1f) ^^^ 0xc0) != 0 then return ⟨0, 0⟩
    let b1 ← bytes[1]?
    if !isTrail b1 then return ⟨0, 0⟩
    return ⟨(b0 &&& 0x1f).toNat <<< 6 ||| trailBits b1, 2⟩
  else
    if ¬ 1 ≤ bytes.length then return ⟨0, 0⟩
    if b0 &&& ~~~0x7f != 0 then return ⟨0, 0⟩
    return ⟨(b0 &&& 0x7f).toNat, 1⟩

/-- The loop of `preprocessRawData` over these reads; the inner `none` is the status. -/
def readCharacters : Nat → List UInt8 → Option (Option (List InputCodepoint))
  | _, [] => some (some [])
  | 0, _ => some none
  | turns + 1, bytes => do
      let ret ← readCodepoint bytes
      if ret.utf8Length = 0 then pure none
      else do
        let rest ← readCharacters turns (bytes.drop ret.utf8Length)
        pure (rest.map
          (⟨ret.codepoint, getCodeType ret.codepoint, bytes.take ret.utf8Length⟩ :: ·))

/-- The loop over the first bytes; `none` is a counter that does not fit an `i32`. -/
def countFrom (count : Nat) : List UInt8 → Option Int
  | [] => some count
  | b :: rest =>
      let length := if b > 0xef then 4 else if b > 0xdf then 3 else if b > 0x7f then 2 else 1
      if ¬ count + 1 < 2 ^ 31 then none
      -- the next character would begin behind the end
      else if rest.length + 1 < length then some (-1)
      else countFrom (count + 1) (rest.drop (length - 1))
termination_by bytes => bytes.length

def numCodepoints (utf8 : List UInt8) : Option Int :=
  countFrom 0 utf8

/-! ## One character -/

theorem isTrail_iff : ∀ b : UInt8, isTrail b = true ↔ Trail b := by
  apply forall_byte
  unfold Trail
  decide +kernel

theorem trailBits_eq (b : UInt8) : trailBits b = b.toNat % 64 := by
  rw [trailBits, UInt8.toNat_and]
  exact Nat.and_two_pow_sub_one_eq_mod b.toNat 6

theorem lead_four_iff : ∀ b : UInt8, (((b &&& ~~~0x7) ^^^ 0xf0) == 0) = true ↔
    0xf0 ≤ b.toNat ∧ b.toNat < 0xf8 := by
  apply forall_byte
  decide +kernel

theorem lead_three_iff : ∀ b : UInt8, (((b &&& ~~~0xf) ^^^ 0xe0) == 0) = true ↔
    0xe0 ≤ b.toNat ∧ b.toNat < 0xf0 := by
  apply forall_byte
  decide +kernel

theorem lead_two_iff : ∀ b : UInt8, (((b &&& ~~~0x1f) ^^^ 0xc0) == 0) = true ↔
    0xc0 ≤ b.toNat ∧ b.toNat < 0xe0 := by
  apply forall_byte
  decide +kernel

theorem lead_one {b : UInt8} : ¬ b > 0x7f → b &&& ~~~0x7f = 0 := by
  revert b
  apply forall_byte
  decide +kernel

theorem readCodepoint_eq {bytes : List UInt8} (h : bytes ≠ []) :
    readCodepoint bytes = some (getCodepoint bytes) := by
  cases bytes with
  | nil => exact absurd rfl h
  | cons b0 rest =>
    unfold readCodepoint getCodepoint
    simp only [List.getElem?_cons_zero, Option.bind_eq_bind, Option.bind_some]
    by_cases hfour : b0 > 0xef
    · rw [if_pos hfour, if_pos hfour]
      rcases rest with _ | ⟨b1, _ | ⟨b2, _ | ⟨b3, tail⟩⟩⟩
      · rfl
      · rfl
      · rfl
      · simp only [List.length_cons, List.getElem?_cons_succ, List.getElem?_cons_zero,
          Option.bind_some, bne, Bool.not_eq_true']
        cases ((b0 &&& ~~~0x7) ^^^ 0xf0) == 0 <;> cases isTrail b1 <;> cases isTrail b2 <;>
          cases isTrail b3 <;> rfl
    · rw [if_neg hfour, if_neg hfour]
      by_cases hthree : b0 > 0xdf
      · rw [if_pos hthree, if_pos hthree]
        rcases rest with _ | ⟨b1, _ | ⟨b2, tail⟩⟩
        · rfl
        · rfl
        · simp only [List.length_cons, List.getElem?_cons_succ, List.getElem?_cons_zero,
            Option.bind_some, bne, Bool.not_eq_true']
          cases ((b0 &&& ~~~0xf) ^^^ 0xe0) == 0 <;> cases isTrail b1 <;> cases isTrail b2 <;> rfl
      · rw [if_neg hthree, if_neg hthree]
        by_cases htwo : b0 > 0x7f
        · rw [if_pos htwo, if_pos htwo]
          rcases rest with _ | ⟨b1, tail⟩
          · rfl
          · simp only [List.length_cons, List.getElem?_cons_succ, List.getElem?_cons_zero,
              Option.bind_some, bne, Bool.not_eq_true']
            cases ((b0 &&& ~~~0x1f) ^^^ 0xc0) == 0 <;> cases isTrail b1 <;> rfl
        · rw [if_neg htwo, if_neg htwo, lead_one htwo, if_neg (by simp)]
          rfl

theorem toNat_and_mask (b : UInt8) : (b &&& 0x07).toNat = b.toNat % 8 ∧
    (b &&& 0x0f).toNat = b.toNat % 16 ∧ (b &&& 0x1f).toNat = b.toNat % 32 := by
  simp only [UInt8.toNat_and]
  exact ⟨Nat.and_two_pow_sub_one_eq_mod b.toNat 3, Nat.and_two_pow_sub_one_eq_mod b.toNat 4,
    Nat.and_two_pow_sub_one_eq_mod b.toNat 5⟩

/-- The bits of the pieces do not overlap. -/
theorem shiftLeft_or (x y k : Nat) (hy : y < 64) : x <<< (k + 6) ||| y <<< k = (x * 64 + y) <<< k := by
  rw [Nat.shiftLeft_eq, Nat.shiftLeft_eq, Nat.shiftLeft_eq, or_eq_add (Dvd.intro_left x rfl),
    Nat.pow_add]
  · ring
  · rw [Nat.pow_add, Nat.mul_comm]
    exact Nat.mul_lt_mul_of_pos_left hy (Nat.two_pow_pos k)

theorem shiftLeft_or_low (x : Nat) {y : Nat} (hy : y < 64) : x <<< 6 ||| y = x * 64 + y := by
  have h := shiftLeft_or x y 0 hy
  rwa [Nat.zero_add, Nat.shiftLeft_zero, Nat.shiftLeft_zero] at h

theorem getCodepoint_append {s : List UInt8} {n : Nat} (h : Sequence s n) (tail : List UInt8) :
    getCodepoint (s ++ tail) = ⟨n, s.length⟩ := by
  have hlt : ∀ b : UInt8, b.toNat % 64 < 64 := fun b => Nat.mod_lt _ (by decide)
  cases h with
  | @one a ha =>
    simp only [List.cons_append, List.nil_append, getCodepoint, gt_iff_lt, UInt8.lt_iff_toNat_lt,
      UInt8.reduceToNat]
    rw [if_neg (by omega), if_neg (by omega), if_neg (by omega), UInt8.toNat_and]
    have hmod : a.toNat &&& 0x7f = a.toNat % 2 ^ 7 := Nat.and_two_pow_sub_one_eq_mod a.toNat 7
    congr 1
    exact hmod.trans (Nat.mod_eq_of_lt ha)
  | @two a b ha ha' hb =>
    have hcond : ((((a &&& ~~~0x1f) ^^^ 0xc0) == 0) && isTrail b) = true := by
      rw [Bool.and_eq_true, lead_two_iff, isTrail_iff]
      exact ⟨⟨ha, ha'⟩, hb⟩
    simp only [List.cons_append, List.nil_append, getCodepoint, gt_iff_lt, UInt8.lt_iff_toNat_lt,
      UInt8.reduceToNat]
    rw [if_neg (by omega), if_neg (by omega), if_pos (by omega), if_pos hcond, trailBits_eq,
      (toNat_and_mask a).2.2, shiftLeft_or_low _ (hlt b)]
    rfl
  | @three a b c ha ha' hb hc =>
    have hcond : ((((a &&& ~~~0xf) ^^^ 0xe0) == 0) && isTrail b && isTrail c) = true := by
      rw [Bool.and_eq_true, Bool.and_eq_true, lead_three_iff, isTrail_iff, isTrail_iff]
      exact ⟨⟨⟨ha, ha'⟩, hb⟩, hc⟩
    simp only [List.cons_append, List.nil_append, getCodepoint, gt_iff_lt, UInt8.lt_iff_toNat_lt,
      UInt8.reduceToNat]
    rw [if_neg (by omega), if_pos (by omega), if_pos hcond, trailBits_eq, trailBits_eq,
      (toNat_and_mask a).2.1, shiftLeft_or _ _ 6 (hlt b), shiftLeft_or_low _ (hlt c)]
    rfl
  | @four a b c d ha ha' hb hc hd =>
    have hcond : ((((a &&& ~~~0x7) ^^^ 0xf0) == 0) && isTrail b && isTrail c && isTrail d) = true := by
      rw [Bool.and_eq_true, Bool.and_eq_true, Bool.and_eq_true, lead_four_iff, isTrail_iff,
        isTrail_iff, isTrail_iff]
      exact ⟨⟨⟨⟨ha, ha'⟩, hb⟩, hc⟩, hd⟩
    simp only [List.cons_append, List.nil_append, getCodepoint, gt_iff_lt, UInt8.lt_iff_toNat_lt,
      UInt8.reduceToNat]
    rw [if_pos (by omega), if_pos hcond, trailBits_eq, trailBits_eq, trailBits_eq,
      (toNat_and_mask a).1, shiftLeft_or _ _ 12 (hlt b), shiftLeft_or _ _ 6 (hlt c),
      shiftLeft_or_low _ (hlt d)]
    rfl

/-- A code point that is found is read from a sequence. -/
theorem sequence_of_getCodepoint {bytes : List UInt8} (h : (getCodepoint bytes).utf8Length ≠ 0) :
    ∃ s tail, bytes = s ++ tail ∧ Sequence s (getCodepoint bytes).codepoint ∧
      (getCodepoint bytes).utf8Length = s.length := by
  suffices hseq : ∃ s tail n, bytes = s ++ tail ∧ Sequence s n by
    obtain ⟨s, tail, n, rfl, hseq⟩ := hseq
    rw [getCodepoint_append hseq]
    exact ⟨s, tail, rfl, hseq, rfl⟩
  cases bytes with
  | nil => exact absurd rfl h
  | cons a rest =>
    simp only [getCodepoint, gt_iff_lt, UInt8.lt_iff_toNat_lt, UInt8.reduceToNat] at h
    by_cases hfour : 0xef < a.toNat
    · rw [if_pos hfour] at h
      rcases rest with _ | ⟨b, _ | ⟨c, _ | ⟨d, tail⟩⟩⟩
      · exact absurd rfl h
      · exact absurd rfl h
      · exact absurd rfl h
      · by_cases hcond : ((((a &&& ~~~0x7) ^^^ 0xf0) == 0) && isTrail b && isTrail c && isTrail d) = true
        · rw [Bool.and_eq_true, Bool.and_eq_true, Bool.and_eq_true, lead_four_iff, isTrail_iff,
            isTrail_iff, isTrail_iff] at hcond
          obtain ⟨⟨⟨⟨ha, ha'⟩, hb⟩, hc⟩, hd⟩ := hcond
          exact ⟨[a, b, c, d], tail, _, rfl, .four ha ha' hb hc hd⟩
        · simp only [if_neg hcond] at h
          exact absurd rfl h
    · rw [if_neg hfour] at h
      by_cases hthree : 0xdf < a.toNat
      · rw [if_pos hthree] at h
        rcases rest with _ | ⟨b, _ | ⟨c, tail⟩⟩
        · exact absurd rfl h
        · exact absurd rfl h
        · by_cases hcond : ((((a &&& ~~~0xf) ^^^ 0xe0) == 0) && isTrail b && isTrail c) = true
          · rw [Bool.and_eq_true, Bool.and_eq_true, lead_three_iff, isTrail_iff, isTrail_iff] at hcond
            obtain ⟨⟨⟨ha, ha'⟩, hb⟩, hc⟩ := hcond
            exact ⟨[a, b, c], tail, _, rfl, .three ha ha' hb hc⟩
          · simp only [if_neg hcond] at h
            exact absurd rfl h
      · rw [if_neg hthree] at h
        by_cases htwo : 0x7f < a.toNat
        · rw [if_pos htwo] at h
          rcases rest with _ | ⟨b, tail⟩
          · exact absurd rfl h
          · by_cases hcond : ((((a &&& ~~~0x1f) ^^^ 0xc0) == 0) && isTrail b) = true
            · rw [Bool.and_eq_true, lead_two_iff, isTrail_iff] at hcond
              obtain ⟨⟨ha, ha'⟩, hb⟩ := hcond
              exact ⟨[a, b], tail, _, rfl, .two ha ha' hb⟩
            · simp only [if_neg hcond] at h
              exact absurd rfl h
        · exact ⟨[a], rest, _, rfl, .one (by omega)⟩

/-! ## A text -/

/-- By induction on the turns. -/
theorem readCharacters_eq : ∀ (turns : Nat) (bytes : List UInt8),
    readCharacters turns bytes = some (preprocessFrom turns bytes)
  | 0, [] => rfl
  | 0, _ :: _ => rfl
  | turns + 1, [] => rfl
  | turns + 1, b :: bytes => by
    rw [readCharacters, preprocessFrom, readCodepoint_eq (List.cons_ne_nil _ _)]
    simp only [Option.bind_eq_bind, Option.bind_some]
    split
    · rfl
    · rw [readCharacters_eq turns]
      rfl
    all_goals exact fun h => List.cons_ne_nil _ _ h

theorem preprocessFrom_append {s : List UInt8} {n : Nat} (h : Sequence s n) (turns : Nat)
    (tail : List UInt8) : preprocessFrom (turns + 1) (s ++ tail) =
      (preprocessFrom turns tail).map (⟨n, getCodeType n, s⟩ :: ·) := by
  have hne : s ++ tail ≠ [] := List.append_ne_nil_of_left_ne_nil h.ne_nil _
  have hpos := List.length_pos_iff.mpr h.ne_nil
  rw [preprocessFrom, getCodepoint_append h tail]
  · simp only [if_neg (Nat.ne_of_gt hpos), List.drop_left, List.take_left]
  · exact hne

theorem preprocessFrom_nil (turns : Nat) : preprocessFrom turns [] = some [] := by
  cases turns <;> rfl

/-- Bytes that no character begins. -/
theorem preprocessFrom_none {bytes : List UInt8} (hne : bytes ≠ [])
    (h : ∀ s tail n, bytes = s ++ tail → ¬ Sequence s n) (turns : Nat) :
    preprocessFrom turns bytes = none := by
  cases turns with
  | zero =>
    cases bytes with
    | nil => exact absurd rfl hne
    | cons b bytes => rfl
  | succ turns =>
    have hzero : (getCodepoint bytes).utf8Length = 0 := by
      by_contra hlength
      obtain ⟨s, tail, hbytes, hseq, -⟩ := sequence_of_getCodepoint hlength
      exact h s tail _ hbytes hseq
    rw [preprocessFrom]
    · exact if_pos hzero
    · exact hne

/-- The code points are the characters in their order.  By induction on the turns, which suffice for the
bytes. -/
theorem preprocessFrom_eq_some_iff : ∀ {turns : Nat} {bytes : List UInt8}
    {points : List InputCodepoint}, bytes.length ≤ turns →
    (preprocessFrom turns bytes = some points ↔ (points.map (·.bytes)).flatten = bytes ∧
      ∀ cp ∈ points, Sequence cp.bytes cp.codepoint ∧ cp.charClass = getCodeType cp.codepoint)
  | turns, [], points, _ => by
    rw [preprocessFrom_nil]
    constructor
    · intro h
      obtain rfl := Option.some.inj h
      exact ⟨rfl, fun cp hcp => absurd hcp List.not_mem_nil⟩
    · rintro ⟨hflat, hall⟩
      cases points with
      | nil => rfl
      | cons cp points =>
        rw [List.map_cons, List.flatten_cons, List.append_eq_nil_iff] at hflat
        exact absurd hflat.1 (hall cp List.mem_cons_self).1.ne_nil
  | 0, b :: bytes, points, h => absurd h (by simp)
  | turns + 1, b :: bytes, points, h => by
    constructor
    · intro hpoints
      by_cases hbegin : ∃ s tail n, b :: bytes = s ++ tail ∧ Sequence s n
      · obtain ⟨s, tail, n, hbytes, hseq⟩ := hbegin
        have hpos := List.length_pos_iff.mpr hseq.ne_nil
        have hlength := congrArg List.length hbytes
        rw [List.length_append] at hlength
        rw [hbytes, preprocessFrom_append hseq] at hpoints
        obtain ⟨rest, hrest, rfl⟩ := Option.map_eq_some_iff.mp hpoints
        obtain ⟨hflat, hall⟩ := (preprocessFrom_eq_some_iff (by omega)).mp hrest
        constructor
        · rw [List.map_cons, List.flatten_cons, hflat, hbytes]
        · exact List.forall_mem_cons.mpr ⟨⟨hseq, rfl⟩, hall⟩
      · rw [preprocessFrom_none (List.cons_ne_nil _ _)
          (fun s tail n hbytes hseq => hbegin ⟨s, tail, n, hbytes, hseq⟩)] at hpoints
        cases hpoints
    · rintro ⟨hflat, hall⟩
      cases points with
      | nil => cases hflat
      | cons cp points =>
        obtain ⟨⟨hseq, hclass⟩, hall⟩ := List.forall_mem_cons.mp hall
        have hpos := List.length_pos_iff.mpr hseq.ne_nil
        rw [List.map_cons, List.flatten_cons] at hflat
        have hlength := congrArg List.length hflat
        rw [List.length_append] at hlength
        have hrest := (@preprocessFrom_eq_some_iff turns _ points (by omega)).mpr ⟨rfl, hall⟩
        rw [← hflat, preprocessFrom_append hseq, hrest, Option.map_some, ← hclass]

theorem preprocessRawData_eq_some_iff {bytes : List UInt8} {points : List InputCodepoint} :
    preprocessRawData bytes = some points ↔ (points.map (·.bytes)).flatten = bytes ∧
      ∀ cp ∈ points, Sequence cp.bytes cp.codepoint ∧ cp.charClass = getCodeType cp.codepoint :=
  preprocessFrom_eq_some_iff (Nat.le_refl _)

/-- A text, or nothing. -/
theorem isSome_preprocessRawData_iff {bytes : List UInt8} :
    (preprocessRawData bytes).isSome ↔ IsText bytes := by
  rw [Option.isSome_iff_exists]
  constructor
  · rintro ⟨points, hpoints⟩
    obtain ⟨hflat, hall⟩ := preprocessRawData_eq_some_iff.mp hpoints
    refine ⟨points.map (·.bytes), ?_, hflat.symm⟩
    intro s hs
    obtain ⟨cp, hcp, rfl⟩ := List.mem_map.mp hs
    exact ⟨_, (hall cp hcp).1⟩
  · rintro ⟨seqs, hall, rfl⟩
    choose! number hnumber using hall
    refine ⟨seqs.map fun s => ⟨number s, getCodeType (number s), s⟩,
      preprocessRawData_eq_some_iff.mpr ⟨?_, ?_⟩⟩
    · rw [List.map_map]
      exact congrArg List.flatten (List.map_id seqs)
    · intro cp hcp
      obtain ⟨s, hs, rfl⟩ := List.mem_map.mp hcp
      exact ⟨hnumber s hs, rfl⟩

/-! ## The count -/

theorem countFrom_sequence {s : List UInt8} {n : Nat} (h : Sequence s n) (count : Nat)
    (tail : List UInt8) : countFrom count (s ++ tail) =
      if count + 1 < 2 ^ 31 then countFrom (count + 1) tail else none := by
  cases s with
  | nil => exact absurd rfl h.ne_nil
  | cons a s =>
    have hlength := h.length_eq
    rw [List.length_cons] at hlength
    rw [List.cons_append, countFrom]
    show (if ¬ count + 1 < 2 ^ 31 then none
      else if (s ++ tail).length + 1 < lengthOf a then some (-1)
      else countFrom (count + 1) ((s ++ tail).drop (lengthOf a - 1))) = _
    rw [← hlength, List.length_append, Nat.add_sub_cancel, List.drop_left]
    by_cases hcount : count + 1 < 2 ^ 31
    · rw [if_neg (not_not.mpr hcount), if_neg (by omega), if_pos hcount]
    · rw [if_pos hcount, if_neg hcount]

theorem countFrom_cut {s : List UInt8} (h : IsCut s) (count : Nat) :
    countFrom count s = if count + 1 < 2 ^ 31 then some (-1) else none := by
  cases s with
  | nil => exact absurd rfl h.1
  | cons a s =>
    have hlength := h.length_lt
    rw [List.length_cons] at hlength
    rw [countFrom]
    show (if ¬ count + 1 < 2 ^ 31 then none
      else if s.length + 1 < lengthOf a then some (-1)
      else countFrom (count + 1) (s.drop (lengthOf a - 1))) = _
    by_cases hcount : count + 1 < 2 ^ 31
    · rw [if_neg (not_not.mpr hcount), if_pos hlength, if_pos hcount]
    · rw [if_pos hcount, if_neg hcount]

/-- By induction on the characters. -/
theorem countFrom_flatten : ∀ {seqs : List (List UInt8)}, (∀ s ∈ seqs, IsSequence s) →
    ∀ (count : Nat) (tail : List UInt8), count < 2 ^ 31 → countFrom count (seqs.flatten ++ tail) =
      if count + seqs.length < 2 ^ 31 then countFrom (count + seqs.length) tail else none
  | [], _, count, tail, hcount => by
    rw [List.length_nil, Nat.add_zero, if_pos hcount]
    rfl
  | s :: seqs, hall, count, tail, hcount => by
    obtain ⟨⟨n, hseq⟩, hall⟩ := List.forall_mem_cons.mp hall
    rw [List.flatten_cons, List.append_assoc, countFrom_sequence hseq, List.length_cons,
      show count + (seqs.length + 1) = count + 1 + seqs.length by omega]
    by_cases hnext : count + 1 < 2 ^ 31
    · rw [if_pos hnext, countFrom_flatten hall (count + 1) tail hnext]
    · rw [if_neg hnext, if_neg (by omega)]

theorem numCodepoints_flatten {seqs : List (List UInt8)} (hall : ∀ s ∈ seqs, IsSequence s) :
    numCodepoints seqs.flatten = if seqs.length < 2 ^ 31 then some (seqs.length : Int) else none := by
  have h := countFrom_flatten hall 0 [] (by decide)
  rw [List.append_nil, Nat.zero_add, countFrom] at h
  exact h

theorem numCodepoints_cut {seqs : List (List UInt8)} {cut : List UInt8}
    (hall : ∀ s ∈ seqs, IsSequence s) (hcut : IsCut cut) :
    numCodepoints (seqs.flatten ++ cut) = if seqs.length + 1 < 2 ^ 31 then some (-1) else none := by
  have h := countFrom_flatten hall 0 cut (by decide)
  rw [Nat.zero_add, countFrom_cut hcut] at h
  by_cases hcount : seqs.length + 1 < 2 ^ 31
  · rw [numCodepoints, h, if_pos (by omega)]
  · rw [numCodepoints, h, if_neg hcount, ite_self]

/-- The reader and the counter as one: what is read are the characters, without a read past the end,
and they are counted; a text that ends inside a character is counted as -1. -/
structure Agree (bytes : List UInt8) : Prop where
  reads : readCharacters bytes.length bytes = some (preprocessRawData bytes)
  accepts : (preprocessRawData bytes).isSome ↔ IsText bytes
  tiles : ∀ points, preprocessRawData bytes = some points →
    (points.map (·.bytes)).flatten = bytes ∧ (∀ cp ∈ points, Sequence cp.bytes cp.codepoint) ∧
      numCodepoints bytes = some (points.length : Int)
  cut : ∀ (seqs : List (List UInt8)) (cut : List UInt8), (∀ s ∈ seqs, IsSequence s) → IsCut cut →
    bytes = seqs.flatten ++ cut → numCodepoints bytes = some (-1)

end Jumanpp.Util
