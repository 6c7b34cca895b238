import Jumanpp.Core.Analysis.NumericCreator
import Jumanpp.Util.CodedIo

/-!
# What the search for numbers reads

The same search over a vector, with the machine's arithmetic: an element outside the vector can not be
read, and `none` is a read outside.
-/

namespace Jumanpp.Core.Analysis

open Jumanpp.Lib Jumanpp.Util Jumanpp.Core.Dic

namespace NumericReads

/-- The right side of `&&` is looked at when the left one holds. -/
def both (x y : Option Bool) : Option Bool :=
  x.bind fun b => if b then y else some false

theorem both_eq {x y : Option Bool} {b c : Bool} (hx : x = some b) (hy : b = true → y = some c) :
    both x y = some (b && c) := by
  rw [both, hx]
  cases b with
  | true => exact hy rfl
  | false => rfl

section Model

variable (codepoints : StdList InputCodepoint) (charClass : CharacterClass)

def hasClassAt (i : Nat) (queryClass : CharacterClass) : Option Bool :=
  codepoints.elems[i]?.map (·.hasClass queryClass)

def patternMatches : List Nat → Nat → Option Bool
  | [], _ => some true
  | c :: itemp, pos => do
      let cp ← codepoints.elems[pos]?
      if cp.codepoint != c then pure false else patternMatches itemp (pos + 1)

/-- `codepoints.size() - (start + pos)` -/
def restLength (start pos : UInt16) : Nat :=
  (codepoints.size - UInt64.ofNat (start.toNat + pos.toNat)).toNat

/-- The length of the first pattern that passes. -/
def firstMatch (passes : List Nat → Option Bool) : List (List Nat) → Option Nat
  | [] => some 0
  | itemp :: patterns => do
      if ← passes itemp then pure itemp.length else firstMatch passes patterns

def checkInterfix (start pos : UInt16) : Option Nat :=
  if 0 < pos then
    firstMatch (fun itemp =>
      both (hasClassAt codepoints (start.toNat + pos.toNat - 1) charClass) <|
      both (some (decide (restLength codepoints start pos > itemp.length))) <|
      both (hasClassAt codepoints (start.toNat + pos.toNat + itemp.length) charClass)
        (patternMatches codepoints itemp (start.toNat + pos.toNat)))
      NumericData.interfixPatterns
  else some 0

def checkSuffix (start pos : UInt16) : Option Nat :=
  if 0 < pos then
    firstMatch (fun itemp =>
      both (hasClassAt codepoints (start.toNat + pos.toNat - 1) CharacterClass.FAMILY_EXCEPTION) <|
      both (some (decide (restLength codepoints start pos ≥ itemp.length)))
        (patternMatches codepoints itemp (start.toNat + pos.toNat)))
      NumericData.suffixPatterns
  else some 0

def checkPrefix (start pos : UInt16) : List (List Nat) → Option Nat
  | [] => some 0
  | itemp :: patterns => do
      let suffixLength ← checkSuffix codepoints start (pos + UInt16.ofNat itemp.length)
      let suffixLength := UInt16.ofNat suffixLength
      let found ←
        both (some (decide (start.toNat + pos.toNat + itemp.length < codepoints.elems.length))) <|
        both ((hasClassAt codepoints (start.toNat + pos.toNat + itemp.length)
            CharacterClass.FIGURE_DIGIT).map (· || decide (0 < suffixLength)))
          (patternMatches codepoints itemp (start.toNat + pos.toNat))
      if found then pure (itemp.length + suffixLength.toNat)
      else checkPrefix start pos patterns

/-- The figures behind the comma, with as many turns as there are left. -/
def continuedFigures (posComma : UInt16) : (turns : Nat) → (numContinuedFigure : Nat) → Option Nat
  | 0, numContinuedFigure => some numContinuedFigure
  | turns + 1, numContinuedFigure =>
      if posComma.toNat + 1 + numContinuedFigure < codepoints.elems.length then do
        if ← hasClassAt codepoints (posComma.toNat + 1 + numContinuedFigure) CharacterClass.FIGURE
        then continuedFigures posComma turns (numContinuedFigure + 1)
        else pure numContinuedFigure
      else some numContinuedFigure

def checkComma (start pos : UInt16) : Option Nat :=
  let posComma := start + pos
  let commaInterval := 3
  if pos = 0 then some 0
  else do
    if !(← hasClassAt codepoints posComma.toNat CharacterClass.COMMA) then pure 0
    else
      let numContinuedFigure ← continuedFigures codepoints posComma (commaInterval + 2) 0
      pure (if numContinuedFigure = 3 then 1 else 0)

def checkPeriod (start pos : UInt16) : Option Nat :=
  let posPeriod := start.toNat + pos.toNat
  if pos = 0 then some 0
  else do
    if !(← hasClassAt codepoints posPeriod CharacterClass.FAMILY_NUM_PERIOD) then pure 0
    else if !(← hasClassAt codepoints (posPeriod - 1) charClass) then pure 0
    else if ← both (some (decide (posPeriod + 1 < codepoints.elems.length)))
        (hasClassAt codepoints (posPeriod + 1) charClass) then pure 1
    else pure 0

def checkExceptionalCharsInFigure (start pos : UInt16) : Option Nat := do
  let charLength ← checkPrefix codepoints start pos NumericData.prefixPatterns
  if charLength > 0 then return charLength
  let charLength ← checkInterfix codepoints charClass start pos
  if charLength > 0 then return charLength
  let charLength ← checkSuffix codepoints start pos
  if charLength > 0 then return charLength
  let charLength ← checkComma codepoints start pos
  if charLength > 0 then return charLength
  let charLength ← checkPeriod codepoints charClass start pos
  if charLength > 0 then return charLength
  return 0

/-- The loop, which has to end within its turns. -/
def findFrom (start : UInt16) : (turns : Nat) → (pos : UInt16) → Option UInt16
  | 0, _ => none
  | turns + 1, pos =>
      if pos.toNat ≤ NumericUnkMaker.MaxNumericLength ∧
          start.toNat + pos.toNat < codepoints.elems.length then do
        if !(← hasClassAt codepoints (start.toNat + pos.toNat) charClass) then
          let charLength ← checkExceptionalCharsInFigure codepoints charClass start pos
          if charLength > 0 then
            let pos := UInt16.ofNat (pos.toNat + (charLength - 1))
            findFrom start turns (pos + 1)
          else pure pos
        else findFrom start turns (pos + 1)
      else some pos

def FindLongestNumber (start : UInt16) : Option UInt16 :=
  findFrom codepoints charClass start (NumericUnkMaker.MaxNumericLength + 2) 0

end Model

/-! ## No read is outside -/

variable {codepoints : StdList InputCodepoint} {charClass : CharacterClass} {start pos : UInt16}

theorem hasClassAt_eq {i : Nat} (hi : i < codepoints.elems.length) (queryClass : CharacterClass) :
    hasClassAt codepoints i queryClass =
      some ((codepointAt codepoints.elems i).hasClass queryClass) := by
  rw [hasClassAt, codepointAt, List.getD_eq_getElem?_getD, List.getElem?_eq_getElem hi]
  rfl

/-- By induction on the pattern. -/
theorem patternMatches_eq : ∀ (itemp : List Nat) {pos : Nat},
    pos + itemp.length ≤ codepoints.elems.length →
      patternMatches codepoints itemp pos =
        some (NumericUnkMaker.patternMatches codepoints.elems itemp pos)
  | [], pos, _ => rfl
  | c :: itemp, pos, h => by
    rw [List.length_cons] at h
    have hlt : pos < codepoints.elems.length := by omega
    have htail : NumericUnkMaker.patternMatches codepoints.elems (c :: itemp) pos =
        ((codepointAt codepoints.elems pos).codepoint == c &&
          NumericUnkMaker.patternMatches codepoints.elems itemp (pos + 1)) := by
      simp [NumericUnkMaker.patternMatches, List.range_succ_eq_map, Function.comp_def, Nat.add_assoc,
        Nat.add_comm 1]
    have hget : codepoints.elems[pos]? = some (codepointAt codepoints.elems pos) := by
      rw [codepointAt, List.getD_eq_getElem?_getD, List.getElem?_eq_getElem hlt]
      rfl
    rw [patternMatches, htail, hget]
    show (if (codepointAt codepoints.elems pos).codepoint != c then pure false
      else patternMatches codepoints itemp (pos + 1)) = _
    rw [patternMatches_eq itemp (by omega)]
    cases hc : (codepointAt codepoints.elems pos).codepoint == c with
    | true => simp [bne, hc]
    | false => simp [bne, hc]

theorem restLength_eq (h : start.toNat + pos.toNat ≤ codepoints.elems.length) :
    restLength codepoints start pos = codepoints.elems.length - (start.toNat + pos.toNat) := by
  have hsize := codepoints.size_lt
  have hsum : (UInt64.ofNat (start.toNat + pos.toNat)).toNat = start.toNat + pos.toNat := by
    rw [UInt64.toNat_ofNat', Nat.mod_eq_of_lt (by omega)]
  rw [restLength, UInt64.toNat_sub_of_le, hsum, StdList.toNat_size]
  rw [UInt64.le_iff_toNat_le, hsum, StdList.toNat_size]
  exact h

theorem firstMatch_eq {passes : List Nat → Option Bool} {q : List Nat → Bool}
    (h : ∀ itemp, passes itemp = some (q itemp)) : ∀ patterns,
      firstMatch passes patterns = some (((patterns.find? q).map List.length).getD 0)
  | [] => rfl
  | itemp :: patterns => by
    rw [firstMatch, h itemp, List.find?_cons]
    show (if q itemp then pure itemp.length else firstMatch passes patterns) = _
    cases hq : q itemp with
    | true => rfl
    | false => exact firstMatch_eq h patterns

theorem checkInterfix_eq (h : start.toNat + pos.toNat ≤ codepoints.elems.length) :
    checkInterfix codepoints charClass start pos =
      some (NumericUnkMaker.checkInterfix codepoints.elems charClass start.toNat pos.toNat) := by
  unfold checkInterfix NumericUnkMaker.checkInterfix
  simp only [UInt16.lt_iff_toNat_lt, UInt16.toNat_zero, gt_iff_lt]
  by_cases hpos : 0 < pos.toNat
  · rw [if_pos hpos, if_pos hpos]
    apply firstMatch_eq
    intro itemp
    rw [Bool.and_assoc, Bool.and_assoc, restLength_eq h]
    apply both_eq (hasClassAt_eq (by omega) _)
    intro _
    apply both_eq rfl
    intro hrest
    have hlt := of_decide_eq_true hrest
    apply both_eq (hasClassAt_eq (by omega) _)
    intro _
    exact patternMatches_eq itemp (by omega)
  · rw [if_neg hpos, if_neg hpos]

theorem checkSuffix_eq (h : start.toNat + pos.toNat ≤ codepoints.elems.length) :
    checkSuffix codepoints start pos =
      some (NumericUnkMaker.checkSuffix codepoints.elems start.toNat pos.toNat) := by
  unfold checkSuffix NumericUnkMaker.checkSuffix
  simp only [UInt16.lt_iff_toNat_lt, UInt16.toNat_zero, gt_iff_lt, ge_iff_le]
  by_cases hpos : 0 < pos.toNat
  · rw [if_pos hpos, if_pos hpos]
    apply firstMatch_eq
    intro itemp
    rw [Bool.and_assoc, restLength_eq h]
    apply both_eq (hasClassAt_eq (by omega) _)
    intro _
    apply both_eq rfl
    intro hrest
    have hle := of_decide_eq_true hrest
    exact patternMatches_eq itemp (by omega)
  · rw [if_neg hpos, if_neg hpos]

theorem checkPeriod_eq (h : start.toNat + pos.toNat < codepoints.elems.length) :
    checkPeriod codepoints charClass start pos =
      some (NumericUnkMaker.checkPeriod codepoints.elems charClass start.toNat pos.toNat) := by
  unfold checkPeriod NumericUnkMaker.checkPeriod
  simp only [← UInt16.toNat_inj, UInt16.toNat_zero]
  by_cases hpos : pos.toNat = 0
  · rw [if_pos hpos, if_pos hpos]
  · have hafter : both (some (decide (start.toNat + pos.toNat + 1 < codepoints.elems.length)))
        (hasClassAt codepoints (start.toNat + pos.toNat + 1) charClass) = some
          (decide (start.toNat + pos.toNat + 1 < codepoints.elems.length) &&
            (codepointAt codepoints.elems (start.toNat + pos.toNat + 1)).hasClass charClass) := by
      apply both_eq rfl
      intro hlt
      exact hasClassAt_eq (of_decide_eq_true hlt) _
    rw [if_neg hpos, if_neg hpos, hasClassAt_eq h, hasClassAt_eq (by omega), hafter]
    simp only [Option.bind_eq_bind, Option.bind_some]
    split
    · rfl
    · split
      · rfl
      · simp only [Bool.and_eq_true, decide_eq_true_eq]
        split
        · rfl
        · rfl

/-! ## The end of a number -/

theorem getD_find?_le {patterns : List (List Nat)} {q : List Nat → Bool} {n : Nat}
    (h : ∀ itemp ∈ patterns, itemp.length ≤ n) :
    ((patterns.find? q).map List.length).getD 0 ≤ n := by
  cases hfind : patterns.find? q with
  | none => exact Nat.zero_le n
  | some itemp => exact h itemp (List.mem_of_find?_eq_some hfind)

theorem checkInterfix_le_three (codepoints : List InputCodepoint) (charClass : CharacterClass)
    (start pos : Nat) : NumericUnkMaker.checkInterfix codepoints charClass start pos ≤ 3 := by
  unfold NumericUnkMaker.checkInterfix
  simp only []
  split
  · exact getD_find?_le (by decide)
  · exact Nat.zero_le 3

theorem checkSuffix_le_two (codepoints : List InputCodepoint) (start pos : Nat) :
    NumericUnkMaker.checkSuffix codepoints start pos ≤ 2 := by
  unfold NumericUnkMaker.checkSuffix
  simp only []
  split
  · exact getD_find?_le (by decide)
  · exact Nat.zero_le 2

/-- Nothing is read outside, and the characters that are found are there.  The counters of the machine
find the same. -/
def Ends (codepoints : StdList InputCodepoint) (at_ : Nat) (o : Option Nat) (c : Counted Nat) : Prop :=
  ∃ k, o = some k ∧ at_ + k ≤ codepoints.elems.length ∧ k ≤ 3 ∧
    ∀ turns, 70 ≤ turns → c (Arith.wrapping 16 turns) = .ok k

/-- One pattern, with the counters of the machine. -/
theorem checkPrefix_run (codepoints : List InputCodepoint) (start pos : Nat) (itemp : List Nat)
    (patterns : List (List Nat)) (turns : Nat) :
    NumericUnkMaker.checkPrefix codepoints start pos (itemp :: patterns)
        (Arith.wrapping 16 turns) =
      let suffixLength := NumericUnkMaker.checkSuffix codepoints start
        ((pos + itemp.length) % 2 ^ 16) % 2 ^ 16
      if start + pos + itemp.length < codepoints.length ∧
          ((codepointAt codepoints (start + pos + itemp.length)).hasClass
              CharacterClass.FIGURE_DIGIT = true ∨ 0 < suffixLength) ∧
          NumericUnkMaker.patternMatches codepoints itemp (start + pos) = true then
        .ok (itemp.length + suffixLength)
      else NumericUnkMaker.checkPrefix codepoints start pos patterns (Arith.wrapping 16 turns) := by
  rw [NumericUnkMaker.checkPrefix]
  exact apply_ite (fun c : Counted Nat => c (Arith.wrapping 16 turns)) ..

theorem checkPrefix_ends (h : start.toNat + pos.toNat < codepoints.elems.length) :
    ∀ patterns : List (List Nat), (∀ itemp ∈ patterns, itemp.length = 1) →
      Ends codepoints (start.toNat + pos.toNat) (checkPrefix codepoints start pos patterns)
        (NumericUnkMaker.checkPrefix codepoints.elems start.toNat pos.toNat patterns)
  | [], _ => ⟨0, rfl, by omega, by omega, fun _ _ => rfl⟩
  | itemp :: patterns, hpatterns => by
    have hone := hpatterns itemp List.mem_cons_self
    obtain ⟨k, hk, hinside, hthree, hrun⟩ := checkPrefix_ends h patterns fun itemp h =>
      hpatterns itemp (List.mem_cons_of_mem _ h)
    have hnext : (pos + UInt16.ofNat itemp.length).toNat = (pos.toNat + itemp.length) % 2 ^ 16 := by
      rw [UInt16.toNat_add, hone]
      rfl
    have hle : start.toNat + (pos + UInt16.ofNat itemp.length).toNat ≤ codepoints.elems.length := by
      rw [hnext, hone]
      have hmod := Nat.mod_le (pos.toNat + 1) (2 ^ 16)
      omega
    have hsuffix := checkSuffix_eq hle
    rw [hnext] at hsuffix
    -- the suffix begins behind the pattern, or the counter wrapped and there is none
    have hend : start.toNat + pos.toNat + 1 + NumericUnkMaker.checkSuffix codepoints.elems
        start.toNat ((pos.toNat + itemp.length) % 2 ^ 16) ≤ codepoints.elems.length := by
      have hbound := @NumericUnkMaker.checkSuffix_le codepoints.elems _ rfl start.toNat
        ((pos.toNat + itemp.length) % 2 ^ 16)
      rw [hone] at hbound ⊢
      by_cases hwrap : pos.toNat + 1 < 2 ^ 16
      · rw [Nat.mod_eq_of_lt hwrap] at hbound ⊢
        omega
      · have hzero : (pos.toNat + 1) % 2 ^ 16 = 0 := by
          have hlt := pos.toNat_lt
          omega
        rw [hzero]
        exact Nat.succ_le_of_lt h
    have htwo := checkSuffix_le_two codepoints.elems start.toNat ((pos.toNat + itemp.length) % 2 ^ 16)
    obtain ⟨suffixLength, hlength⟩ : ∃ k, NumericUnkMaker.checkSuffix codepoints.elems start.toNat
      ((pos.toNat + itemp.length) % 2 ^ 16) = k := ⟨_, rfl⟩
    rw [hlength] at hsuffix hend htwo
    have hsize : (UInt16.ofNat suffixLength).toNat = suffixLength := by
      rw [UInt16.toNat_ofNat', Nat.mod_eq_of_lt (by omega)]
    have hfound : both (some (decide
          (start.toNat + pos.toNat + itemp.length < codepoints.elems.length))) (both
        ((hasClassAt codepoints (start.toNat + pos.toNat + itemp.length)
          CharacterClass.FIGURE_DIGIT).map (· || decide (0 < UInt16.ofNat suffixLength)))
        (patternMatches codepoints itemp (start.toNat + pos.toNat))) = some (decide
          (start.toNat + pos.toNat + itemp.length < codepoints.elems.length ∧
          ((codepointAt codepoints.elems (start.toNat + pos.toNat + itemp.length)).hasClass
              CharacterClass.FIGURE_DIGIT = true ∨ 0 < suffixLength) ∧
          NumericUnkMaker.patternMatches codepoints.elems itemp (start.toNat + pos.toNat) = true)) := by
      rw [Bool.decide_and, Bool.decide_and, Bool.decide_or, Bool.decide_eq_true, Bool.decide_eq_true]
      apply both_eq rfl
      intro hlt
      have hlt := of_decide_eq_true hlt
      apply both_eq
      · simp only [hasClassAt_eq hlt, Option.map_some, UInt16.lt_iff_toNat_lt, hsize]
        rfl
      · intro _
        exact patternMatches_eq itemp (by omega)
    unfold Ends
    simp only [checkPrefix, hsuffix, Option.bind_eq_bind, Option.bind_some, hfound, hsize,
      decide_eq_true_eq, checkPrefix_run, hlength, Nat.mod_eq_of_lt (show suffixLength < 2 ^ 16 by omega)]
    split
    · exact ⟨_, rfl, by omega, by omega, fun _ _ => rfl⟩
    · exact ⟨k, hk, hinside, hthree, hrun⟩

/-- By induction on the turns that are left. -/
theorem continuedFigures_run (posComma : UInt16) : ∀ left n, n + left = 5 →
    ∃ k, continuedFigures codepoints posComma left n = some k ∧
      ∀ turns T, left < turns → loopFrom (3 + 2) (fun n (_ : Unit) =>
        if posComma.toNat + 1 + n < codepoints.elems.length ∧
            (codepointAt codepoints.elems (posComma.toNat + 1 + n)).hasClass
              CharacterClass.FIGURE = true then pure (.next n ())
        else pure (.exit n ())) turns n () (Arith.wrapping 16 T) = .ok (k, ())
  | 0, n, h => by
    refine ⟨n, rfl, fun turns T hturns => ?_⟩
    obtain ⟨turns, rfl⟩ := Nat.exists_eq_add_of_lt hturns
    rw [loopFrom, if_neg (by omega)]
    rfl
  | left + 1, n, h => by
    obtain ⟨k, hk, hrun⟩ := continuedFigures_run posComma left (n + 1) (by omega)
    by_cases hlt : posComma.toNat + 1 + n < codepoints.elems.length
    · cases hfigure : (codepointAt codepoints.elems (posComma.toNat + 1 + n)).hasClass
          CharacterClass.FIGURE with
      | true =>
        refine ⟨k, ?_, fun turns T hturns => ?_⟩
        · rw [continuedFigures, if_pos hlt, hasClassAt_eq hlt, hfigure]
          exact hk
        · obtain ⟨turns, rfl⟩ : ∃ t, turns = t + 1 := ⟨turns - 1, by omega⟩
          rw [loopFrom, if_pos (by omega), if_pos ⟨hlt, hfigure⟩]
          have hnext : (n + 1) % 2 ^ 16 = n + 1 := Nat.mod_eq_of_lt (by omega)
          show loopFrom _ _ turns ((n + 1) % 2 ^ 16) () (Arith.wrapping 16 T) = _
          rw [hnext]
          exact hrun turns T (by omega)
      | false =>
        refine ⟨n, ?_, fun turns T hturns => ?_⟩
        · rw [continuedFigures, if_pos hlt, hasClassAt_eq hlt, hfigure]
          rfl
        · obtain ⟨turns, rfl⟩ : ∃ t, turns = t + 1 := ⟨turns - 1, by omega⟩
          rw [loopFrom, if_pos (by omega), if_neg (by simp [hfigure])]
          rfl
    · refine ⟨n, ?_, fun turns T hturns => ?_⟩
      · rw [continuedFigures, if_neg hlt]
      · obtain ⟨turns, rfl⟩ : ∃ t, turns = t + 1 := ⟨turns - 1, by omega⟩
        rw [loopFrom, if_pos (by omega), if_neg (fun h => hlt h.1)]
        rfl

/-- The position of the comma is a counter itself, and wraps to one inside the vector. -/
theorem checkComma_ends (h : start.toNat + pos.toNat < codepoints.elems.length) :
    Ends codepoints (start.toNat + pos.toNat) (checkComma codepoints start pos)
      (NumericUnkMaker.checkComma codepoints.elems start.toNat pos.toNat) := by
  have hcomma : (start + pos).toNat = (start.toNat + pos.toNat) % 2 ^ 16 := UInt16.toNat_add ..
  have hmod := Nat.mod_le (start.toNat + pos.toNat) (2 ^ 16)
  obtain ⟨k, hk, hrun⟩ := @continuedFigures_run codepoints (start + pos) 5 0 rfl
  unfold Ends checkComma NumericUnkMaker.checkComma
  simp only [run_bind, run_narrow, ok_bind, run_ite, run_loopUp, run_pure, ← hcomma,
    ← UInt16.toNat_inj, UInt16.toNat_zero, hasClassAt_eq (show (start + pos).toNat <
      codepoints.elems.length by omega), hk, Option.bind_eq_bind, Option.bind_some]
  split
  · exact ⟨0, rfl, by omega, by omega, fun _ _ => rfl⟩
  · split
    · exact ⟨0, rfl, by omega, by omega, fun _ _ => rfl⟩
    · refine ⟨if k = 3 then 1 else 0, rfl, by split <;> omega, by split <;> omega,
        fun turns hturns => ?_⟩
      have hfigures := hrun turns turns (by omega)
      exact congrArg (· >>= fun r => Except.ok (if r.1 = 3 then 1 else 0)) hfigures

theorem checkExceptionalCharsInFigure_ends
    (h : start.toNat + pos.toNat < codepoints.elems.length) :
    Ends codepoints (start.toNat + pos.toNat)
      (checkExceptionalCharsInFigure codepoints charClass start pos)
      (NumericUnkMaker.checkExceptionalCharsInFigure codepoints.elems charClass start.toNat
        pos.toNat) := by
  obtain ⟨k, hk, hinside, hthree, hrun⟩ := checkPrefix_ends h NumericData.prefixPatterns (by decide)
  obtain ⟨k', hk', hinside', hthree', hrun'⟩ := checkComma_ends h
  have hinterfix := @NumericUnkMaker.checkInterfix_le codepoints.elems charClass _ rfl start.toNat
    pos.toNat
  have hinterfix3 := checkInterfix_le_three codepoints.elems charClass start.toNat pos.toNat
  have hsuffix := @NumericUnkMaker.checkSuffix_le codepoints.elems _ rfl start.toNat pos.toNat
  have hsuffix2 := checkSuffix_le_two codepoints.elems start.toNat pos.toNat
  have hperiod := @NumericUnkMaker.checkPeriod_le codepoints.elems charClass _ rfl start.toNat
    pos.toNat h
  have hrun70 : ∀ turns, 70 ≤ turns →
      NumericUnkMaker.checkExceptionalCharsInFigure codepoints.elems charClass start.toNat pos.toNat
          (Arith.wrapping 16 turns) = .ok
        (if k > 0 then k
        else if NumericUnkMaker.checkInterfix codepoints.elems charClass start.toNat pos.toNat > 0 then
          NumericUnkMaker.checkInterfix codepoints.elems charClass start.toNat pos.toNat
        else if NumericUnkMaker.checkSuffix codepoints.elems start.toNat pos.toNat > 0 then
          NumericUnkMaker.checkSuffix codepoints.elems start.toNat pos.toNat
        else if k' > 0 then k'
        else NumericUnkMaker.checkPeriod codepoints.elems charClass start.toNat pos.toNat) := by
    intro turns hturns
    unfold NumericUnkMaker.checkExceptionalCharsInFigure
    simp only [run_bind, run_ite, run_pure, ok_bind, hrun turns hturns, hrun' turns hturns]
    simp only [apply_ite (Except.ok (ε := Stop))]
  refine ⟨_, ?_, ?_, ?_, hrun70⟩
  · unfold checkExceptionalCharsInFigure
    simp only [hk, hk', checkInterfix_eq (Nat.le_of_lt h), checkSuffix_eq (Nat.le_of_lt h),
      checkPeriod_eq h, Option.bind_eq_bind, Option.bind_some]
    split_ifs with _ _ _ _ hperiod0
    · rfl
    · rfl
    · rfl
    · rfl
    · rfl
    · exact congrArg some (Nat.eq_zero_of_not_pos hperiod0).symm
  · split_ifs <;> omega
  · have hone : NumericUnkMaker.checkPeriod codepoints.elems charClass start.toNat pos.toNat ≤ 1 := by
      unfold NumericUnkMaker.checkPeriod
      simp only []
      split_ifs <;> decide
    split_ifs <;> omega

/-- Every turn goes on by one character at least.  By induction on the turns that are left. -/
theorem findFrom_ends (start : UInt16) : ∀ (turns : Nat) (pos : UInt16),
    66 ≤ turns + pos.toNat → 0 < turns →
    start.toNat + pos.toNat ≤ max start.toNat codepoints.elems.length →
      ∃ length, findFrom codepoints charClass start turns pos = some length ∧
        start.toNat + length.toNat ≤ max start.toNat codepoints.elems.length ∧
        ∀ turns' T, turns ≤ turns' → 70 ≤ T →
          loopFrom (min (NumericUnkMaker.MaxNumericLength + 1)
              (codepoints.elems.length - start.toNat)) (fun pos (_ : Unit) =>
            if !(codepointAt codepoints.elems (start.toNat + pos)).hasClass charClass then do
              let charLength ← NumericUnkMaker.checkExceptionalCharsInFigure codepoints.elems
                charClass start.toNat pos
              if charLength > 0 then do
                let pos ← narrow (pos + (charLength - 1))
                pure (.next pos ())
              else pure (.exit pos ())
            else pure (.next pos ())) turns' pos.toNat () (Arith.wrapping 16 T) =
              .ok (length.toNat, ())
  | 0, _, _, hpos, _ => absurd hpos (Nat.lt_irrefl 0)
  | turns + 1, pos, hmeasure, _, hinside => by
    by_cases hcond : pos.toNat ≤ NumericUnkMaker.MaxNumericLength ∧
        start.toNat + pos.toNat < codepoints.elems.length
    · have hmax : NumericUnkMaker.MaxNumericLength = 64 := rfl
      obtain ⟨k, hk, hkinside, hthree, hrun⟩ :=
        @checkExceptionalCharsInFigure_ends codepoints charClass start pos hcond.2
      have hnext : ∀ (q : UInt16) (m : Nat), q.toNat = pos.toNat + m → 0 < m →
          start.toNat + pos.toNat + m ≤ codepoints.elems.length → _ := fun q m hq hm hend =>
        findFrom_ends start turns q (by omega) (by omega) (by omega)
      cases hclass : (codepointAt codepoints.elems (start.toNat + pos.toNat)).hasClass charClass with
      | true =>
        have hq : (pos + 1).toNat = pos.toNat + 1 := by
          rw [UInt16.toNat_add]
          exact Nat.mod_eq_of_lt (show pos.toNat + 1 < 2 ^ 16 by omega)
        obtain ⟨length, hlength, hend, hloop⟩ := hnext (pos + 1) 1 hq (by decide) (by omega)
        refine ⟨length, ?_, hend, fun turns' T hturns hT => ?_⟩
        · rw [findFrom, if_pos hcond, hasClassAt_eq hcond.2, hclass]
          exact hlength
        · obtain ⟨turns', rfl⟩ : ∃ t, turns' = t + 1 := ⟨turns' - 1, by omega⟩
          rw [loopFrom, if_pos (by omega)]
          simp only [run_bind, run_pure, hclass, Bool.not_true, Bool.false_eq_true, if_false,
            ok_bind, run_narrow]
          rw [Nat.mod_eq_of_lt (by omega), ← hq]
          exact hloop turns' T (by omega) hT
      | false =>
        by_cases hk0 : k > 0
        · have hskip : (UInt16.ofNat (pos.toNat + (k - 1))).toNat = pos.toNat + (k - 1) := by
            rw [UInt16.toNat_ofNat', Nat.mod_eq_of_lt (by omega)]
          have hq : (UInt16.ofNat (pos.toNat + (k - 1)) + 1).toNat = pos.toNat + k := by
            rw [UInt16.toNat_add, hskip]
            exact (Nat.mod_eq_of_lt (show pos.toNat + (k - 1) + 1 < 2 ^ 16 by omega)).trans (by omega)
          obtain ⟨length, hlength, hend, hloop⟩ := hnext _ k hq hk0 hkinside
          refine ⟨length, ?_, hend, fun turns' T hturns hT => ?_⟩
          · rw [findFrom, if_pos hcond, hasClassAt_eq hcond.2, hclass, hk]
            show (if k > 0 then _ else _) = _
            rw [if_pos hk0]
            exact hlength
          · obtain ⟨turns', rfl⟩ : ∃ t, turns' = t + 1 := ⟨turns' - 1, by omega⟩
            rw [loopFrom, if_pos (by omega)]
            simp only [run_bind, run_ite, run_pure, hclass, Bool.not_false, if_true, ok_bind,
              run_narrow, hrun T hT, if_pos hk0]
            rw [Nat.mod_eq_of_lt (show pos.toNat + (k - 1) < 2 ^ 16 by omega),
              Nat.mod_eq_of_lt (by omega), show pos.toNat + (k - 1) + 1 = pos.toNat + k by omega, ← hq]
            exact hloop turns' T (by omega) hT
        · refine ⟨pos, ?_, by omega, fun turns' T hturns hT => ?_⟩
          · rw [findFrom, if_pos hcond, hasClassAt_eq hcond.2, hclass, hk]
            show (if k > 0 then _ else _) = _
            rw [if_neg hk0]
            rfl
          · obtain ⟨turns', rfl⟩ : ∃ t, turns' = t + 1 := ⟨turns' - 1, by omega⟩
            rw [loopFrom, if_pos (by omega)]
            simp only [run_bind, run_ite, run_pure, hclass, Bool.not_false, if_true, ok_bind,
              hrun T hT, if_neg hk0]
    · refine ⟨pos, ?_, hinside, fun turns' T hturns _ => ?_⟩
      · rw [findFrom, if_neg hcond]
      · obtain ⟨turns', rfl⟩ : ∃ t, turns' = t + 1 := ⟨turns' - 1, by omega⟩
        rw [loopFrom, if_neg (by omega)]
        rfl

/-- A check that stays inside, and finds characters that are there. -/
def Inside (codepoints : StdList InputCodepoint) (at_ : Nat) (o : Option Nat) : Prop :=
  ∃ k, o = some k ∧ at_ + k ≤ codepoints.elems.length

theorem Ends.inside {at_ : Nat} {o : Option Nat} {c : Counted Nat} (h : Ends codepoints at_ o c) :
    Inside codepoints at_ o := by
  obtain ⟨k, hk, hinside, -, -⟩ := h
  exact ⟨k, hk, hinside⟩

/-- What the search over counters finds is found without a read outside. -/
theorem FindLongestNumber_agrees (codepoints : StdList InputCodepoint) (charClass : CharacterClass)
    (start : UInt16) : ∃ length, FindLongestNumber codepoints charClass start = some length ∧
      Returns 16 (NumericUnkMaker.FindLongestNumber codepoints.elems charClass start.toNat)
        length.toNat := by
  obtain ⟨length, hlength, -, hrun⟩ :=
    @findFrom_ends codepoints charClass start 66 0 (by decide) (by decide) (Nat.le_max_left _ _)
  refine ⟨length, hlength, 70, fun turns hturns => ?_⟩
  unfold NumericUnkMaker.FindLongestNumber
  rw [run_bind, run_loopUp]
  have hloop := hrun turns turns (by omega) hturns
  exact congrArg (· >>= fun r => Except.ok r.1) hloop

end NumericReads

end Jumanpp.Core.Analysis
