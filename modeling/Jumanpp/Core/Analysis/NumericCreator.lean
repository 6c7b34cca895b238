import Jumanpp.Core.Analysis.UnkNodesCreator

/-!
# Numbers

The longest number at each position: digits, and between them or around them prefixes, units,
fractions, commas and periods.
-/

namespace Jumanpp.Core.Analysis

open Jumanpp.Lib Jumanpp.Util Jumanpp.Core.Dic

namespace NumericData

def codepts (s : String) : List Nat := s.toList.map Char.toNat

def prefixPatterns : List (List Nat) := [codepts "数", codepts "何", codepts "幾"]

def interfixPatterns : List (List Nat) := [codepts "ぶんの", codepts "分の"]

def suffixPatterns : List (List Nat) :=
  [codepts "キロ", codepts "メガ", codepts "ギガ", codepts "テラ", codepts "ミリ"]

end NumericData

/-- Whether an entry has the fields of the pattern; one that can not be read counts as such. -/
def dicPatternMatches (dic : DictionaryEntries) (conf : UnkNodeConfig) (entries : List EntryPtr) :
    Bool :=
  entries.any fun ptr =>
    match dic.fillBuffer ptr with
    | none => true
    | some entryData => conf.patternFields.all fun idx => entryData[idx]? == conf.base[idx]?

namespace NumericUnkMaker

def MaxNumericLength : Nat := 64

variable (dic : DictionaryEntries) (codepoints : List InputCodepoint) (charClass : CharacterClass)
  (conf : UnkNodeConfig)

def patternMatches (itemp : List Nat) (pos : Nat) : Bool :=
  (List.range itemp.length).all fun index =>
    (codepointAt codepoints (pos + index)).codepoint == itemp.getD index 0

def checkInterfix (start pos : Nat) : Nat :=
  let restLength := codepoints.length - (start + pos)
  if pos > 0 then
    ((NumericData.interfixPatterns.find? fun itemp =>
      (codepointAt codepoints (start + pos - 1)).hasClass charClass &&
        decide (restLength > itemp.length) &&
        (codepointAt codepoints (start + pos + itemp.length)).hasClass charClass &&
        patternMatches codepoints itemp (start + pos)).map List.length).getD 0
  else 0

def checkSuffix (start pos : Nat) : Nat :=
  let restLength := codepoints.length - (start + pos)
  if pos > 0 then
    ((NumericData.suffixPatterns.find? fun itemp =>
      (codepointAt codepoints (start + pos - 1)).hasClass CharacterClass.FAMILY_EXCEPTION &&
        decide (restLength ≥ itemp.length) &&
        patternMatches codepoints itemp (start + pos)).map List.length).getD 0
  else 0

def checkPrefix (start pos : Nat) : List (List Nat) → Counted Nat
  | [] => pure 0
  | itemp :: patterns => do
      let next ← narrow (pos + itemp.length)
      let suffixLength ← narrow (checkSuffix codepoints start next)
      if start + pos + itemp.length < codepoints.length ∧
          ((codepointAt codepoints (start + pos + itemp.length)).hasClass
              CharacterClass.FIGURE_DIGIT ∨ suffixLength > 0) ∧
          patternMatches codepoints itemp (start + pos) then
        pure (itemp.length + suffixLength)
      else checkPrefix start pos patterns

/-- Three figures have to follow a comma. -/
def checkComma (start pos : Nat) : Counted Nat := do
  let posComma ← narrow (start + pos)
  if pos = 0 then pure 0
  else if !(codepointAt codepoints posComma).hasClass CharacterClass.COMMA then pure 0
  else do
    let commaInterval := 3
    let (numContinuedFigure, _) ← loopUp (commaInterval + 2) (fun numContinuedFigure (_ : Unit) =>
      if posComma + 1 + numContinuedFigure < codepoints.length ∧
          (codepointAt codepoints (posComma + 1 + numContinuedFigure)).hasClass
            CharacterClass.FIGURE then
        pure (.next numContinuedFigure ())
      else pure (.exit numContinuedFigure ())) 0 ()
    pure (if numContinuedFigure = 3 then 1 else 0)

def checkPeriod (start pos : Nat) : Nat :=
  let posPeriod := start + pos
  if pos = 0 then 0
  else if !(codepointAt codepoints posPeriod).hasClass CharacterClass.FAMILY_NUM_PERIOD then 0
  else if !(codepointAt codepoints (posPeriod - 1)).hasClass charClass then 0
  else if posPeriod + 1 < codepoints.length ∧
      (codepointAt codepoints (posPeriod + 1)).hasClass charClass then 1
  else 0

def checkExceptionalCharsInFigure (start pos : Nat) : Counted Nat := do
  let charLength ← checkPrefix codepoints start pos NumericData.prefixPatterns
  if charLength > 0 then pure charLength
  else if checkInterfix codepoints charClass start pos > 0 then
    pure (checkInterfix codepoints charClass start pos)
  else if checkSuffix codepoints start pos > 0 then pure (checkSuffix codepoints start pos)
  else do
    let charLength ← checkComma codepoints start pos
    if charLength > 0 then pure charLength
    else pure (checkPeriod codepoints charClass start pos)

def FindLongestNumber (start : Nat) : Counted Nat := do
  let (pos, _) ← loopUp (min (MaxNumericLength + 1) (codepoints.length - start))
    (fun pos (_ : Unit) =>
      if !(codepointAt codepoints (start + pos)).hasClass charClass then do
        let charLength ← checkExceptionalCharsInFigure codepoints charClass start pos
        if charLength > 0 then do
          let pos ← narrow (pos + (charLength - 1))
          pure (.next pos ())
        else pure (.exit pos ())
      else pure (.next pos ())) 0 ()
  pure pos

/-- The body of the loop over the input. -/
def spawnFrom (i : Nat) (s : Spawned) : Counted Spawned := do
  let length ← FindLongestNumber codepoints charClass i
  if length > 0 then do
    let (_, trav, status, nonode) ← loopUp (i + length) (fun nextstep (trav, _, nonode) =>
      let (status, trav) := trav.step dic (codepointAt codepoints nextstep).bytes
      pure (.next nextstep (trav, status, nonode || decide (status = .NoNode))))
      i (doubleArrayTraversal, TraverseStatus.NoNode, false)
    let status := if nonode then TraverseStatus.NoNode else status
    let end_ ← narrow (i + length)
    match status with
    | .NoNode => pure (s.appendUnk codepoints conf true i end_)
    | .NoLeaf => pure (s.appendUnk codepoints conf false i end_)
    | .Ok =>
        if !dicPatternMatches dic conf (dic.entryTraversal trav) then
          pure (s.appendUnk codepoints conf false i end_)
        else pure s
  else pure s

def spawnNodes (s : Spawned) : Counted Spawned := do
  let (_, s) ← loopUp codepoints.length (fun i s => do
    let s ← spawnFrom dic codepoints charClass conf i s
    pure (.next i s)) 0 s
  pure s

/-! ## No counter wraps -/

variable {dic codepoints charClass conf} {n : Nat} (hlength : codepoints.length = n)
  (hn : n < 2 ^ 16) {start pos : Nat}

include hlength

theorem checkInterfix_le : start + pos + checkInterfix codepoints charClass start pos ≤
    max (start + pos) n := by
  unfold checkInterfix
  simp only
  split
  · rw [hlength]
    cases hfind : List.find? _ NumericData.interfixPatterns with
    | none => exact Nat.le_max_left _ _
    | some itemp =>
        have hcond := List.find?_some hfind
        simp only [Bool.and_eq_true, decide_eq_true_eq] at hcond
        simp only [Option.map_some, Option.getD_some]
        omega
  · exact Nat.le_max_left _ _

theorem checkSuffix_le : start + pos + checkSuffix codepoints start pos ≤
    max (start + pos) n := by
  unfold checkSuffix
  simp only
  split
  · rw [hlength]
    cases hfind : List.find? _ NumericData.suffixPatterns with
    | none => exact Nat.le_max_left _ _
    | some itemp =>
        have hcond := List.find?_some hfind
        simp only [Bool.and_eq_true, decide_eq_true_eq] at hcond
        simp only [Option.map_some, Option.getD_some]
        omega
  · exact Nat.le_max_left _ _

theorem checkPeriod_le (hpos : start + pos < n) :
    start + pos + checkPeriod codepoints charClass start pos ≤ n := by
  unfold checkPeriod
  simp only
  split_ifs <;> omega

include hn

theorem settles_checkPrefix (hpos : start + pos < n) {patterns : List (List Nat)}
    (hpatterns : ∀ itemp ∈ patterns, itemp.length = 1) :
    Settles 16 (checkPrefix codepoints start pos patterns) fun k => start + pos + k ≤ n := by
  induction patterns with
  | nil => exact Settles.pure (by omega)
  | cons itemp patterns ih =>
      have hone := hpatterns itemp List.mem_cons_self
      have hrest := ih fun itemp h => hpatterns itemp (List.mem_cons_of_mem _ h)
      unfold checkPrefix
      rw [hone, hlength]
      refine (Settles.narrow (by omega)).bind ?_
      rintro _ rfl
      have hsuffix := @checkSuffix_le codepoints n hlength start (pos + 1)
      refine (Settles.narrow (by omega)).bind ?_
      rintro _ rfl
      split
      · exact Settles.pure (by omega)
      · exact hrest

theorem settles_checkComma (hpos : start + pos < n) :
    Settles 16 (checkComma codepoints start pos) fun k => start + pos + k ≤ n := by
  unfold checkComma
  refine (Settles.narrow (by omega)).bind ?_
  rintro _ rfl
  split
  · exact Settles.pure (by omega)
  · split
    · exact Settles.pure (by omega)
    · simp only
      refine Settles.bind (Q := fun _ => True) ?_ fun r _ => Settles.pure (by split <;> omega)
      refine Settles.loopUp (P := fun _ _ => True) ?_ trivial
      intro k _ hk _
      split
      · exact Settles.pure ⟨Nat.le_refl k, by omega, trivial⟩
      · exact Settles.pure trivial

theorem settles_checkExceptionalCharsInFigure (hpos : start + pos < n) :
    Settles 16 (checkExceptionalCharsInFigure codepoints charClass start pos)
      fun k => start + pos + k ≤ n := by
  unfold checkExceptionalCharsInFigure
  have hinterfix := @checkInterfix_le codepoints charClass n hlength start pos
  have hsuffix := @checkSuffix_le codepoints n hlength start pos
  have hperiod := @checkPeriod_le codepoints charClass n hlength start pos hpos
  refine (settles_checkPrefix hlength hn hpos (by decide)).bind fun k hk => ?_
  split
  · exact Settles.pure hk
  · split
    · exact Settles.pure (by omega)
    · split
      · exact Settles.pure (by omega)
      · refine (settles_checkComma hlength hn hpos).bind fun k hk => ?_
        split
        · exact Settles.pure hk
        · exact Settles.pure hperiod

theorem settles_FindLongestNumber (hstart : start ≤ n) :
    Settles 16 (FindLongestNumber codepoints charClass start) fun length => start + length ≤ n := by
  unfold FindLongestNumber
  rw [hlength]
  refine Settles.bind (Q := fun r => start + r.1 ≤ n) ?_ fun r hr => Settles.pure hr
  refine Settles.loopUp (P := fun pos _ => start + pos ≤ n) ?_ hstart
  intro pos _ hpos _
  have hlt : start + pos < n := by omega
  split
  · refine (settles_checkExceptionalCharsInFigure hlength hn hlt).bind fun k hk => ?_
    split
    · refine (Settles.narrow (by omega)).bind ?_
      rintro _ rfl
      exact Settles.pure ⟨by omega, by omega, by omega⟩
    · exact Settles.pure hlt.le
  · exact Settles.pure ⟨Nat.le_refl pos, by omega, by omega⟩

theorem settles_spawnFrom (hstart : start ≤ n) {s : Spawned} (h : s.Inside n) :
    Settles 16 (spawnFrom dic codepoints charClass conf start s) (·.Inside n) := by
  unfold spawnFrom
  refine (settles_FindLongestNumber hlength hn hstart).bind fun length hle => ?_
  split
  next hpos =>
    have hnode : ∀ notPrefix, (s.appendUnk codepoints conf notPrefix start (start + length)).Inside n :=
      fun notPrefix => h.appendUnk (by omega) hle codepoints conf notPrefix
    refine Settles.bind (Q := fun _ => True) ?_ ?_
    · refine Settles.loopUp (P := fun _ _ => True) ?_ trivial
      rintro k ⟨trav, status, nonode⟩ hk -
      exact Settles.pure ⟨Nat.le_refl k, by omega, trivial⟩
    · rintro ⟨k, trav, status, nonode⟩ -
      refine (Settles.narrow (by omega)).bind ?_
      rintro _ rfl
      split
      · exact Settles.pure (hnode true)
      · exact Settles.pure (hnode false)
      · split
        · exact Settles.pure (hnode false)
        · exact Settles.pure h
  next => exact Settles.pure h

theorem settles_spawnNodes {s : Spawned} (h : s.Inside n) :
    Settles 16 (spawnNodes dic codepoints charClass conf s) (·.Inside n) := by
  unfold spawnNodes
  rw [hlength]
  refine Settles.bind (Q := fun r => r.2.Inside n) ?_ fun r hr => Settles.pure hr
  refine Settles.loopUp (P := fun _ s => Spawned.Inside s n) ?_ h
  intro i s hi hs
  exact (settles_spawnFrom hlength hn hi.le hs).bind fun s' hs' =>
    Settles.pure ⟨Nat.le_refl i, by omega, hs'⟩

end NumericUnkMaker

end Jumanpp.Core.Analysis
