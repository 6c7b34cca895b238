import Jumanpp.Core.Analysis.UnkNodesCreator

/-!
# Onomatopoeia

A word whose second half repeats its first one (ABAB, ABCABC or ABCDABCD).
-/

namespace Jumanpp.Core.Analysis

open Jumanpp.Lib Jumanpp.Util Jumanpp.Core.Dic

/-- Flags for the lengths of half the word. -/
abbrev OnomatopoeicPattern := BitVec 16

namespace OnomatopoeicPattern

def None : OnomatopoeicPattern := 0
def All : OnomatopoeicPattern := 1 <<< 2 ||| 1 <<< 3 ||| 1 <<< 4

end OnomatopoeicPattern

def HalfLenToPattern (halflen : Nat) : OnomatopoeicPattern :=
  1#16 <<< halflen &&& OnomatopoeicPattern.All

namespace OnomatopoeiaUnkMaker

def MaxOnomatopoeiaLength : Nat := 8
def MinOnomatopoeiaLength : Nat := 4

variable (dic : DictionaryEntries) (codepoints : List InputCodepoint) (charClass : CharacterClass)
  (conf : UnkNodeConfig)

/-- The loop over the rest of the first half. -/
def isOnomatopoeia (start halfLen : Nat) : Counted Bool := do
  let (_, same) ← loopUp halfLen (fun p same =>
    if (codepointAt codepoints (start + p)).codepoint ≠
        (codepointAt codepoints (start + halfLen + p)).codepoint then
      pure (.exit p false)
    else pure (.next p same)) 1 true
  pure same

def FindOnomatopoeia (start : Nat) : Counted OnomatopoeicPattern :=
  if start + MinOnomatopoeiaLength ≥ codepoints.length then pure OnomatopoeicPattern.None
  else
    let cp1 := codepointAt codepoints start
    if !cp1.hasClass charClass then pure OnomatopoeicPattern.None
    else if !(codepointAt codepoints (start + 1)).hasClass cp1.charClass then
      pure OnomatopoeicPattern.None
    else do
      let (_, pattern) ← loopUp (MaxOnomatopoeiaLength / 2 + 1) (fun halfLen pattern =>
        -- the second condition of the loop
        if start + halfLen * 2 - 1 ≥ codepoints.length then pure (.exit halfLen pattern)
        else
          let cp2 := codepointAt codepoints (start + halfLen)
          if !cp2.hasClass cp1.charClass then pure (.exit halfLen pattern)
          else if cp1.codepoint ≠ cp2.codepoint then pure (.next halfLen pattern)
          else do
            let same ← isOnomatopoeia codepoints start halfLen
            pure (.next halfLen (if same then pattern ||| HalfLenToPattern halfLen else pattern)))
        2 OnomatopoeicPattern.None
      pure pattern

/-- The loop over the lengths, for one start; `status` is that of the last step. -/
def spawnFrom (pattern : OnomatopoeicPattern) (i : Nat) (s : Spawned) : Counted Spawned := do
  let (_, _, _, _, s) ← loopUp (MaxOnomatopoeiaLength / 2 + 1)
    (fun halfLen (nextstep, trav, status, s) =>
      if pattern &&& HalfLenToPattern halfLen ≠ OnomatopoeicPattern.None then do
        let (nextstep, trav, status) ← loopUp (i + halfLen * 2) (fun nextstep (trav, _) =>
          let (status, trav) := trav.step dic (codepointAt codepoints nextstep).bytes
          pure (.next nextstep (trav, status))) nextstep (trav, status)
        match status with
        | .NoNode => do
            let end_ ← narrow (i + halfLen * 2)
            pure (.next halfLen (nextstep, trav, status, s.appendUnk codepoints conf true i end_))
        | .NoLeaf => do
            let end_ ← narrow (i + halfLen * 2)
            pure (.next halfLen (nextstep, trav, status, s.appendUnk codepoints conf false i end_))
        | .Ok => pure (.next halfLen (nextstep, trav, status, s))
      else pure (.next halfLen (nextstep, trav, status, s)))
    2 (i, doubleArrayTraversal, TraverseStatus.NoNode, s)
  pure s

def spawnNodes (s : Spawned) : Counted Spawned := do
  let (_, s) ← loopUp codepoints.length (fun i s => do
    let pattern ← FindOnomatopoeia codepoints charClass i
    if pattern = OnomatopoeicPattern.None then pure (.next i s)
    else do
      let s ← spawnFrom dic codepoints conf pattern i s
      pure (.next i s)) 0 s
  pure s

/-! ## No counter wraps -/

/-- The lengths of a pattern do not go over the end of the input. -/
def Fits (n start : Nat) (pattern : OnomatopoeicPattern) : Prop :=
  ∀ halfLen ≤ 4, pattern &&& HalfLenToPattern halfLen ≠ OnomatopoeicPattern.None →
    start + halfLen * 2 ≤ n

theorem fits_none (n start : Nat) : Fits n start OnomatopoeicPattern.None := by
  intro halfLen _ hne
  exact absurd BitVec.zero_and hne

theorem halfLenToPattern_disjoint : ∀ h ≤ 4, ∀ k ≤ 4,
    HalfLenToPattern h &&& HalfLenToPattern k ≠ OnomatopoeicPattern.None → h = k := by
  decide

theorem Fits.or {n start halfLen : Nat} {pattern : OnomatopoeicPattern}
    (h : Fits n start pattern) (hlen : halfLen ≤ 4) (hfits : start + halfLen * 2 ≤ n) :
    Fits n start (pattern ||| HalfLenToPattern halfLen) := by
  intro k hk hne
  by_cases hold : pattern &&& HalfLenToPattern k = OnomatopoeicPattern.None
  · rw [BitVec.and_or_distrib_right, hold] at hne
    have hnew : HalfLenToPattern halfLen &&& HalfLenToPattern k ≠ OnomatopoeicPattern.None := by
      intro hzero
      rw [hzero] at hne
      exact hne rfl
    rw [← halfLenToPattern_disjoint halfLen hlen k hk hnew]
    exact hfits
  · exact h k hk hold

variable {dic codepoints charClass conf} {n : Nat} (hlength : codepoints.length = n)
  (hn : n < 2 ^ 16) {start : Nat}

theorem settles_isOnomatopoeia {halfLen : Nat} (hlen : halfLen ≤ 4) :
    Settles 16 (isOnomatopoeia codepoints start halfLen) fun _ => True := by
  unfold isOnomatopoeia
  refine Settles.bind (Q := fun _ => True) ?_ fun r _ => Settles.pure trivial
  refine Settles.loopUp (P := fun _ _ => True) ?_ trivial
  intro p same hp _
  split
  · exact Settles.pure trivial
  · exact Settles.pure ⟨Nat.le_refl p, by omega, trivial⟩

include hlength

theorem settles_FindOnomatopoeia :
    Settles 16 (FindOnomatopoeia codepoints charClass start) (Fits n start) := by
  unfold FindOnomatopoeia
  rw [hlength]
  split
  · exact Settles.pure (fits_none n start)
  · simp only
    split
    · exact Settles.pure (fits_none n start)
    · split
      · exact Settles.pure (fits_none n start)
      · refine Settles.bind (Q := fun r => Fits n start r.2) ?_ fun r hr => Settles.pure hr
        refine Settles.loopUp (P := fun halfLen pattern => 2 ≤ halfLen ∧ Fits n start pattern) ?_
          ⟨Nat.le_refl 2, fits_none n start⟩ |>.mono fun r hr => hr.2
        rintro halfLen pattern hlen ⟨htwo, hfits⟩
        have hlen4 : halfLen ≤ 4 := Nat.le_of_lt_succ hlen
        split
        · exact Settles.pure ⟨htwo, hfits⟩
        · split
          · exact Settles.pure ⟨htwo, hfits⟩
          · split
            · exact Settles.pure ⟨Nat.le_refl _, by omega, by omega, hfits⟩
            · refine (settles_isOnomatopoeia hlen4).bind fun same _ =>
                Settles.pure ⟨Nat.le_refl _, by omega, by omega, ?_⟩
              split
              · exact hfits.or hlen4 (by omega)
              · exact hfits

include hn

theorem settles_spawnFrom {pattern : OnomatopoeicPattern} (hpattern : Fits n start pattern)
    (hstart : start ≤ n) {s : Spawned} (h : s.Inside n) :
    Settles 16 (spawnFrom dic codepoints conf pattern start s) (·.Inside n) := by
  unfold spawnFrom
  refine Settles.bind (Q := fun r => r.2.2.2.2.Inside n) ?_ fun r hr => Settles.pure hr
  refine Settles.loopUp (P := fun halfLen r => 2 ≤ halfLen ∧ r.1 ≤ n ∧ r.2.2.2.Inside n) ?_
    ⟨Nat.le_refl 2, hstart, h⟩ |>.mono fun r hr => hr.2.2
  rintro halfLen ⟨nextstep, trav, status, s⟩ hlen ⟨htwo, hnext, hs⟩
  have hlen4 : halfLen ≤ 4 := Nat.le_of_lt_succ hlen
  simp only at hnext hs
  simp only
  split
  next hbit =>
    have hfits := hpattern halfLen hlen4 hbit
    refine Settles.bind (Q := fun r => r.1 ≤ n) ?_ ?_
    · refine Settles.loopUp (P := fun k _ => k ≤ n) ?_ hnext
      rintro k ⟨trav, status⟩ hk -
      exact Settles.pure ⟨Nat.le_refl k, by omega, by omega⟩
    · rintro ⟨nextstep', trav', status'⟩ hnext'
      simp only
      cases status'
      · exact Settles.pure ⟨Nat.le_refl _, by omega, by omega, hnext', hs⟩
      · exact (Settles.narrow (by omega)).bind fun end_ hend => Settles.pure
          ⟨Nat.le_refl _, by omega, by omega, hnext',
            hs.appendUnk (by omega) (by omega) codepoints conf false⟩
      · exact (Settles.narrow (by omega)).bind fun end_ hend => Settles.pure
          ⟨Nat.le_refl _, by omega, by omega, hnext',
            hs.appendUnk (by omega) (by omega) codepoints conf true⟩
  next => exact Settles.pure ⟨Nat.le_refl _, by omega, by omega, hnext, hs⟩

theorem settles_spawnNodes {s : Spawned} (h : s.Inside n) :
    Settles 16 (spawnNodes dic codepoints charClass conf s) (·.Inside n) := by
  unfold spawnNodes
  rw [hlength]
  refine Settles.bind (Q := fun r => r.2.Inside n) ?_ fun r hr => Settles.pure hr
  refine Settles.loopUp (P := fun _ s => Spawned.Inside s n) ?_ h
  intro i s hi hs
  refine (settles_FindOnomatopoeia hlength).bind fun pattern hpattern => ?_
  split
  · exact Settles.pure ⟨Nat.le_refl i, by omega, hs⟩
  · exact (settles_spawnFrom hlength hn hpattern hi.le hs).bind fun s' hs' =>
      Settles.pure ⟨Nat.le_refl i, by omega, hs'⟩

end OnomatopoeiaUnkMaker

end Jumanpp.Core.Analysis
