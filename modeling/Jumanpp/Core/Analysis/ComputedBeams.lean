import Jumanpp.Core.Analysis.RnnResolveIds

/-!
# The beams after the analysis

`computeScores` chooses between the two passes.  After either of them the live connections are
linked, and the beam of BOS is the one that the analysis was bootstrapped with.
-/

namespace Jumanpp.Core.Analysis

open Rnn

theorem Spans.localNodeCount_eos {lat : Lattice} {n : Nat} (h : Spans lat n) :
    0 < (lat.boundary (n + 2)).localNodeCount := by
  unfold LatticeBoundary.localNodeCount
  rw [h.eos]
  exact Nat.one_pos

namespace AnalyzerImpl

variable {P : Type} (a : AnalyzerImpl P)

def computeScores (lat : Lattice) (scorers : List ScoreComputer) (scoreWeights : List Score) :
    Option Beams :=
  if a.globalBeamSize ≤ 0 then a.computeScoresFull lat
  else (a.computeScoresGbeamScorers lat scorers scoreWeights).map (·.beams)

variable {a} {lat : Lattice} {beams : Beams}

theorem prefix_scoreBoundariesFull {bnds : List LatticeBoundary} {beams' : Beams}
    (h : a.scoreBoundariesFull bnds beams = some beams') : beams <+: beams' := by
  induction bnds generalizing beams with
  | nil =>
      cases h
      exact List.prefix_rfl
  | cons bnd bnds ih =>
      unfold scoreBoundariesFull at h
      split at h
      next => cases h
      next rows hrows => exact (List.prefix_append beams [rows]).trans (ih h)

theorem activePtrs_bos_of_full (h : a.computeScoresFull lat = some beams) :
    activePtrs beams ⟨1, 0⟩ = [bosPtr] := by
  have hprefix : a.bootstrapAnalysis <+: beams := by
    unfold computeScoresFull at h
    split at h
    · cases h
      exact List.prefix_rfl
    · exact prefix_scoreBoundariesFull h
  exact activePtrs_bos_of_prefix hprefix

/-- The additional scorers leave the beam of BOS alone. -/
theorem activePtrs_bos_of_gbeam {scorers : List ScoreComputer} {scoreWeights : List Score}
    {st : GbeamState} (h : a.computeScoresGbeamScorers lat scorers scoreWeights = some st) :
    activePtrs st.beams ⟨1, 0⟩ = [bosPtr] := by
  have hlength := lat.four_le_length
  unfold computeScoresGbeamScorers at h
  split at h
  next => cases h
  next st1 hst1 =>
    have hbos := activePtrs_bos hst1
    split at h
    · cases h
      exact hbos
    · unfold scoreAdditional at h
      split at h
      · cases h
        exact hbos
      · dsimp only at h
        split at h
        next => cases h
        next beams hremake =>
          cases h
          unfold remakeEosBeam at hremake
          dsimp only at hremake
          split at hremake
          next => cases hremake
          next row _ =>
            have hne : (⟨1, 0⟩ : LatticeNodePtr) ≠ ⟨lat.createdBoundaryCount - 1, 0⟩ := by
              intro heq
              have hboundary := congrArg LatticeNodePtr.boundary heq
              unfold Lattice.createdBoundaryCount at hboundary
              simp only at hboundary
              omega
            rw [← Option.some.inj hremake]
            dsimp only
            rw [activePtrs_remakeEosBeam hne, activePtrs_adjustBeamScores]
            exact hbos

/-- What either pass establishes. -/
theorem computeScores_live {n : Nat} (hspans : Spans lat n) {scorers : List ScoreComputer}
    {scoreWeights : List Score} (h : a.computeScores lat scorers scoreWeights = some beams) :
    LiveInv lat (n + 3) beams ∧ activePtrs beams ⟨1, 0⟩ = [bosPtr] := by
  have hcount := hspans.count
  have hn := hspans.pos
  unfold computeScores at h
  split at h
  next =>
    have hlive := ((computeScoresFull_spec a lat).2 beams h).liveInv
    rw [hcount] at hlive
    exact ⟨hlive, activePtrs_bos_of_full h⟩
  next hpos =>
    obtain ⟨st, hst, rfl⟩ := Option.map_eq_some_iff.mp h
    refine ⟨?_, activePtrs_bos_of_gbeam hst⟩
    obtain ⟨st1, hst1, hinv⟩ := computeScoresGbeam_spec a lat (by omega)
    rw [hcount] at hinv
    obtain ⟨st2, hst2, hlive⟩ := scoreAdditional_spec (a := a) hinv hcount hspans.paths
      hspans.localNodeCount_eos (by omega) scorers scoreWeights
    unfold computeScoresGbeamScorers at hst
    rw [hst1] at hst
    simp only at hst
    rw [if_neg (by omega), hst2, Option.some.injEq] at hst
    rw [← hst]
    exact hlive

end AnalyzerImpl

end Jumanpp.Core.Analysis
