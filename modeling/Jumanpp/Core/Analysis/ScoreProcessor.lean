import Jumanpp.Core.Analysis.LatticeTypes
import Jumanpp.Util.Partition

/-!
# Beam candidates and the score processor

`AnalyzerImpl` bundles what the scoring passes read apart from the lattice: the features of the
nodes, the scorer, the plugin and the configuration.
-/

namespace Jumanpp.Core.Analysis

open Jumanpp.Lib Jumanpp.Util

/-- What the language leaves open: the standard algorithms, and the score of a candidate whose
`left << 16` overflows `int`. -/
structure Platform extends StdAlgorithm where
  overflowScore : Score → Nat → Nat → Score

/-- The packed triple; `data_` orders candidates by score, then `left`, then `beam`. -/
structure BeamCandidate where
  score : Score
  left : Nat
  beam : Nat
deriving DecidableEq

namespace BeamCandidate

def pack (platform : Platform) (score : Score) (left beam : Nat) : BeamCandidate where
  score := if left < 2 ^ 15 then score else platform.overflowScore score left beam
  left := left
  beam := beam

theorem pack_of_lt {platform : Platform} {left : Nat} (h : left < 2 ^ 15) (score : Score)
    (beam : Nat) : pack platform score left beam = ⟨score, left, beam⟩ := by
  unfold pack
  rw [if_pos h]

/-- `std::greater<>` on `data_`. -/
def greater (a b : BeamCandidate) : Bool :=
  decide (b.score < a.score) ||
    (decide (a.score = b.score) &&
      (decide (b.left < a.left) || (decide (a.left = b.left) && decide (b.beam < a.beam))))

theorem greater_iff (a b : BeamCandidate) :
    greater a b = true ↔ b.score < a.score ∨
      a.score = b.score ∧ (b.left < a.left ∨ a.left = b.left ∧ b.beam < a.beam) := by
  simp [greater]

theorem not_greater_iff (a b : BeamCandidate) :
    greater a b = false ↔ a.score < b.score ∨
      a.score = b.score ∧ (a.left < b.left ∨ a.left = b.left ∧ a.beam ≤ b.beam) := by
  rw [← Bool.not_eq_true, greater_iff]
  rcases lt_trichotomy a.score b.score with h | h | h
  · simp [h, h.ne, lt_asymm h]
  · simp only [h, lt_irrefl, false_or, true_and]
    omega
  · simp [h, h.ne', lt_asymm h]

theorem strictWeak_greater : StrictWeak greater where
  asymm a b hab := by
    rw [greater_iff] at hab
    rw [not_greater_iff]
    rcases hab with hab | ⟨heq, hab⟩
    · exact Or.inl hab
    · exact Or.inr ⟨heq.symm, by omega⟩
  negTrans a b c hab hbc := by
    rw [not_greater_iff] at *
    rcases hab with hab | ⟨hab, hab'⟩ <;> rcases hbc with hbc | ⟨hbc, hbc'⟩
    · exact Or.inl (hab.trans hbc)
    · exact Or.inl (hbc ▸ hab)
    · exact Or.inl (hab ▸ hbc)
    · exact Or.inr ⟨hab.trans hbc, by omega⟩

theorem score_ge_of_notAfter {a b : BeamCandidate} (h : NotAfter greater a b) :
    b.score ≤ a.score := by
  unfold NotAfter at h
  rw [← Bool.not_eq_true, greater_iff] at h
  exact not_lt.mp fun hlt => h (Or.inl hlt)

end BeamCandidate

/-- The scorer, as a sum over the n-grams that end in a node; the arguments are the patterns of the
node and of its predecessors. -/
structure FeatureScorer (P : Type) where
  uni : P → Score
  bi : P → P → Score
  tri : P → P → P → Score

structure AnalyzerImpl (P : Type) where
  platform : Platform
  /-- The rows of `patternFeatureData`. -/
  patterns : LatticeNodePtr → P
  scorer : FeatureScorer P
  /-- The score that the plugin adds to a connection. -/
  plugin : Option (ConnectionPtr → Score)
  beamSize : Nat
  /-- Checked by `initScorers`. -/
  beamSize_pos : 0 < beamSize
  globalBeamSize : Nat
  rightGbeamCheck : Nat
  rightGbeamSize : Nat

/-- One score for each node that starts at the current boundary. -/
abbrev ScoreBuffer := Nat → Score

/-- The scores of a boundary, by right node, beam and left node. -/
abbrev LatticeBoundaryScores := Nat → Nat → Nat → Score

def LatticeBoundaryScores.empty : LatticeBoundaryScores :=
  fun _ _ _ => 0

def importBeamScore (left beam nodes : Nat) (buffer : ScoreBuffer)
    (scores : LatticeBoundaryScores) : LatticeBoundaryScores :=
  fun right beam' left' =>
    if right < nodes ∧ beam' = beam ∧ left' = left then buffer right else scores right beam' left'

namespace AnalyzerImpl

variable {P : Type} (a : AnalyzerImpl P)

def applyT0 (boundary : Nat) : ScoreBuffer :=
  fun t0 => a.scorer.uni (a.patterns ⟨boundary, t0⟩)

def applyT1 (boundary : Nat) (t1 : LatticeNodePtr) (bufferT0 : ScoreBuffer) : ScoreBuffer :=
  fun t0 => bufferT0 t0 + a.scorer.bi (a.patterns ⟨boundary, t0⟩) (a.patterns t1)

/-- The T2 node is the one before the last of the beam element's path. -/
def applyT2 (boundary : Nat) (t1 : LatticeNodePtr) (beam : ConnectionBeamElement)
    (bufferT1 : ScoreBuffer) : ScoreBuffer :=
  fun t0 => bufferT1 t0 + a.scorer.tri (a.patterns ⟨boundary, t0⟩) (a.patterns t1)
    (a.patterns beam.ptr.previous.latticeNodePtr)

def pluginScore (ptr : ConnectionPtr) : Score :=
  match a.plugin with
  | none => 0
  | some plugin => plugin ptr

def applyPluginToFullBeam (boundary left beam : Nat) (prev : ConnectionBeamElement)
    (bufferT2 : ScoreBuffer) : ScoreBuffer :=
  fun t0 => bufferT2 t0 +
    a.pluginScore (.conn (u16 boundary) (u16 left) (u16 t0) (u16 beam) prev.ptr)

/-- Candidates of a right node: all active beam elements of all left nodes. -/
def fillBeamCandidates (beams : Beams) (ends : List LatticeNodePtr)
    (scores : Nat → Nat → Score) : List BeamCandidate :=
  ends.zipIdx.flatMap fun (leftPtr, left) =>
    (activeBeam (beamAt beams leftPtr)).zipIdx.map fun (leftElm, beam) =>
      .pack a.platform (leftElm.totalScore + scores beam left) left beam

def processBeamCandidates (candidates : List BeamCandidate) (maxBeam : Nat) :
    Option (List BeamCandidate) :=
  if candidates.length > maxBeam * 2 then
    match partition BeamCandidate.greater candidates maxBeam (maxBeam * 2) with
    | none => none
    | some (candidates, sz) =>
        some ((a.platform.sort BeamCandidate.greater (candidates.take sz)).take maxBeam)
  else some ((a.platform.sort BeamCandidate.greater candidates).take maxBeam)

theorem processBeamCandidates_spec (candidates : List BeamCandidate) (maxBeam : Nat)
    (hpos : 0 < maxBeam) :
    ∃ res, a.processBeamCandidates candidates maxBeam = some res ∧
      IsTopK (NotAfter BeamCandidate.greater) maxBeam candidates res := by
  unfold processBeamCandidates
  have hstrict := BeamCandidate.strictWeak_greater
  split_ifs with hmany
  · obtain ⟨front, back, hpart, hperm, hlow, hhigh, hsplit⟩ :=
      partition_spec hstrict candidates maxBeam (maxBeam * 2) hpos (by omega) (by omega)
    rw [hpart]
    refine ⟨_, rfl, ?_⟩
    rw [List.take_left]
    exact isTopK_take_sorted hperm (a.platform.sort_perm _ _) (a.platform.sort_sorted _ _ hstrict)
      hsplit (Or.inr hlow)
  · have hall : (candidates ++ []).Perm candidates := by rw [List.append_nil]
    exact ⟨_, rfl, isTopK_take_sorted hall (a.platform.sort_perm _ _)
      (a.platform.sort_sorted _ _ hstrict) (by simp) (Or.inl rfl)⟩

end AnalyzerImpl

end Jumanpp.Core.Analysis
