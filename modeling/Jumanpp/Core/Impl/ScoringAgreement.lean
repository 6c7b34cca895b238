import Jumanpp.Core.Impl.NgramSteps

/-!
# The ways to score n-grams agree

In steps, at once and through the kernel of the generated class, a row gets the score that the
`FeatureScorer` of the spec gives to its nodes.
-/

namespace Jumanpp.Core.Features

open Jumanpp.Lib Jumanpp.Core.Analysis

namespace PartialNgramFeatureApply

variable (impl : PartialNgramFeatureApply)

/-- The first steps of a boundary, in `ScoreProcessor::applyT0`. -/
def storeStates (buffers : FeatureBuffer) (p0 : List PatternRow) : Option FeatureBuffer := do
  let buffers ← impl.applyBiStep1 buffers p0
  impl.applyTriStep1 buffers p0

/-- The steps of `applyT0`, `applyT1` and `applyT2` behind the unigrams. -/
def scoreInSteps (buffers : FeatureBuffer) (p0 : List PatternRow) (p1 p2 : PatternRow)
    (weights : WeightBuffer) (scores : List Score) : Option (FeatureBuffer × List Score) := do
  let buffers ← impl.storeStates buffers p0
  let (buffers, scores) ← impl.applyBiStep2 buffers p1 weights scores
  let buffers ← impl.applyTriStep2 buffers p1
  impl.applyTriStep3 buffers p2 weights scores

/-- A node against a list of predecessors, in `ScoreProcessor::computeGbeamScores`. -/
def scoreAtOnce (buffers : FeatureBuffer) (p0 : List PatternRow) (t0idx : Nat) (t0 : PatternRow)
    (t1 t2 : List PatternRow) (t1idxes : List Nat) (weights : WeightBuffer)
    (result : List Score) : Option (FeatureBuffer × List Score) := do
  let buffers ← impl.storeStates buffers p0
  impl.applyBiTri buffers t0idx t0 t1 t2 t1idxes weights result

/-- Row by row exactly the scores of the n-grams are given, and nothing else is written. -/
structure ScoresRowByRow (scorer : FeatureScorer PatternRow) (weights : WeightBuffer)
    (buffers : FeatureBuffer) (p0 t1 t2 : List PatternRow) (t1idxes : List Nat)
    (result : List Score) : Prop where
  inSteps : ∀ p1 p2 scores, p0.length ≤ scores.length → ∃ after,
    impl.scoreInSteps buffers p0 p1 p2 weights scores =
      some (after, overwrite (fun row x =>
        x + (scorer.bi (p0.getD row []) p1 + scorer.tri (p0.getD row []) p1 p2))
        p0.length scores) ∧ after.scoreBuffer = buffers.scoreBuffer
  atOnce : ∀ t0idx t0, p0[t0idx]? = some t0 → ∃ after,
    impl.scoreAtOnce buffers p0 t0idx t0 t1 t2 t1idxes weights result =
      some (after, overwrite (fun i _ => pairScore scorer t1 t2 t1idxes t0 i) t2.length result) ∧
    after.scoreBuffer.drop t1.length = buffers.scoreBuffer.drop t1.length ∧
    (t2 = [] → after.scoreBuffer = buffers.scoreBuffer)

end PartialNgramFeatureApply

section Agreement

variable {child : PartialNgramFeatures} {weights : WeightBuffer} {stats : AnalysisRunStats}
  {p0 t1 t2 : List PatternRow} {t1idxes : List Nat} {buffers : FeatureBuffer}

/-- The steps of an implementation whose scoring steps add the scores. -/
theorem scoreInSteps_of_addsScores {impl : PartialNgramFeatureApply}
    (hbiStep1 : impl.applyBiStep1 = child.applyBiStep1)
    (htriStep1 : impl.applyTriStep1 = child.applyTriStep1)
    (htriStep2 : impl.applyTriStep2 = child.applyTriStep2)
    (hbiStep2 : ∀ {buffers}, Stepped child stats p0 buffers → ∀ p1 {scores : List Score},
      p0.length ≤ scores.length →
      Stepped.AddsScores buffers p0 (fun t0 => (child.scorer weights).bi t0 p1) scores
        (impl.applyBiStep2 buffers p1 weights scores))
    (htriStep3 : ∀ {buffers}, Stepped child stats p0 buffers → ∀ {p1},
      SteppedTri child p0 p1 buffers → ∀ p2 {scores : List Score}, p0.length ≤ scores.length →
      Stepped.AddsScores buffers p0 (fun t0 => (child.scorer weights).tri t0 p1 p2) scores
        (impl.applyTriStep3 buffers p2 weights scores))
    (htargets : child.Targets) (hbuffers : buffers.Allocated child stats)
    (hp0 : p0.length ≤ stats.maxStarts) (p1 p2 : PatternRow) {scores : List Score}
    (hscores : p0.length ≤ scores.length) :
    ∃ after, impl.scoreInSteps buffers p0 p1 p2 weights scores =
      some (after, overwrite (fun row x => x + ((child.scorer weights).bi (p0.getD row []) p1 +
        (child.scorer weights).tri (p0.getD row []) p1 p2)) p0.length scores) ∧
      after.scoreBuffer = buffers.scoreBuffer := by
  obtain ⟨stored, hstore, hstored, _, hscoreBuffer⟩ :=
    PartialNgramFeatures.exists_stepped htargets hbuffers hp0
  obtain ⟨values, hbi, hlen⟩ := hbiStep2 hstored p1 hscores
  obtain ⟨t2Buffer2, htri2, hstored2, htri⟩ := (hstored.withValues hlen).applyTriStep2 p1
  have hscores' : p0.length ≤ (overwrite (fun row x =>
      x + (child.scorer weights).bi (p0.getD row []) p1) p0.length scores).length := by
    rw [length_overwrite]
    exact hscores
  obtain ⟨values', htri3, _⟩ := htriStep3 hstored2 htri p2 hscores'
  refine ⟨{ stored with t2Buffer2 := t2Buffer2, valueBuffer := values' }, ?_, hscoreBuffer⟩
  unfold PartialNgramFeatureApply.scoreInSteps PartialNgramFeatureApply.storeStates
  rw [hbiStep1, htriStep1, htriStep2, Option.bind_eq_bind, Option.bind_eq_bind, hstore,
    Option.bind_some, hbi, Option.bind_eq_bind, Option.bind_some]
  simp only [htri2, Option.bind_some]
  rw [htri3, overwrite_overwrite]
  simp only [add_assoc]

theorem dynamicApply_scoresRowByRow (htargets : child.Targets)
    (hbuffers : buffers.Allocated child stats) (hp0 : p0.length ≤ stats.maxStarts)
    (ht1 : t1.length ≤ stats.maxEnds) (hrows : TriRows t1 t2 t1idxes) {result : List Score}
    (hresult : t2.length ≤ result.length) :
    child.dynamicApply.ScoresRowByRow (child.scorer weights) weights buffers p0 t1 t2 t1idxes
      result where
  inSteps p1 p2 scores hscores :=
    scoreInSteps_of_addsScores rfl rfl rfl (fun h p1 _ hscores => h.applyBiStep2 p1 hscores)
      (fun h _ htri p2 _ hscores => h.applyTriStep3 htri p2 hscores) htargets hbuffers hp0 p1 p2
      hscores
  atOnce t0idx t0 _ := by
    obtain ⟨stored, hstore, hstored, _, hscoreBuffer⟩ :=
      PartialNgramFeatures.exists_stepped htargets hbuffers hp0
    obtain ⟨after, hrun, hdrop, hnil⟩ :=
      applyBiTri_spec weights htargets hstored.allocated ht1 hrows hresult t0
    refine ⟨after, ?_, hscoreBuffer ▸ hdrop, ?_⟩
    · unfold PartialNgramFeatureApply.scoreAtOnce PartialNgramFeatureApply.storeStates
      rw [Option.bind_eq_bind, Option.bind_eq_bind]
      exact (congrArg (Option.bind · _) hstore).trans hrun
    · intro ht2
      rw [hnil ht2, hscoreBuffer]

theorem generatedApply_scoresRowByRow (htargets : child.Targets)
    (hbuffers : buffers.Allocated child stats) (hp0 : p0.length ≤ stats.maxStarts)
    (ht1 : t1.length ≤ stats.maxEnds) (hrows : TriRows t1 t2 t1idxes) {result : List Score}
    (hresult : t2.length ≤ result.length)
    (h : p0 = [] ∨ t2 ≠ [] ∧ KernelWarmup child weights t1 buffers) :
    (PartialNgramPrinter.generatedApply child).ScoresRowByRow (child.scorer weights) weights
      buffers p0 t1 t2 t1idxes result where
  inSteps p1 p2 scores hscores :=
    scoreInSteps_of_addsScores rfl rfl rfl
      (fun h p1 _ hscores => h.printer_applyBiStep2 p1 hscores)
      (fun h _ htri p2 _ hscores => h.printer_applyTriStep3 htri p2 hscores) htargets hbuffers hp0
      p1 p2 hscores
  atOnce t0idx t0 ht0 := by
    obtain rfl | ⟨hne, hwarm⟩ := h
    · simp at ht0
    obtain ⟨stored, hstore, hstored, hvalues, hscoreBuffer⟩ :=
      PartialNgramFeatures.exists_stepped htargets hbuffers hp0
    have hwarm' : KernelWarmup child weights t1 stored := by
      unfold KernelWarmup
      rw [hvalues]
      exact hwarm
    obtain ⟨after, hrun, hdrop⟩ :=
      printer_applyBiTri_spec hstored ht1 hrows hresult hne hwarm' ht0
    refine ⟨after, ?_, hscoreBuffer ▸ hdrop, fun ht2 => absurd ht2 hne⟩
    unfold PartialNgramFeatureApply.scoreAtOnce PartialNgramFeatureApply.storeStates
    rw [Option.bind_eq_bind, Option.bind_eq_bind]
    exact (congrArg (Option.bind · _) hstore).trans hrun

/-- The kernel needs a row, and stale values that are indices of weights. -/
theorem warmup_of_scoresRowByRow (htargets : child.Targets)
    (hbuffers : buffers.Allocated child stats) (hp0 : p0.length ≤ stats.maxStarts)
    (ht1 : t1.length ≤ stats.maxEnds) (hrows : TriRows t1 t2 t1idxes) {result : List Score}
    (h : (PartialNgramPrinter.generatedApply child).ScoresRowByRow (child.scorer weights) weights
      buffers p0 t1 t2 t1idxes result) :
    p0 = [] ∨ t2 ≠ [] ∧ KernelWarmup child weights t1 buffers := by
  cases p0 with
  | nil => exact Or.inl rfl
  | cons t0 rest =>
      right
      obtain ⟨stored, hstore, hstored, hvalues, _⟩ :=
        PartialNgramFeatures.exists_stepped htargets hbuffers hp0
      obtain ⟨after, hrun, _⟩ := h.atOnce 0 t0 rfl
      have hrun' : PartialNgramPrinter.applyBiTri child stored 0 t1 t2 t1idxes weights result =
          some (after, overwrite (fun i _ =>
            pairScore (child.scorer weights) t1 t2 t1idxes t0 i) t2.length result) :=
        (congrArg (Option.bind · _) hstore).symm.trans hrun
      obtain ⟨hne, hwarm⟩ := warmup_of_printer_applyBiTri hstored ht1 hrows rfl hrun'
      unfold KernelWarmup at hwarm ⊢
      rw [hvalues] at hwarm
      exact ⟨hne, hwarm⟩

end Agreement

/-- All ways to score agree on every input exactly if the kernel is not run without rows and its
warm-up rows read indices of weights. -/
theorem scoresRowByRow_iff (spec : NgramSpec) (weights : WeightBuffer) (stats : AnalysisRunStats)
    (buffers : FeatureBuffer) (p0 t1 t2 : List PatternRow) (t1idxes : List Nat)
    (result : List Score) (dynamic generated : PartialNgramFeatures)
    (hdynamic : PartialNgramFeatures.make spec = .ok dynamic)
    (hgenerated : PartialNgramPrinter.make spec = .ok generated)
    (hbuffers : buffers.Allocated dynamic stats) (hp0 : p0.length ≤ stats.maxStarts)
    (ht1 : t1.length ≤ stats.maxEnds) (hrows : TriRows t1 t2 t1idxes)
    (hresult : t2.length ≤ result.length) :
    (dynamic.dynamicApply.ScoresRowByRow (dynamic.scorer weights) weights buffers p0 t1 t2 t1idxes
        result ∧
      (PartialNgramPrinter.generatedApply generated).ScoresRowByRow (dynamic.scorer weights) weights
        buffers p0 t1 t2 t1idxes result) ↔
    p0 = [] ∨ t2 ≠ [] ∧ WarmupInRange weights dynamic.numBigrams dynamic.numTrigrams t1.length
      buffers.valueBuffer := by
  obtain ⟨child, hchild, hprinter, hbuilt⟩ := spec.exists_features
  rw [hchild, Except.ok.injEq] at hdynamic
  rw [hprinter, Except.ok.injEq] at hgenerated
  subst hdynamic hgenerated
  constructor
  · rintro ⟨_, h⟩
    exact warmup_of_scoresRowByRow hbuilt.targets hbuffers hp0 ht1 hrows h
  · intro h
    exact ⟨dynamicApply_scoresRowByRow hbuilt.targets hbuffers hp0 ht1 hrows hresult,
      generatedApply_scoresRowByRow hbuilt.targets hbuffers hp0 ht1 hrows hresult h⟩

/-! ## A spec with one bigram and one trigram -/

def pairSpec : NgramSpec :=
  .build [.trigram 0 0 0, .bigram 0 0]

def pairFeatures : PartialNgramFeatures :=
  ⟨[], [⟨0, 0, 0, 0⟩], [⟨0, 1, 0, 0, 0⟩]⟩

def twoWeights : WeightBuffer :=
  ⟨[1, 2], 1, rfl⟩

/-- Buffers for boundaries with one node. -/
def smallBuffers : FeatureBuffer where
  currentElems := 0
  t1Buffer := [[0]]
  t2Buffer1 := [[0]]
  t2Buffer2 := [[0]]
  valueBuffer := fun _ => [0]
  scoreBuffer := [0]

theorem make_pairSpec : PartialNgramFeatures.make pairSpec = .ok pairFeatures ∧
    PartialNgramPrinter.make pairSpec = .ok pairFeatures := by
  have hsort : sortByOrder [.trigram 0 0 0, .bigram 0 0] = [.bigram 0 0, .trigram 0 0 0] := by
    simp [sortByOrder, List.mergeSort, List.MergeSort.Internal.splitInTwo,
      FeatureCombinator.data]
  unfold PartialNgramFeatures.make PartialNgramPrinter.make pairSpec NgramSpec.build
  simp only [hsort]
  exact ⟨rfl, rfl⟩

theorem smallBuffers_allocated : smallBuffers.Allocated pairFeatures ⟨1, 1⟩ where
  valueBuffer _ := rfl
  t1Buffer := ⟨rfl, by simp [smallBuffers, pairFeatures, PartialNgramFeatures.numBigrams]⟩
  t2Buffer1 := ⟨rfl, by simp [smallBuffers, pairFeatures, PartialNgramFeatures.numTrigrams]⟩
  t2Buffer2 := ⟨rfl, by simp [smallBuffers, pairFeatures, PartialNgramFeatures.numTrigrams]⟩
  scoreBuffer := rfl

theorem smallBuffers_warmup : WarmupInRange twoWeights 1 1 1 smallBuffers.valueBuffer where
  bigrams := by
    intro i x hi hx
    obtain rfl : i = 0 := by omega
    cases hx
    exact twoWeights.inRange_zero
  trigrams := by
    intro i x hlow hhigh
    omega

theorem scoresRowByRow_iff_pairSpec :
    pairFeatures.dynamicApply.ScoresRowByRow (pairFeatures.scorer twoWeights) twoWeights
        smallBuffers [[7]] [[8]] [[9]] [0] [0] ∧
      (PartialNgramPrinter.generatedApply pairFeatures).ScoresRowByRow
        (pairFeatures.scorer twoWeights) twoWeights smallBuffers [[7]] [[8]] [[9]] [0] [0] :=
  (scoresRowByRow_iff pairSpec twoWeights ⟨1, 1⟩ smallBuffers [[7]] [[8]] [[9]] [0] [0]
    pairFeatures pairFeatures make_pairSpec.1 make_pairSpec.2 smallBuffers_allocated
    (Nat.le_refl 1) (Nat.le_refl 1) ⟨rfl, by simp⟩ (Nat.le_refl 1)).mpr
    (Or.inr ⟨by simp, smallBuffers_warmup⟩)

/-- A boundary that no path reaches has nodes but an empty global beam. -/
theorem generatedApply_emptyBeam_not_scored :
    ¬ (PartialNgramPrinter.generatedApply pairFeatures).ScoresRowByRow
      (pairFeatures.scorer twoWeights) twoWeights smallBuffers [[7]] [] [] [] [0] := by
  intro h
  obtain ⟨after, hrun, _⟩ := h.atOnce 0 [7] rfl
  cases hrun

end Jumanpp.Core.Features
