import Jumanpp.Core.Training.GoldScores
import Jumanpp.Lib.SortedWalk
import Mathlib

/-!
# What an example teaches

The features of the mismatching steps are counted against each other: those of the gold path are
to be rewarded, those of the path that the analyzer prefers penalized.
-/

namespace Jumanpp.Core.Training

open Jumanpp.Lib Jumanpp.Core.Analysis Jumanpp.Core.Features

/-! ## The steps of the comparison -/

inductive ComparitionClass
  | Both
  | TopOnly
  | GoldOnly
deriving DecidableEq

structure ComparisonStep where
  cmpClass : ComparitionClass
  violation : Score
  mismatchWeight : Score
  numMismatches : Int
  /-- The beam element that `topPtr` points to. -/
  topPtr : Option ConnectionBeamElement
  numGold : Int

/-- The number nearest to `0.001` that is a `float`. -/
def smallViolation : Score := 8589935 / 2 ^ 33

/-- The build option `JPP_TRAIN_VIOLATION_INVALID` is on unless it is switched off. -/
def ComparisonStep.hasError (step : ComparisonStep) (violationInvalid : Bool) : Bool :=
  step.cmpClass ≠ .Both || (violationInvalid && step.violation > smallViolation) ||
    step.numMismatches > 0

structure ScoredFeature where
  feature : UInt32
  score : Score
deriving DecidableEq

/-- The vectors of `LossCalculator` that hold features. -/
structure LossFeatures where
  top1Features : List UInt32 := []
  goldFeatures : List UInt32 := []
  featureBuffer : List UInt32
  scored : List ScoredFeature := []

namespace LossFeatures

/-- Without `JPP_TRAIN_MID_NGRAMS`, which is off unless it is switched on. -/
def addTopNgrams (loss : LossFeatures) (features : NgramDynamicFeatureApply)
    (patterns : LatticeNodePtr → PatternRow) (cmp : ComparisonStep) : Option LossFeatures := do
  let t0beamPtr ← cmp.topPtr
  let t0 := t0beamPtr.ptr
  let t1 := t0.previous
  let t2 := t1.previous
  let nfr : NgramFeatureRef := ⟨t2.latticeNodePtr, t1.latticeNodePtr, t0.latticeNodePtr⟩
  let featureBuffer ← calculateNgramFeatures features patterns nfr loss.featureBuffer
  pure { loss with featureBuffer, top1Features := loss.top1Features ++ featureBuffer }

def addGoldNgrams (loss : LossFeatures) (rawGoldFeatures : List (List UInt32)) (position : Int) :
    Option LossFeatures := do
  let row ← if position < 0 then none else rawGoldFeatures[position.toNat]?
  pure { loss with goldFeatures := loss.goldFeatures ++ row }

/-- One turn of the loop of `computeLoss`; `fullWeight` is the sum of the weights of all fields. -/
def computeLossStep (violationInvalid : Bool) (features : NgramDynamicFeatureApply)
    (patterns : LatticeNodePtr → PatternRow) (rawGoldFeatures : List (List UInt32))
    (fullWeight : Score) (till : Int) (acc : Score × LossFeatures) (turn : ComparisonStep × Nat) :
    Option (Score × LossFeatures) := do
  let (lossSum, loss) := acc
  let (cmp, i) := turn
  match cmp.cmpClass with
  | .GoldOnly =>
    let loss ← if i < till then loss.addGoldNgrams rawGoldFeatures cmp.numGold else some loss
    pure (lossSum + fullWeight, loss)
  | .TopOnly =>
    let loss ← if i < till then loss.addTopNgrams features patterns cmp else some loss
    pure (lossSum + fullWeight, loss)
  | .Both =>
    if cmp.hasError violationInvalid then
      let loss ←
        if i < till then do
          let loss ← loss.addGoldNgrams rawGoldFeatures cmp.numGold
          loss.addTopNgrams features patterns cmp
        else some loss
      pure (lossSum + cmp.mismatchWeight, loss)
    else pure (lossSum, loss)

def computeLoss (violationInvalid : Bool) (features : NgramDynamicFeatureApply)
    (patterns : LatticeNodePtr → PatternRow) (rawGoldFeatures : List (List UInt32))
    (fullWeight : Score) (comparison : List ComparisonStep) (till : Int) (loss : LossFeatures) :
    Option (Score × LossFeatures) := do
  let loss := { loss with goldFeatures := [], top1Features := [] }
  let (lossSum, loss) ← comparison.zipIdx.foldlM
    (computeLossStep violationInvalid features patterns rawGoldFeatures fullWeight till) (0, loss)
  pure (lossSum / (comparison.length * fullWeight), loss)

end LossFeatures

/-! ## What is collected -/

/-- A step has a row of its gold node and an element of the beam of its top node. -/
structure ComparisonStep.WellFormed (step : ComparisonStep)
    (rawGoldFeatures : List (List UInt32)) : Prop where
  gold : step.cmpClass ≠ .TopOnly → 0 ≤ step.numGold ∧ step.numGold < rawGoldFeatures.length
  top : step.cmpClass ≠ .GoldOnly → step.topPtr.isSome

/-- The nodes behind `topPtr`. -/
def ComparisonStep.topRef (step : ComparisonStep) : NgramFeatureRef :=
  match step.topPtr with
  | some element =>
    ⟨element.ptr.previous.previous.latticeNodePtr, element.ptr.previous.latticeNodePtr,
      element.ptr.latticeNodePtr⟩
  | none => .init ⟨0, 0⟩

namespace LossFeatures

section

variable (violationInvalid : Bool) {spec : NgramSpec} {features : NgramDynamicFeatureApply}
  (patterns : LatticeNodePtr → PatternRow) (rawGoldFeatures : List (List UInt32))
  (fullWeight : Score) (till : Int)

/-- The features of the gold node of a mismatching step before `till`. -/
def collectedGold (turn : ComparisonStep × Nat) : List UInt32 :=
  if turn.2 < till ∧ turn.1.hasError violationInvalid ∧ turn.1.cmpClass ≠ .TopOnly then
    rawGoldFeatures.getD turn.1.numGold.toNat []
  else []

/-- The features of the top node of a mismatching step before `till`. -/
def collectedTop (spec : NgramSpec) (turn : ComparisonStep × Nat) : List UInt32 :=
  if turn.2 < till ∧ turn.1.hasError violationInvalid ∧ turn.1.cmpClass ≠ .GoldOnly then
    LossCalculator.refValues spec patterns turn.1.topRef
  else []

theorem addGoldNgrams_eq (loss : LossFeatures) {position : Int} (hpos : 0 ≤ position)
    (hlt : position < rawGoldFeatures.length) :
    loss.addGoldNgrams rawGoldFeatures position =
      some { loss with
        goldFeatures := loss.goldFeatures ++ rawGoldFeatures.getD position.toNat [] } := by
  have hread : rawGoldFeatures[position.toNat]? = some (rawGoldFeatures.getD position.toNat []) := by
    rw [List.getD_eq_getElem?_getD, List.getElem?_eq_getElem (by omega)]
    rfl
  unfold addGoldNgrams
  rw [if_neg (by omega), hread]
  rfl

theorem addTopNgrams_eq (hfeatures : features.map (·.descriptor) = spec.ngram)
    (loss : LossFeatures) (hbuffer : loss.featureBuffer.length = spec.ngram.length)
    {step : ComparisonStep} (hstep : step.topPtr.isSome) :
    loss.addTopNgrams features patterns step =
      some { loss with
        featureBuffer := LossCalculator.refValues spec patterns step.topRef
        top1Features := loss.top1Features ++
          LossCalculator.refValues spec patterns step.topRef } := by
  obtain ⟨element, helement⟩ := Option.isSome_iff_exists.mp hstep
  have hvalues := NgramDynamicFeatureApply.apply_eq hfeatures hbuffer
    (patterns step.topRef.t2) (patterns step.topRef.t1) (patterns step.topRef.t0)
  have href : step.topRef = ⟨element.ptr.previous.previous.latticeNodePtr,
      element.ptr.previous.latticeNodePtr, element.ptr.latticeNodePtr⟩ := by
    rw [ComparisonStep.topRef, helement]
  unfold addTopNgrams
  simp only [helement, Option.bind_eq_bind, Option.bind_some]
  rw [← href, calculateNgramFeatures, hvalues]
  rfl

/-- One turn adds the features of its step. -/
theorem computeLossStep_collects (hfeatures : features.map (·.descriptor) = spec.ngram)
    (acc : Score × LossFeatures) (hbuffer : acc.2.featureBuffer.length = spec.ngram.length)
    (turn : ComparisonStep × Nat) (hstep : turn.1.WellFormed rawGoldFeatures) :
    ∃ acc', computeLossStep violationInvalid features patterns rawGoldFeatures fullWeight till acc
        turn = some acc' ∧
      acc'.2.featureBuffer.length = spec.ngram.length ∧
      acc'.2.goldFeatures =
        acc.2.goldFeatures ++ collectedGold violationInvalid rawGoldFeatures till turn ∧
      acc'.2.top1Features =
        acc.2.top1Features ++ collectedTop violationInvalid patterns till spec turn := by
  obtain ⟨lossSum, loss⟩ := acc
  obtain ⟨step, i⟩ := turn
  change step.WellFormed rawGoldFeatures at hstep
  have hlength : (LossCalculator.refValues spec patterns step.topRef).length = spec.ngram.length :=
    List.length_map _
  by_cases hi : (i : Int) < till
  · cases hclass : step.cmpClass with
    | GoldOnly =>
        obtain ⟨hpos, hlt⟩ := hstep.gold (by simp [hclass])
        have hgold := addGoldNgrams_eq rawGoldFeatures loss hpos hlt
        simp only [computeLossStep, hclass, hi, ↓reduceIte, hgold]
        refine ⟨_, rfl, hbuffer, ?_⟩
        simp [collectedGold, collectedTop, ComparisonStep.hasError, hi, hclass]
    | TopOnly =>
        have htop := addTopNgrams_eq patterns hfeatures loss hbuffer (hstep.top (by simp [hclass]))
        simp only [computeLossStep, hclass, hi, ↓reduceIte, htop]
        refine ⟨_, rfl, hlength, ?_⟩
        simp [collectedGold, collectedTop, ComparisonStep.hasError, hi, hclass]
    | Both =>
        by_cases herror : step.hasError violationInvalid = true
        · obtain ⟨hpos, hlt⟩ := hstep.gold (by simp [hclass])
          have hgold := addGoldNgrams_eq rawGoldFeatures loss hpos hlt
          have htop := addTopNgrams_eq patterns hfeatures { loss with
            goldFeatures := loss.goldFeatures ++ rawGoldFeatures.getD step.numGold.toNat [] }
            hbuffer (hstep.top (by simp [hclass]))
          simp only [computeLossStep, hclass, hi, herror, ↓reduceIte, hgold, Option.bind_eq_bind,
            Option.bind_some, htop]
          refine ⟨_, rfl, hlength, ?_⟩
          simp [collectedGold, collectedTop, herror, hi, hclass]
        · simp only [computeLossStep, hclass, herror]
          refine ⟨_, rfl, hbuffer, ?_⟩
          simp [collectedGold, collectedTop, herror]
  · have hsame : ∃ lossSum', computeLossStep violationInvalid features patterns rawGoldFeatures
        fullWeight till (lossSum, loss) (step, i) = some (lossSum', loss) := by
      unfold computeLossStep
      simp only [hi, ↓reduceIte]
      cases step.cmpClass with
      | GoldOnly => exact ⟨_, rfl⟩
      | TopOnly => exact ⟨_, rfl⟩
      | Both =>
          by_cases herror : step.hasError violationInvalid = true
          · rw [if_pos herror]
            exact ⟨_, rfl⟩
          · rw [if_neg herror]
            exact ⟨_, rfl⟩
    obtain ⟨lossSum', hsame⟩ := hsame
    exact ⟨_, hsame, hbuffer, by simp [collectedGold, hi], by simp [collectedTop, hi]⟩

/-- `computeLoss` collects the features of the mismatching steps before `till`, in order. -/
theorem computeLoss_collects (hfeatures : features.map (·.descriptor) = spec.ngram)
    (loss : LossFeatures) (hbuffer : loss.featureBuffer.length = spec.ngram.length)
    {comparison : List ComparisonStep} (hsteps : ∀ step ∈ comparison, step.WellFormed rawGoldFeatures) :
    ∃ lossValue loss', computeLoss violationInvalid features patterns rawGoldFeatures fullWeight
        comparison till loss = some (lossValue, loss') ∧
      loss'.goldFeatures =
        comparison.zipIdx.flatMap (collectedGold violationInvalid rawGoldFeatures till) ∧
      loss'.top1Features =
        comparison.zipIdx.flatMap (collectedTop violationInvalid patterns till spec) := by
  have hrun : ∀ (turns : List (ComparisonStep × Nat)) (acc : Score × LossFeatures),
      (∀ turn ∈ turns, turn.1.WellFormed rawGoldFeatures) →
      acc.2.featureBuffer.length = spec.ngram.length →
      ∃ acc', turns.foldlM (computeLossStep violationInvalid features patterns rawGoldFeatures
          fullWeight till) acc = some acc' ∧
        acc'.2.goldFeatures = acc.2.goldFeatures ++
          turns.flatMap (collectedGold violationInvalid rawGoldFeatures till) ∧
        acc'.2.top1Features = acc.2.top1Features ++
          turns.flatMap (collectedTop violationInvalid patterns till spec) := by
    intro turns
    induction turns with
    | nil =>
        intro acc _ _
        exact ⟨acc, rfl, by simp, by simp⟩
    | cons turn turns ih =>
        intro acc hturns hacc
        obtain ⟨acc', hstep, hacc', hgold, htop⟩ := computeLossStep_collects violationInvalid
          patterns rawGoldFeatures fullWeight till hfeatures acc hacc turn
          (hturns turn List.mem_cons_self)
        obtain ⟨acc'', hrest, hgold', htop'⟩ :=
          ih acc' (fun t ht => hturns t (List.mem_cons_of_mem turn ht)) hacc'
        refine ⟨acc'', ?_, ?_, ?_⟩
        · rw [List.foldlM_cons, hstep]
          exact hrest
        · rw [hgold', hgold, List.flatMap_cons, List.append_assoc]
        · rw [htop', htop, List.flatMap_cons, List.append_assoc]
  obtain ⟨acc, hacc, hgold, htop⟩ := hrun comparison.zipIdx
    (0, { loss with goldFeatures := [], top1Features := [] })
    (fun turn hturn => hsteps _ (List.fst_mem_of_mem_zipIdx hturn)) hbuffer
  unfold computeLoss
  simp only [hacc, Option.bind_eq_bind, Option.bind_some]
  exact ⟨_, _, rfl, hgold, htop⟩

end

end LossFeatures

/-! ## `computeFeatureDiff` -/

scoped instance linearOrderUInt32 : LinearOrder UInt32 where
  le_refl := UInt32.le_refl
  le_trans _ _ _ := UInt32.le_trans
  le_antisymm _ _ := UInt32.le_antisymm
  le_total := UInt32.le_total
  lt_iff_le_not_ge a b := by
    rw [UInt32.lt_iff_toNat_lt, UInt32.le_iff_toNat_le, UInt32.le_iff_toNat_le]
    omega
  toDecidableLE := inferInstance
  toDecidableEq := inferInstance

/-- A vector with a last element. -/
structure ScoredVector where
  front : List ScoredFeature
  back : ScoredFeature

namespace ScoredVector

def toList (scored : ScoredVector) : List ScoredFeature :=
  scored.front ++ [scored.back]

def push_back (scored : ScoredVector) (f : ScoredFeature) : ScoredVector where
  front := scored.toList
  back := f

def mergeOne (scored : ScoredVector) (target : UInt32) (score : Score) : ScoredVector :=
  let scored := if scored.back.feature ≠ target then scored.push_back ⟨target, 0⟩ else scored
  { scored with back := { scored.back with score := scored.back.score + score } }

end ScoredVector

namespace LossFeatures

def maskFeatures (mask : UInt32) (l : List UInt32) : List UInt32 :=
  l.map fun f => f &&& mask

/-- `util::sort`. -/
def sort (l : List UInt32) : List UInt32 :=
  l.mergeSort fun a b => a ≤ b

/-- The loop over both lists, from their positions on, up to the end of one of them. -/
def mergeLoop : List UInt32 → List UInt32 → ScoredVector → List UInt32 × List UInt32 × ScoredVector
  | goldEl :: goldRest, topEl :: topRest, scored =>
    if goldEl = topEl then mergeLoop goldRest topRest scored
    else if goldEl < topEl then mergeLoop goldRest (topEl :: topRest) (scored.mergeOne goldEl 1)
    else mergeLoop (goldEl :: goldRest) topRest (scored.mergeOne topEl (-1))
  | goldRest, topRest, scored => (goldRest, topRest, scored)
termination_by goldRest topRest => goldRest.length + topRest.length

/-- `computeFeatureDiff` up to the final weights. -/
def mergeFeatures (loss : LossFeatures) (mask : UInt32) : LossFeatures :=
  let top1Features := sort (maskFeatures mask loss.top1Features)
  let goldFeatures := sort (maskFeatures mask loss.goldFeatures)
  let (goldRest, topRest, scored) := mergeLoop goldFeatures top1Features ⟨[], ⟨0, 0⟩⟩
  let scored := topRest.foldl (fun scored f => scored.mergeOne f 1) scored
  let scored := goldRest.foldl (fun scored f => scored.mergeOne f (-1)) scored
  { loss with top1Features, goldFeatures, scored := scored.toList }

/-- The scores above zero, and the other ones without their sign. -/
def sideSums (scored : List ScoredFeature) : Score × Score :=
  scored.foldl (fun (sums : Score × Score) s =>
    if s.score > 0 then (sums.1 + s.score, sums.2) else (sums.1, sums.2 - s.score)) (0, 0)

/-- The end of `computeFeatureDiff`. -/
def reweight (scored : List ScoredFeature) : List ScoredFeature :=
  let (numGold, numTop) := sideSums scored
  let weight := if numTop ≠ 0 then numGold / numTop else 1
  let (weight, updateTop) :=
    if weight > 2 ∧ numGold ≠ 0 then (numTop / numGold, false) else (weight, true)
  if updateTop then
    scored.map fun s => if s.score < 0 then { s with score := s.score * weight } else s
  else
    scored.map fun s => if s.score > 0 then { s with score := s.score * weight } else s

def computeFeatureDiff (loss : LossFeatures) (mask : UInt32) : LossFeatures :=
  let loss := loss.mergeFeatures mask
  { loss with scored := reweight loss.scored }

end LossFeatures

/-! ## A vector of increasing features -/

def mergeAll (scored : ScoredVector) (events : List (UInt32 × Int)) : ScoredVector :=
  events.foldl (fun scored e => scored.mergeOne e.1 e.2) scored

/-- The entries of a feature. -/
def entries (f : UInt32) (scored : List ScoredFeature) : List ScoredFeature :=
  scored.filter fun s => s.feature = f

def entrySum (f : UInt32) (scored : List ScoredFeature) : Score :=
  ((entries f scored).map ScoredFeature.score).sum

def Increasing (scored : List ScoredFeature) : Prop :=
  scored.Pairwise fun a b => a.feature < b.feature

theorem entries_append (f : UInt32) (l r : List ScoredFeature) :
    entries f (l ++ r) = entries f l ++ entries f r :=
  List.filter_append ..

theorem entrySum_append (f : UInt32) (l r : List ScoredFeature) :
    entrySum f (l ++ r) = entrySum f l + entrySum f r := by
  simp [entrySum, entries_append]

theorem entrySum_singleton (f target : UInt32) (score : Score) :
    entrySum f [⟨target, score⟩] = if target = f then score else 0 := by
  by_cases h : target = f <;> simp [entrySum, entries, h]

/-- A feature of an increasing vector has one entry. -/
theorem entries_of_increasing {scored : List ScoredFeature} (h : Increasing scored) (f : UInt32) :
    entries f scored =
      if f ∈ scored.map ScoredFeature.feature then [⟨f, entrySum f scored⟩] else [] := by
  induction scored with
  | nil => rfl
  | cons s scored ih =>
      obtain ⟨hs, hscored⟩ := List.pairwise_cons.mp h
      have hrest := ih hscored
      by_cases hf : s.feature = f
      · have hnot : f ∉ scored.map ScoredFeature.feature := by
          rintro hmem
          obtain ⟨s', hs', rfl⟩ := List.mem_map.mp hmem
          exact (hs s' hs').ne hf
        rw [if_neg hnot] at hrest
        have hentries : entries f (s :: scored) = [s] := by
          rw [← List.singleton_append, entries_append, hrest]
          simp [entries, hf]
        rw [entrySum, hentries, if_pos (by simp [hf])]
        simp [← hf]
      · have hentries : entries f (s :: scored) = entries f scored := by
          rw [← List.singleton_append, entries_append]
          simp [entries, hf]
        rw [entrySum, hentries, ← entrySum, hrest]
        simp [Ne.symm hf]

namespace ScoredVector

theorem toList_mergeOne (scored : ScoredVector) (target : UInt32) (score : Score) :
    (scored.mergeOne target score).toList =
      if scored.back.feature = target then scored.front ++ [⟨target, scored.back.score + score⟩]
      else scored.toList ++ [⟨target, score⟩] := by
  unfold mergeOne toList
  by_cases h : scored.back.feature = target
  · simp [h]
  · simp [h, push_back, toList]

theorem mergeOne_back (scored : ScoredVector) (target : UInt32) (score : Score) :
    (scored.mergeOne target score).back.feature = target := by
  unfold mergeOne
  by_cases h : scored.back.feature = target
  · simp [h]
  · simp [h, push_back]

theorem mergeOne_entrySum (scored : ScoredVector) (target f : UInt32) (score : Score) :
    entrySum f (scored.mergeOne target score).toList =
      entrySum f scored.toList + if target = f then score else 0 := by
  rw [toList_mergeOne]
  split
  · next h =>
      subst h
      rw [toList, entrySum_append, entrySum_append, entrySum_singleton, entrySum_singleton]
      split <;> ring
  · rw [entrySum_append, entrySum_singleton]

theorem mergeOne_features (scored : ScoredVector) (target f : UInt32) (score : Score) :
    f ∈ (scored.mergeOne target score).toList.map ScoredFeature.feature ↔
      f ∈ scored.toList.map ScoredFeature.feature ∨ f = target := by
  rw [toList_mergeOne]
  split
  · next h =>
      subst h
      simp [toList]
  · simp

theorem mergeOne_increasing {scored : ScoredVector} (h : Increasing scored.toList)
    {target : UInt32} (hle : scored.back.feature ≤ target) (score : Score) :
    Increasing (scored.mergeOne target score).toList := by
  obtain ⟨hfront, -, hback⟩ := List.pairwise_append.mp h
  rw [toList_mergeOne]
  split
  · next heq =>
      refine List.pairwise_append.mpr ⟨hfront, List.pairwise_singleton .., fun a ha b hb => ?_⟩
      obtain rfl := List.mem_singleton.mp hb
      exact (hback a ha _ (List.mem_singleton_self _)).trans_eq heq
  · next hne =>
      refine List.pairwise_append.mpr ⟨h, List.pairwise_singleton .., fun a ha b hb => ?_⟩
      obtain rfl := List.mem_singleton.mp hb
      have hlt : scored.back.feature < target := lt_of_le_of_ne hle hne
      obtain ha | ha := List.mem_append.mp ha
      · exact (hback a ha _ (List.mem_singleton_self _)).trans hlt
      · rwa [List.mem_singleton.mp ha]

/-- Merging sorted events: one entry for each feature, and its score is the sum of its events. -/
theorem mergeAll_entries {scored : ScoredVector} {events : List (UInt32 × Int)}
    (h : Increasing scored.toList) (hevents : events.Pairwise fun d e => d.1 ≤ e.1)
    (hback : ∀ e ∈ events, scored.back.feature ≤ e.1) (f : UInt32) :
    entries f (mergeAll scored events).toList =
      if f ∈ scored.toList.map ScoredFeature.feature ∨ f ∈ events.map Prod.fst then
        [⟨f, entrySum f scored.toList + net f events⟩] else [] := by
  induction events generalizing scored with
  | nil => simp [mergeAll, entries_of_increasing h]
  | cons e events ih =>
      obtain ⟨he, hevents⟩ := List.pairwise_cons.mp hevents
      have hle := hback e List.mem_cons_self
      have hrest := ih (mergeOne_increasing h hle e.2) hevents
        (fun e' he' => (mergeOne_back ..).trans_le (he e' he'))
      change entries f (mergeAll (scored.mergeOne e.1 e.2) events).toList = _
      rw [hrest, mergeOne_entrySum]
      simp only [mergeOne_features, net_cons, List.map_cons, List.mem_cons, or_assoc]
      split
      · push_cast
        rw [add_assoc]
      · rfl

end ScoredVector

/-! ## The counts of the features -/

namespace LossFeatures

/-- How many more times the gold path has the masked feature. -/
def maskedExcess (loss : LossFeatures) (mask f : UInt32) : Int :=
  excess f (maskFeatures mask loss.goldFeatures) (maskFeatures mask loss.top1Features)

def sortedWalk (loss : LossFeatures) (mask : UInt32) : Walk UInt32 :=
  walk (sort (maskFeatures mask loss.goldFeatures)) (sort (maskFeatures mask loss.top1Features))

theorem sort_sorted (l : List UInt32) : (sort l).Pairwise (· ≤ ·) :=
  List.pairwise_mergeSort' (· ≤ ·) l

theorem sort_perm (l : List UInt32) : (sort l).Perm l :=
  List.mergeSort_perm l _

theorem excess_sort (f : UInt32) (l r : List UInt32) : excess f (sort l) (sort r) = excess f l r := by
  unfold excess
  rw [(sort_perm l).count_eq, (sort_perm r).count_eq]

theorem mergeLoop_eq (gold top : List UInt32) (scored : ScoredVector) :
    mergeLoop gold top scored =
      ((walk gold top).left, (walk gold top).right, mergeAll scored (walk gold top).alone) := by
  induction gold, top using walk_induction generalizing scored with
  | hleft ys => rw [mergeLoop, walk_nil_left] <;> simp [mergeAll]
  | hright xs => rw [mergeLoop, walk_nil_right] <;> simp [mergeAll]
  | hpair x xs ys ih => rw [mergeLoop, if_pos rfl, walk_pair, ih]
  | hlt x xs y ys h ih =>
      rw [mergeLoop, if_neg h.ne, if_pos h, walk_lt h, ih]
      simp [mergeAll]
  | hgt x xs y ys h ih =>
      rw [mergeLoop, if_neg h.ne', if_neg h.not_gt, walk_gt h, ih]
      simp [mergeAll]

/-- All calls of `mergeOne`: the loops over the tails add with the sign of the other side. -/
def events (w : Walk UInt32) : List (UInt32 × Int) :=
  w.alone ++ (w.right.map fun f => (f, 1)) ++ w.left.map fun f => (f, -1)

theorem mergeFeatures_scored (loss : LossFeatures) (mask : UInt32) :
    (loss.mergeFeatures mask).scored =
      (mergeAll ⟨[], ⟨0, 0⟩⟩ (events (loss.sortedWalk mask))).toList := by
  unfold mergeFeatures events sortedWalk
  simp only [mergeLoop_eq, mergeAll, List.foldl_append, List.foldl_map]
  norm_num

theorem events_sorted {xs ys : List UInt32} (hxs : xs.Pairwise (· ≤ ·))
    (hys : ys.Pairwise (· ≤ ·)) : (events (walk xs ys)).Pairwise fun d e => d.1 ≤ e.1 := by
  have hright := hys.sublist (walk_suffix xs ys).2.sublist
  have hleft := hxs.sublist (walk_suffix xs ys).1.sublist
  have halone := fun e he => walk_alone_lt hxs hys (e := e) he
  unfold events
  simp only [List.pairwise_append, List.pairwise_map, List.mem_append, List.mem_map]
  refine ⟨⟨walk_alone_sorted hxs hys, hright, ?_⟩, hleft, ?_⟩
  · rintro d hd e ⟨z, hz, rfl⟩
    exact (halone d hd z (Or.inr hz)).le
  · rintro d (hd | ⟨y, hy, rfl⟩) e ⟨z, hz, rfl⟩
    · exact (halone d hd z (Or.inl hz)).le
    · obtain hend | hend := walk_ends xs ys
      · rw [hend] at hz
        cases hz
      · rw [hend] at hy
        cases hy

theorem net_events (f : UInt32) (w : Walk UInt32) :
    net f (events w) = net f w.alone - excess f w.left w.right := by
  unfold events excess
  rw [net_append, net_append, net_map, net_map]
  ring

/-- The features with an entry of their own: those with an excess. -/
theorem mem_events_iff {xs ys : List UInt32} (hxs : xs.Pairwise (· ≤ ·))
    (hys : ys.Pairwise (· ≤ ·)) (f : UInt32) :
    f ∈ (events (walk xs ys)).map Prod.fst ↔ excess f xs ys ≠ 0 := by
  have hmem : f ∈ (events (walk xs ys)).map Prod.fst ↔
      (∃ e ∈ (walk xs ys).alone, e.1 = f) ∨ f ∈ (walk xs ys).right ∨ f ∈ (walk xs ys).left := by
    simp [events]
  rw [hmem]
  constructor
  · rintro (⟨e, he, rfl⟩ | hf | hf)
    · exact excess_ne_zero_of_alone hxs hys he
    · exact (excess_of_left hxs hys (Or.inr hf)).2.2
    · exact (excess_of_left hxs hys (Or.inl hf)).2.2
  · intro hne
    by_contra hnone
    simp only [not_or, not_exists, not_and] at hnone
    obtain ⟨halone, hright, hleft⟩ := hnone
    rw [← excess_of_not_left hleft hright] at hne
    exact hne (net_eq_zero halone)

/-- What `computeFeatureDiff` has before the final weights: the entry for the feature 0 that the
vector starts with, and one for each feature with an excess, with the wrong sign if the feature is
met in a tail. -/
theorem mergeFeatures_entries (loss : LossFeatures) (mask f : UInt32) :
    entries f (loss.mergeFeatures mask).scored =
      if loss.maskedExcess mask f = 0 ∧ f ≠ 0 then []
      else if f ∈ (loss.sortedWalk mask).left ∨ f ∈ (loss.sortedWalk mask).right then
        [⟨f, -loss.maskedExcess mask f⟩]
      else [⟨f, loss.maskedExcess mask f⟩] := by
  have hgold := sort_sorted (maskFeatures mask loss.goldFeatures)
  have htop := sort_sorted (maskFeatures mask loss.top1Features)
  have hentries := @ScoredVector.mergeAll_entries ⟨[], ⟨0, 0⟩⟩
    (events (loss.sortedWalk mask)) (List.pairwise_singleton ..)
    (events_sorted hgold htop) (fun e _ => UInt32.zero_le) f
  rw [mergeFeatures_scored, hentries]
  have hlisted : (f ∈ (ScoredVector.toList ⟨[], ⟨0, 0⟩⟩).map ScoredFeature.feature ∨
      f ∈ (events (loss.sortedWalk mask)).map Prod.fst) ↔
        ¬ (loss.maskedExcess mask f = 0 ∧ f ≠ 0) := by
    rw [sortedWalk, mem_events_iff hgold htop, excess_sort, ← maskedExcess]
    simp [ScoredVector.toList]
    tauto
  have hstart : entrySum f (ScoredVector.toList ⟨[], ⟨0, 0⟩⟩) = 0 := by
    rw [ScoredVector.toList, List.nil_append, entrySum_singleton, ite_self]
  simp only [hlisted, hstart, zero_add, net_events]
  rw [ite_not]
  refine if_congr Iff.rfl rfl ?_
  split
  · next hleft =>
      obtain ⟨hnet, hexcess, -⟩ := excess_of_left hgold htop hleft
      rw [sortedWalk, hnet, hexcess, excess_sort, maskedExcess]
      push_cast
      rw [zero_sub]
  · next hleft =>
      obtain ⟨hleft, hright⟩ := not_or.mp hleft
      have hnet := excess_of_not_left hleft hright
      have hrest := walk_excess f (sort (maskFeatures mask loss.goldFeatures))
        (sort (maskFeatures mask loss.top1Features))
      rw [sortedWalk] at *
      rw [hnet] at hrest ⊢
      rw [excess_sort] at hrest ⊢
      rw [maskedExcess]
      congr 3
      omega

/-! ## The final weights -/

def goldSum (scored : List ScoredFeature) : Score :=
  (scored.map fun s => if 0 < s.score then s.score else 0).sum

def topSum (scored : List ScoredFeature) : Score :=
  (scored.map fun s => if s.score < 0 then s.score else 0).sum

theorem sideSums_eq (scored : List ScoredFeature) :
    sideSums scored = (goldSum scored, -topSum scored) := by
  have hfold : ∀ (scored : List ScoredFeature) (sums : Score × Score),
      scored.foldl (fun (sums : Score × Score) s =>
        if s.score > 0 then (sums.1 + s.score, sums.2) else (sums.1, sums.2 - s.score)) sums =
      (sums.1 + goldSum scored, sums.2 - topSum scored) := by
    intro scored
    induction scored with
    | nil => simp [goldSum, topSum]
    | cons s scored ih =>
        intro sums
        rw [List.foldl_cons, ih]
        simp only [goldSum, topSum, List.map_cons, List.sum_cons]
        obtain hneg | hzero | hpos := lt_trichotomy s.score 0
        · simp [hneg, hneg.not_gt]
          ring
        · simp [hzero]
        · simp [hpos, hpos.not_gt]
          ring
  rw [sideSums, hfold, zero_add, zero_sub]

theorem goldSum_nonneg (scored : List ScoredFeature) : 0 ≤ goldSum scored := by
  apply List.sum_nonneg
  intro x hx
  obtain ⟨s, -, rfl⟩ := List.mem_map.mp hx
  split
  · next h => exact h.le
  · exact le_refl 0

theorem topSum_nonpos (scored : List ScoredFeature) : topSum scored ≤ 0 := by
  induction scored with
  | nil => exact le_refl 0
  | cons s scored ih =>
      unfold topSum at *
      rw [List.map_cons, List.sum_cons]
      split <;> linarith

def scaleTop (weight : Score) (s : ScoredFeature) : ScoredFeature :=
  if s.score < 0 then { s with score := s.score * weight } else s

def scaleGold (weight : Score) (s : ScoredFeature) : ScoredFeature :=
  if s.score > 0 then { s with score := s.score * weight } else s

theorem sums_scaleTop {weight : Score} (hweight : 0 < weight) (scored : List ScoredFeature) :
    goldSum (scored.map (scaleTop weight)) = goldSum scored ∧
      topSum (scored.map (scaleTop weight)) = topSum scored * weight := by
  unfold goldSum topSum
  rw [← List.sum_map_mul_right, List.map_map, List.map_map]
  constructor
  · congr 1
    apply List.map_congr_left
    intro s _
    by_cases hneg : s.score < 0
    · simp [scaleTop, hneg, hneg.not_gt, (mul_neg_of_neg_of_pos hneg hweight).not_gt]
    · simp [scaleTop, hneg]
  · congr 1
    apply List.map_congr_left
    intro s _
    by_cases hneg : s.score < 0
    · simp [scaleTop, hneg, mul_neg_of_neg_of_pos hneg hweight]
    · simp [scaleTop, hneg]

theorem sums_scaleGold {weight : Score} (hweight : 0 < weight) (scored : List ScoredFeature) :
    goldSum (scored.map (scaleGold weight)) = goldSum scored * weight ∧
      topSum (scored.map (scaleGold weight)) = topSum scored := by
  unfold goldSum topSum
  rw [← List.sum_map_mul_right, List.map_map, List.map_map]
  constructor
  · congr 1
    apply List.map_congr_left
    intro s _
    by_cases hpos : 0 < s.score
    · simp [scaleGold, hpos, mul_pos hpos hweight]
    · simp [scaleGold, hpos]
  · congr 1
    apply List.map_congr_left
    intro s _
    by_cases hpos : 0 < s.score
    · simp [scaleGold, hpos, hpos.not_gt, (mul_pos hpos hweight).not_gt]
    · simp [scaleGold, hpos]

/-- With something on both sides the weights make them equal. -/
theorem reweight_balances {scored : List ScoredFeature} (hgold : 0 < goldSum scored)
    (htop : topSum scored < 0) : goldSum (reweight scored) = -topSum (reweight scored) := by
  have hne : -topSum scored ≠ 0 := (neg_pos.mpr htop).ne'
  have hweight : 0 < goldSum scored / -topSum scored := div_pos hgold (neg_pos.mpr htop)
  have hinverse : 0 < -topSum scored / goldSum scored := div_pos (neg_pos.mpr htop) hgold
  unfold reweight
  simp only [sideSums_eq, hne, ne_eq, not_false_eq_true, ↓reduceIte, hgold.ne', and_true]
  split
  · obtain ⟨hgold', htop'⟩ := sums_scaleGold hinverse scored
    change goldSum (scored.map (scaleGold _)) = -topSum (scored.map (scaleGold _))
    rw [hgold', htop', mul_div_cancel₀ _ hgold.ne']
  · obtain ⟨hgold', htop'⟩ := sums_scaleTop hweight scored
    change goldSum (scored.map (scaleTop _)) = -topSum (scored.map (scaleTop _))
    rw [hgold', htop', ← neg_mul, mul_div_cancel₀ _ hne]

theorem goldSum_pos {scored : List ScoredFeature} {s : ScoredFeature} (hs : s ∈ scored)
    (hpos : 0 < s.score) : 0 < goldSum scored := by
  obtain ⟨front, back, rfl⟩ := List.append_of_mem hs
  have hfront := goldSum_nonneg front
  have hback := goldSum_nonneg back
  unfold goldSum at *
  simp only [List.map_append, List.map_cons, List.sum_append, List.sum_cons, if_pos hpos]
  linarith

theorem topSum_neg {scored : List ScoredFeature} {s : ScoredFeature} (hs : s ∈ scored)
    (hneg : s.score < 0) : topSum scored < 0 := by
  obtain ⟨front, back, rfl⟩ := List.append_of_mem hs
  have hfront := topSum_nonpos front
  have hback := topSum_nonpos back
  unfold topSum at *
  simp only [List.map_append, List.map_cons, List.sum_append, List.sum_cons, if_pos hneg]
  linarith

/-! ## Gold minus top -/

/-- Each feature stands once with its excess, if it has one.  The entry for the feature 0, with
which the vector starts, stands in any case. -/
def Counted (loss : LossFeatures) (mask : UInt32) : Prop :=
  ∀ f, entries f (loss.mergeFeatures mask).scored =
    if loss.maskedExcess mask f = 0 ∧ f ≠ 0 then [] else [⟨f, loss.maskedExcess mask f⟩]

/-- Also the feature 0 stands only with an excess. -/
def StrictlyCounted (loss : LossFeatures) (mask : UInt32) : Prop :=
  ∀ f, entries f (loss.mergeFeatures mask).scored =
    if loss.maskedExcess mask f = 0 then [] else [⟨f, loss.maskedExcess mask f⟩]

def Balanced (loss : LossFeatures) (mask : UInt32) : Prop :=
  (∃ f, 0 < loss.maskedExcess mask f) → (∃ f, loss.maskedExcess mask f < 0) →
    |goldSum (loss.computeFeatureDiff mask).scored| = |topSum (loss.computeFeatureDiff mask).scored|

/-- The largest masked feature occurs equally often on both sides. -/
def EndTogether (loss : LossFeatures) (mask : UInt32) : Prop :=
  ∀ m ∈ maskFeatures mask loss.goldFeatures ++ maskFeatures mask loss.top1Features,
    (∀ f ∈ maskFeatures mask loss.goldFeatures ++ maskFeatures mask loss.top1Features, f ≤ m) →
      (maskFeatures mask loss.goldFeatures).count m = (maskFeatures mask loss.top1Features).count m

theorem endTogether_iff (loss : LossFeatures) (mask : UInt32) :
    loss.EndTogether mask ↔
      (loss.sortedWalk mask).left = [] ∧ (loss.sortedWalk mask).right = [] := by
  rw [sortedWalk, walk_ends_together_iff (sort_sorted _) (sort_sorted _)]
  simp only [EndTogether, List.mem_append, (sort_perm _).mem_iff, (sort_perm _).count_eq]

theorem counted_iff (loss : LossFeatures) (mask : UInt32) :
    loss.Counted mask ↔ loss.EndTogether mask := by
  rw [endTogether_iff]
  unfold Counted
  simp only [mergeFeatures_entries]
  constructor
  · intro h
    have hno : ∀ f, ¬ (f ∈ (loss.sortedWalk mask).left ∨ f ∈ (loss.sortedWalk mask).right) := by
      intro f hf
      have hne : loss.maskedExcess mask f ≠ 0 := by
        have hexcess := (excess_of_left (sort_sorted _) (sort_sorted _) hf).2.2
        rwa [excess_sort] at hexcess
      have hentry := h f
      rw [if_neg (fun hzero => hne hzero.1), if_pos hf, if_neg (fun hzero => hne hzero.1)] at hentry
      simp only [List.cons.injEq, ScoredFeature.mk.injEq, true_and, and_true] at hentry
      have hneg : -loss.maskedExcess mask f = loss.maskedExcess mask f := by exact_mod_cast hentry
      omega
    constructor
    · exact List.eq_nil_iff_forall_not_mem.mpr fun f hf => hno f (Or.inl hf)
    · exact List.eq_nil_iff_forall_not_mem.mpr fun f hf => hno f (Or.inr hf)
  · rintro ⟨hleft, hright⟩ f
    simp [hleft, hright]

theorem balanced_of_counted {loss : LossFeatures} {mask : UInt32} (h : loss.Counted mask) :
    loss.Balanced mask := by
  have hentry : ∀ f, loss.maskedExcess mask f ≠ 0 →
      (⟨f, loss.maskedExcess mask f⟩ : ScoredFeature) ∈ (loss.mergeFeatures mask).scored := by
    intro f hne
    have hf := h f
    rw [if_neg (fun hzero => hne hzero.1)] at hf
    exact List.mem_of_mem_filter (hf.symm ▸ List.mem_singleton_self _)
  rintro ⟨f, hf⟩ ⟨g, hg⟩
  have hgold := goldSum_pos (hentry f hf.ne') (Int.cast_pos.mpr hf)
  have htop := topSum_neg (hentry g hg.ne) (Int.cast_lt_zero.mpr hg)
  change |goldSum (reweight _)| = |topSum (reweight _)|
  rw [reweight_balances hgold htop, abs_neg]

/-- The counts are gold minus top, and the sides are balanced, exactly when no list has a tail. -/
theorem computeFeatureDiff_correct_iff (loss : LossFeatures) (mask : UInt32) :
    (loss.Counted mask ∧ loss.Balanced mask ↔ loss.EndTogether mask) ∧
      (loss.StrictlyCounted mask ∧ loss.Balanced mask ↔
        loss.EndTogether mask ∧ loss.maskedExcess mask 0 ≠ 0) := by
  have hcounted : loss.Counted mask ∧ loss.Balanced mask ↔ loss.EndTogether mask := by
    rw [← counted_iff]
    exact and_iff_left_of_imp balanced_of_counted
  have hstrict : loss.StrictlyCounted mask ↔
      loss.Counted mask ∧ loss.maskedExcess mask 0 ≠ 0 := by
    constructor
    · intro h
      have hne : loss.maskedExcess mask 0 ≠ 0 := by
        intro hzero
        have hnone := h 0
        rw [if_pos hzero, mergeFeatures_entries] at hnone
        simp only [ne_eq, not_true_eq_false, and_false, ↓reduceIte] at hnone
        split at hnone <;> cases hnone
      refine ⟨fun f => ?_, hne⟩
      rw [h f]
      by_cases hf : f = 0
      · simp [hf, hne]
      · simp [hf]
    · rintro ⟨h, hne⟩ f
      rw [h f]
      by_cases hf : f = 0
      · simp [hf, hne]
      · simp [hf]
  refine ⟨hcounted, ?_⟩
  rw [hstrict, and_right_comm, hcounted]

/-- A gold feature that sorts before the last top feature: the top feature is rewarded too. -/
theorem computeFeatureDiff_rewards_top :
    ¬ ∀ (loss : LossFeatures) (mask : UInt32), loss.Counted mask ∧ loss.Balanced mask := by
  intro h
  obtain ⟨hcounted, -⟩ := h { goldFeatures := [5], top1Features := [7], featureBuffer := [] } 0xff
  have hseven := hcounted 7
  exact absurd hseven (by decide +kernel)

end LossFeatures

end Jumanpp.Core.Training
