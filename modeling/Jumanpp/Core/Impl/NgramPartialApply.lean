import Jumanpp.Core.Analysis.ScoreProcessor
import Jumanpp.Core.Impl.NgramFeatures

/-!
# Scoring n-grams row by row

The weights of a row are summed up while the features of the next row are computed, so the loops
fill one of two value buffers, read the other one and swap them.
-/

namespace Jumanpp.Core.Features

open Jumanpp.Lib Jumanpp.Core.Analysis

/-- The weights of a loaded perceptron; `load` checks the size. -/
structure WeightBuffer where
  data : List Score
  sizeExponent : Nat
  size_eq : data.length = 2 ^ sizeExponent

namespace WeightBuffer

variable (weights : WeightBuffer)

def size : Nat :=
  weights.data.length

/-- `static_cast<u32>(weights.size() - 1)`. -/
def mask : UInt32 :=
  .ofNat (weights.size - 1)

def value (i : UInt32) : Score :=
  weights.data.getD i.toNat 0

end WeightBuffer

def WeightBuffer.at (weights : WeightBuffer) (i : UInt32) : Option Score :=
  weights.data[i.toNat]?

/-! ## The perceptron -/

/-- Four sums side by side; the last up to three values are added by the cases of a switch that
fall through. -/
def computeUnrolled4 (weightAt : UInt32 → Option Score) :
    List UInt32 → Score → Score → Score → Score → Option Score
  | i0 :: i1 :: i2 :: i3 :: indices, r1, r2, r3, r4 => do
      let w0 ← weightAt i0
      let w1 ← weightAt i1
      let w2 ← weightAt i2
      let w3 ← weightAt i3
      computeUnrolled4 weightAt indices (r1 + w0) (r2 + w1) (r3 + w2) (r4 + w3)
  | [i0, i1, i2], r1, r2, r3, r4 => do
      let w2 ← weightAt i2
      let w1 ← weightAt i1
      let w0 ← weightAt i0
      pure ((r1 + w0) + (r2 + w1) + (r3 + w2) + r4)
  | [i0, i1], r1, r2, r3, r4 => do
      let w1 ← weightAt i1
      let w0 ← weightAt i0
      pure ((r1 + w0) + (r2 + w1) + r3 + r4)
  | [i0], r1, r2, r3, r4 => do
      let w0 ← weightAt i0
      pure ((r1 + w0) + r2 + r3 + r4)
  | [], r1, r2, r3, r4 => some (r1 + r2 + r3 + r4)

def computeUnrolled4Perceptron (weights : WeightBuffer) (indices : List UInt32) (mask : UInt32) :
    Option Score :=
  computeUnrolled4 (fun i => weights.at (i &&& mask)) indices 0 0 0 0

def computeUnrolled4RawPerceptron (weights : WeightBuffer) (indices : List UInt32) :
    Option Score :=
  computeUnrolled4 weights.at indices 0 0 0 0

/-! ## Buffers -/

/-- The two value buffers: `false` is `valueBuffer1`, `true` is `valueBuffer2`. -/
abbrev ValueBuffers := Bool → List UInt32

/-- The rows of `t1Buffer`, `t2Buffer1` and `t2Buffer2` are kept apart: all views of a buffer have
the same row size. -/
structure FeatureBuffer where
  currentElems : Nat
  t1Buffer : List (List UInt64)
  t2Buffer1 : List (List UInt64)
  t2Buffer2 : List (List UInt64)
  valueBuffer : ValueBuffers
  scoreBuffer : List Score

/-- Fills the rows of a state buffer one after another. -/
def fillStates (step : Nat → List UInt64 → Option (List UInt64)) (numElems : Nat)
    (buffer : List (List UInt64)) : Option (List (List UInt64)) :=
  forRange (fun row buffer => do
    let state ← readAt buffer row
    let state ← step row state
    writeAt buffer row state) 0 numElems buffer

/-- The two value buffers, the one that `buf1` names (`buf2` names the other one), and the result. -/
abbrev RowState := ValueBuffers × Bool × List Score

/-- A turn fills `buf1` with the values of its row, swaps the buffers and publishes the row before;
`publish` is `=` or `+=`. -/
def scoreTurn (weights : WeightBuffer) (numFeatures : Nat)
    (step : Nat → List UInt32 → Option (List UInt32)) (publish : Score → Score → Score)
    (row : Nat) : RowState → Option RowState
  | (values, swapped, result) => do
      let buf1 ← step row (values swapped)
      let values := Function.update values swapped buf1
      let swapped := !swapped
      let score ← computeUnrolled4RawPerceptron weights ((values swapped).take numFeatures)
      let result ← updateAt result ((row : Int) - 1) (publish score)
      pure (values, swapped, result)

/-- The last row, still in `buf2`, is published behind the loop. -/
def finishRows (weights : WeightBuffer) (numFeatures numRows : Nat)
    (publish : Score → Score → Score) : RowState → Option (ValueBuffers × List Score)
  | (values, swapped, result) => do
      let score ← computeUnrolled4RawPerceptron weights ((values (!swapped)).take numFeatures)
      let result ← updateAt result ((numRows : Int) - 1) (publish score)
      pure (values, result)

def scoreRows (weights : WeightBuffer) (numFeatures numRows : Nat)
    (step : Nat → List UInt32 → Option (List UInt32)) (publish : Score → Score → Score)
    (values : ValueBuffers) (result : List Score) : Option (ValueBuffers × List Score) := do
  let buf2 ← step 0 (values true)
  let values := Function.update values true buf2
  let state ← forRange (scoreTurn weights numFeatures step publish) 1 (numRows - 1)
    (values, false, result)
  finishRows weights numFeatures numRows publish state

namespace PartialNgramFeatures

variable (child : PartialNgramFeatures)

def uniStep0 (patterns : PatternRow) (mask : UInt32) (result : List UInt32) :
    Option (List UInt32) :=
  child.unigrams.foldlM (fun result uni => uni.step0 patterns result mask) result

def biStep0 (patterns : PatternRow) (state : List UInt64) : Option (List UInt64) :=
  child.bigrams.foldlM (fun state bi => bi.step0 patterns state) state

def biStep1 (patterns : PatternRow) (state : List UInt64) (mask : UInt32)
    (result : List UInt32) : Option (List UInt32) :=
  child.bigrams.foldlM (fun result bi => bi.step1 patterns state result mask) result

def triStep0 (patterns : PatternRow) (state : List UInt64) : Option (List UInt64) :=
  child.trigrams.foldlM (fun state tri => tri.step0 patterns state) state

def triStep1 (patterns : PatternRow) (state result : List UInt64) : Option (List UInt64) :=
  child.trigrams.foldlM (fun result tri => tri.step1 patterns state result) result

def triStep2 (patterns : PatternRow) (state : List UInt64) (mask : UInt32)
    (result : List UInt32) : Option (List UInt32) :=
  child.trigrams.foldlM (fun result tri => tri.step2 patterns state result mask) result

def biFull (t0 t1 : PatternRow) (mask : UInt32) (result : List UInt32) : Option (List UInt32) :=
  child.bigrams.foldlM (fun result bi => bi.jointApply t0 t1 result mask) result

def triFull (t0 t1 t2 : PatternRow) (mask : UInt32) (result : List UInt32) :
    Option (List UInt32) :=
  child.trigrams.foldlM (fun result tri => tri.jointApply t0 t1 t2 result mask) result

/-! ## In steps -/

def applyUni (buffers : FeatureBuffer) (p0 : List PatternRow) (weights : WeightBuffer)
    (result : List Score) : Option (FeatureBuffer × List Score) :=
  if p0.length = 0 then some (buffers, result)
  else do
    let (values, result) ← scoreRows weights child.numUnigrams p0.length (fun row buf => do
      let patterns ← p0[row]?
      child.uniStep0 patterns weights.mask buf) (fun score _ => score) buffers.valueBuffer result
    pure ({ buffers with valueBuffer := values }, result)

def applyBiStep1 (buffers : FeatureBuffer) (p0 : List PatternRow) : Option FeatureBuffer := do
  let result ← fillStates (fun row state => do
    let patterns ← p0[row]?
    child.biStep0 patterns state) p0.length buffers.t1Buffer
  pure { buffers with t1Buffer := result, currentElems := p0.length }

def applyBiStep2 (buffers : FeatureBuffer) (p1 : PatternRow) (weights : WeightBuffer)
    (result : List Score) : Option (FeatureBuffer × List Score) :=
  if buffers.currentElems = 0 then some (buffers, result)
  else do
    let (values, result) ← scoreRows weights child.numBigrams buffers.currentElems
      (fun row buf => do
        let srow ← readAt buffers.t1Buffer row
        child.biStep1 p1 srow weights.mask buf) (fun score x => x + score)
      buffers.valueBuffer result
    pure ({ buffers with valueBuffer := values }, result)

def applyTriStep1 (buffers : FeatureBuffer) (p0 : List PatternRow) : Option FeatureBuffer :=
  if p0.length ≠ buffers.currentElems then none
  else do
    let result ← fillStates (fun row state => do
      let patterns ← p0[row]?
      child.triStep0 patterns state) p0.length buffers.t2Buffer1
    pure { buffers with t2Buffer1 := result, currentElems := p0.length }

def applyTriStep2 (buffers : FeatureBuffer) (p1 : PatternRow) : Option FeatureBuffer := do
  let result ← fillStates (fun row res => do
    let st ← readAt buffers.t2Buffer1 row
    child.triStep1 p1 st res) buffers.currentElems buffers.t2Buffer2
  pure { buffers with t2Buffer2 := result }

def applyTriStep3 (buffers : FeatureBuffer) (p2 : PatternRow) (weights : WeightBuffer)
    (result : List Score) : Option (FeatureBuffer × List Score) :=
  if buffers.currentElems = 0 then some (buffers, result)
  else do
    let (values, result) ← scoreRows weights child.numTrigrams buffers.currentElems
      (fun row buf => do
        let srow ← readAt buffers.t2Buffer2 row
        child.triStep2 p2 srow weights.mask buf) (fun score x => x + score)
      buffers.valueBuffer result
    pure ({ buffers with valueBuffer := values }, result)

/-! ## Against a list of predecessors -/

def applyBiTri (buffers : FeatureBuffer) (t0 : PatternRow) (t1 t2 : List PatternRow)
    (t1idxes : List Nat) (weights : WeightBuffer) (result : List Score) :
    Option (FeatureBuffer × List Score) :=
  if t1idxes.length ≠ t2.length then none
  else if t2.length = 0 then some (buffers, result)
  else do
    let (values, scbuf) ← scoreRows weights child.numBigrams t1.length (fun row buf => do
      let t1v ← t1[row]?
      child.biFull t0 t1v weights.mask buf) (fun score _ => score) buffers.valueBuffer
      buffers.scoreBuffer
    let result ← forRange (fun i result => do
      let t1idx ← t1idxes[i]?
      let score ← readAt scbuf t1idx
      writeAt result i score) 0 t1idxes.length result
    let (values, result) ← scoreRows weights child.numTrigrams t2.length (fun row buf => do
      let t1idx ← t1idxes[row]?
      let t1v ← t1[t1idx]?
      let t2v ← t2[row]?
      child.triFull t0 t1v t2v weights.mask buf) (fun score x => x + score) values result
    pure ({ buffers with valueBuffer := values, scoreBuffer := scbuf }, result)

end PartialNgramFeatures

end Jumanpp.Core.Features
