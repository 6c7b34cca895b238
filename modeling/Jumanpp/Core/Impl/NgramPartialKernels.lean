import Jumanpp.Core.Impl.NgramPartialApply

/-!
# The loops of generated code

The printer unrolls the loops over the features, so that the sum over one value buffer and the
filling of the other one alternate.  Against a list of predecessors the generated class calls a
kernel that passes from bigrams to trigrams without emptying the buffers.
-/

namespace Jumanpp.Core.Features

open Jumanpp.Lib Jumanpp.Core.Analysis

/-- The number of variables over which a sum is spread. -/
def numVars (size : Nat) : Nat :=
  if 8 ≤ size then 8 else if 4 ≤ size then 4 else if 2 ≤ size then 2 else 1

/-- The features of one row: each adds the weight of its value in the row before to a variable. -/
def unrolledRow (weights : WeightBuffer) (numFeatures : Nat)
    (step : Nat → List UInt32 → Option (List UInt32)) (buf1 buf2 : List UInt32) :
    Option (List UInt32 × List Score) :=
  forRange (fun i (buf1, f) => do
    let w ← (readAt buf2 i).bind weights.at
    let buf1 ← step i buf1
    pure (buf1, f.modify (i % numVars numFeatures) (· + w)))
    0 numFeatures (buf1, List.replicate (numVars numFeatures) 0)

def unrolledTurn (weights : WeightBuffer) (numFeatures : Nat)
    (step : Nat → Nat → List UInt32 → Option (List UInt32)) (row : Nat) :
    RowState → Option RowState
  | (values, swapped, result) => do
      let (buf1, f) ←
        unrolledRow weights numFeatures (step row) (values swapped) (values (!swapped))
      let result ← updateAt result ((row : Int) - 1) (· + f.sum)
      pure (Function.update values swapped buf1, !swapped, result)

/-- The loop printed by `outputBiApply2` and `outputTriApply3`. -/
def scoreRowsUnrolled (weights : WeightBuffer) (numFeatures numRows : Nat)
    (row0 : List UInt32 → Option (List UInt32))
    (step : Nat → Nat → List UInt32 → Option (List UInt32)) (values : ValueBuffers)
    (result : List Score) : Option (ValueBuffers × List Score) := do
  let buf2 ← row0 (values true)
  let values := Function.update values true buf2
  let state ← forRange (unrolledTurn weights numFeatures step) 1 (numRows - 1)
    (values, false, result)
  finishRows weights numFeatures numRows (fun score x => x + score) state

/-! ## The kernel -/

/-- One feature of the current row, and the weight of the same feature of the row before. -/
def kernelSlot (weights : WeightBuffer) (value : Nat → Option UInt32) (buf2 : List UInt32)
    (f : Nat) (buf1 : List UInt32) (r : Score) : Option (List UInt32 × Score) := do
  let v ← value f
  let buf1 ← writeAt buf1 f v
  let w ← (readAt buf2 f).bind weights.at
  pure (buf1, r + w)

/-- Two features at a time, and the odd one at the end. -/
def kernelRow (weights : WeightBuffer) (value : Nat → Option UInt32) (numFeat : Nat)
    (buf1 buf2 : List UInt32) : Option (List UInt32 × Score × Score) := do
  let (buf1, r1, r2) ← forRange (fun pair (buf1, r1, r2) => do
    let feat := 2 * pair
    let (buf1, r1) ← kernelSlot weights value buf2 feat buf1 r1
    let (buf1, r2) ← kernelSlot weights value buf2 (feat + 1) buf1 r2
    pure (buf1, r1, r2)) 0 (numFeat / 2) (buf1, 0, 0)
  if numFeat % 2 = 1 then
    let (buf1, r1) ← kernelSlot weights value buf2 (2 * (numFeat / 2)) buf1 r1
    pure (buf1, r1, r2)
  else pure (buf1, r1, r2)

def kernelBiValue (weights : WeightBuffer) (biState : List UInt64) (t1featuresBi : List Nat)
    (t1row : PatternRow) (f : Nat) : Option UInt32 := do
  let t1feature ← readAt t1featuresBi f
  let state ← readAt biState f
  pure (((FastHashRot.mk state).mix (t1row.at t1feature)).masked weights.mask)

def kernelTriValue (weights : WeightBuffer) (triState : List UInt64)
    (t1FeaturesTri t2FeaturesTri : List Nat) (t1row t2row : PatternRow) (f : Nat) :
    Option UInt32 := do
  let t1feature ← readAt t1FeaturesTri f
  let t2feature ← readAt t2FeaturesTri f
  let state ← readAt triState f
  pure ((((FastHashRot.mk state).mix (t1row.at t1feature)).mix (t2row.at t2feature)).masked
    weights.mask)

/-- A bigram row; the score of the row before goes to the score buffer. -/
def kernelBiTurn (weights : WeightBuffer) (biState : List UInt64) (t1pats : List PatternRow)
    (t1featuresBi : List Nat) (biRow : Nat) : RowState → Option RowState
  | (values, swapped, scoreBuffer) => do
      let swapped := !swapped
      let t1row ← t1pats[biRow]?
      let (buf1, r1, r2) ← kernelRow weights (kernelBiValue weights biState t1featuresBi t1row)
        t1featuresBi.length (values swapped) (values (!swapped))
      let scoreBuffer ←
        if 0 < biRow then writeAt scoreBuffer ((biRow : Int) - 1) (r1 + r2)
        else pure scoreBuffer
      pure (Function.update values swapped buf1, swapped, scoreBuffer)

/-- The state of the trigram rows: `tribuf1` names the given value buffer. -/
abbrev TriRowState := ValueBuffers × Bool × List Score × List Score

/-- A trigram row.  `buf1` still names the value buffer `swapped` of the last bigram row, whose
score is taken in the first turn; `tribuf1` and `tribuf2` are names of the same memory. -/
def kernelTriTurn (weights : WeightBuffer) (triState : List UInt64)
    (t1pats t2pats : List PatternRow) (t1idxes t1FeaturesTri t2FeaturesTri : List Nat)
    (numBiFeat : Nat) (swapped : Bool) (triRow : Nat) : TriRowState → Option TriRowState
  | (values, triSwapped, scoreBuffer, result) => do
      let triSwapped := !triSwapped
      let t2row ← t2pats[triRow]?
      let t1row ← (t1idxes[triRow]?).bind fun t1idx => t1pats[t1idx]?
      let (tribuf1, r1, r2) ← kernelRow weights
        (kernelTriValue weights triState t1FeaturesTri t2FeaturesTri t1row t2row)
        t2FeaturesTri.length (values triSwapped) (values (!triSwapped))
      let values := Function.update values triSwapped tribuf1
      if 0 < triRow then
        let t1idx ← readAt t1idxes ((triRow : Int) - 1)
        let score ← readAt scoreBuffer t1idx
        let result ← writeAt result ((triRow : Int) - 1) (score + r1 + r2)
        pure (values, triSwapped, scoreBuffer, result)
      else
        let score ← computeUnrolled4RawPerceptron weights ((values swapped).take numBiFeat)
        let scoreBuffer ← writeAt scoreBuffer ((t1pats.length : Int) - 1) score
        pure (values, triSwapped, scoreBuffer, result)

def applyBiTriFullKernel (biState triState : List UInt64) (t1pats t2pats : List PatternRow)
    (t1idxes t1featuresBi t1FeaturesTri t2FeaturesTri : List Nat) (values : ValueBuffers)
    (weights : WeightBuffer) (scoreBuffer result : List Score) :
    Option (ValueBuffers × List Score × List Score) := do
  let (values, swapped, scoreBuffer) ←
    forRange (kernelBiTurn weights biState t1pats t1featuresBi) 0 t1pats.length
      (values, false, scoreBuffer)
  let (values, triSwapped, scoreBuffer, result) ←
    forRange (kernelTriTurn weights triState t1pats t2pats t1idxes t1FeaturesTri t2FeaturesTri
      t1featuresBi.length swapped) 0 t2pats.length (values, swapped, scoreBuffer, result)
  let t1idx ← readAt t1idxes ((t2pats.length : Int) - 1)
  let score ← readAt scoreBuffer t1idx
  let last ← computeUnrolled4RawPerceptron weights
    ((values triSwapped).take t2FeaturesTri.length)
  let result ← writeAt result ((t2pats.length : Int) - 1) (score + last)
  pure (values, scoreBuffer, result)

/-! ## The generated class -/

namespace NgramFeatureDescriptor

/-- `target_` of `NgramFeatureCodegen`. -/
def codegenTarget (nf : NgramFeatureDescriptor) (ngram : List NgramFeatureDescriptor) : Nat :=
  ((ngram.takeWhile fun other => other.index != nf.index).filter fun other =>
    other.references.length == nf.references.length).length

end NgramFeatureDescriptor

namespace PartialNgramPrinter

/-- The objects printed by `makePartialObject`. -/
def emplace (ngram : List NgramFeatureDescriptor) (printer : PartialNgramFeatures)
    (nf : NgramFeatureDescriptor) : Except String PartialNgramFeatures :=
  match nf.references with
  | [t0] =>
      .ok { printer with
        unigrams := printer.unigrams ++ [⟨nf.codegenTarget ngram, nf.index, t0⟩] }
  | [t0, t1] =>
      .ok { printer with
        bigrams := printer.bigrams ++ [⟨nf.codegenTarget ngram, nf.index, t0, t1⟩] }
  | [t0, t1, t2] =>
      .ok { printer with
        trigrams := printer.trigrams ++ [⟨nf.codegenTarget ngram, nf.index, t0, t1, t2⟩] }
  | _ => .error "ngram size was not 1,2,3"

def make (spec : NgramSpec) : Except String PartialNgramFeatures :=
  spec.ngram.foldlM (emplace spec.ngram) .empty

variable (child : PartialNgramFeatures)

def applyBiStep2 (buffers : FeatureBuffer) (p1 : PatternRow) (weights : WeightBuffer)
    (result : List Score) : Option (FeatureBuffer × List Score) :=
  if buffers.currentElems = 0 then some (buffers, result)
  else do
    let (values, result) ← scoreRowsUnrolled weights child.numBigrams buffers.currentElems
      (fun buf => do
        let srow ← readAt buffers.t1Buffer (0 : Nat)
        child.biStep1 p1 srow weights.mask buf)
      (fun row i buf => do
        let srow ← readAt buffers.t1Buffer row
        let bi ← child.bigrams[i]?
        bi.step1 p1 srow buf weights.mask)
      buffers.valueBuffer result
    pure ({ buffers with valueBuffer := values }, result)

def applyTriStep3 (buffers : FeatureBuffer) (p2 : PatternRow) (weights : WeightBuffer)
    (result : List Score) : Option (FeatureBuffer × List Score) :=
  if buffers.currentElems = 0 then some (buffers, result)
  else do
    let (values, result) ← scoreRowsUnrolled weights child.numTrigrams buffers.currentElems
      (fun buf => do
        let srow ← readAt buffers.t2Buffer2 (0 : Nat)
        child.triStep2 p2 srow weights.mask buf)
      (fun row i buf => do
        let srow ← readAt buffers.t2Buffer2 row
        let tri ← child.trigrams[i]?
        tri.step2 p2 srow buf weights.mask)
      buffers.valueBuffer result
    pure ({ buffers with valueBuffer := values }, result)

/-- `outputApplyBiTriLoop`; the states of the node `t0idx` have been stored by the first steps. -/
def applyBiTri (buffers : FeatureBuffer) (t0idx : Nat) (t1 t2 : List PatternRow)
    (t1idxes : List Nat) (weights : WeightBuffer) (result : List Score) :
    Option (FeatureBuffer × List Score) := do
  let bistate ← readAt (buffers.t1Buffer.take buffers.currentElems) t0idx
  let tristate ← readAt (buffers.t2Buffer1.take buffers.currentElems) t0idx
  let (values, scbuf, result) ← applyBiTriFullKernel bistate tristate t1 t2 t1idxes
    (child.bigrams.map (·.t1idx)) (child.trigrams.map (·.t1idx)) (child.trigrams.map (·.t2idx))
    buffers.valueBuffer weights buffers.scoreBuffer result
  pure ({ buffers with valueBuffer := values, scoreBuffer := scbuf }, result)

end PartialNgramPrinter

/-- The interface that the dynamic class and the generated one implement. -/
structure PartialNgramFeatureApply where
  applyUni : FeatureBuffer → List PatternRow → WeightBuffer → List Score →
    Option (FeatureBuffer × List Score)
  applyBiStep1 : FeatureBuffer → List PatternRow → Option FeatureBuffer
  applyBiStep2 : FeatureBuffer → PatternRow → WeightBuffer → List Score →
    Option (FeatureBuffer × List Score)
  applyTriStep1 : FeatureBuffer → List PatternRow → Option FeatureBuffer
  applyTriStep2 : FeatureBuffer → PatternRow → Option FeatureBuffer
  applyTriStep3 : FeatureBuffer → PatternRow → WeightBuffer → List Score →
    Option (FeatureBuffer × List Score)
  applyBiTri : FeatureBuffer → Nat → PatternRow → List PatternRow → List PatternRow → List Nat →
    WeightBuffer → List Score → Option (FeatureBuffer × List Score)

/-- `PartialNgramDynamicFeatureApply`. -/
def PartialNgramFeatures.dynamicApply (child : PartialNgramFeatures) :
    PartialNgramFeatureApply where
  applyUni := child.applyUni
  applyBiStep1 := child.applyBiStep1
  applyBiStep2 := child.applyBiStep2
  applyTriStep1 := child.applyTriStep1
  applyTriStep2 := child.applyTriStep2
  applyTriStep3 := child.applyTriStep3
  applyBiTri buffers _ t0 := child.applyBiTri buffers t0

/-- The generated class overrides three of the loops. -/
def PartialNgramPrinter.generatedApply (child : PartialNgramFeatures) :
    PartialNgramFeatureApply where
  applyUni := child.applyUni
  applyBiStep1 := child.applyBiStep1
  applyBiStep2 := PartialNgramPrinter.applyBiStep2 child
  applyTriStep1 := child.applyTriStep1
  applyTriStep2 := child.applyTriStep2
  applyTriStep3 := PartialNgramPrinter.applyTriStep3 child
  applyBiTri buffers t0idx _ := PartialNgramPrinter.applyBiTri child buffers t0idx

end Jumanpp.Core.Features
