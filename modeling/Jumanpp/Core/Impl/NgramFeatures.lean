import Jumanpp.Lib.Buffer
import Mathlib

/-!
# N-gram features

An n-gram feature hashes one pattern of the node and of each of its predecessors.  The trainer hashes
them in one piece, the analysis step by step from the node backwards.
-/

namespace Jumanpp.Core.Features

open Jumanpp.Lib

def seaHashSeed0 : UInt64 := 0x16f11fe89b0d677c

def seaHashMult : UInt64 := 0x6eed0e9da4d94a4f

/-- `rotl<32>`. -/
def rotl32 (v : UInt64) : UInt64 :=
  (v <<< 32) ||| (v >>> 32)

structure FastHashRot where
  state : UInt64

/-- The hasher that all features use. -/
abbrev Hasher := FastHashRot

namespace FastHashRot

def init : FastHashRot :=
  ⟨seaHashSeed0⟩

def mix (hasher : FastHashRot) (data : UInt64) : FastHashRot :=
  ⟨rotl32 ((hasher.state ^^^ data) * seaHashMult)⟩

def result (hasher : FastHashRot) : UInt64 :=
  hasher.state

def masked (hasher : FastHashRot) (mask : UInt32) : UInt32 :=
  hasher.state.toUInt32 &&& mask

end FastHashRot

def unigramSeed : UInt64 := 0x5123a31421f

def bigramSeed : UInt64 := 0x5123a68442f

def trigramSeed : UInt64 := 0x51239ab41f1f

/-- The values of the patterns of one node. -/
abbrev PatternRow := List UInt64

/-- The spec compiler numbers the patterns it refers to, so a reference is always inside the row. -/
def PatternRow.at (row : PatternRow) (pattern : Nat) : UInt64 :=
  row.getD pattern 0

/-! ## The compiled spec -/

/-- What `unigram`, `bigram` and `trigram` hand to the spec builder, the combinations of features
replaced by the numbers of their patterns. -/
inductive FeatureCombinator
  | unigram (t0 : Nat)
  | bigram (t1 t0 : Nat)
  | trigram (t2 t1 t0 : Nat)

def FeatureCombinator.data : FeatureCombinator → List Nat
  | unigram t0 => [t0]
  | bigram t1 t0 => [t0, t1]
  | trigram t2 t1 t0 => [t0, t1, t2]

structure NgramFeatureDescriptor where
  index : Nat
  references : List Nat

/-- The n-grams of an `AnalysisSpec`. -/
structure NgramSpec where
  ngram : List NgramFeatureDescriptor
  index_eq : ∀ (i : Nat) (h : i < ngram.length), ngram[i].index = i
  order_mem : ∀ nf ∈ ngram, nf.references.length ∈ [1, 2, 3]
  sorted : ngram.Pairwise fun f g => f.references.length ≤ g.references.length

/-- The stable sort of `ModelSpecBuilder::build`. -/
def sortByOrder (ngrams : List FeatureCombinator) : List FeatureCombinator :=
  ngrams.mergeSort fun f1 f2 => decide (f1.data.length ≤ f2.data.length)

def fillNgramFeatures (ngrams : List FeatureCombinator) : List NgramFeatureDescriptor :=
  ngrams.mapIdx fun number ngram => ⟨number, ngram.data⟩

def NgramSpec.build (ngrams : List FeatureCombinator) : NgramSpec where
  ngram := fillNgramFeatures (sortByOrder ngrams)
  index_eq := by
    intro i h
    simp [fillNgramFeatures]
  order_mem := by
    intro nf hnf
    unfold fillNgramFeatures at hnf
    rw [List.mem_mapIdx] at hnf
    obtain ⟨i, hi, rfl⟩ := hnf
    cases (sortByOrder ngrams)[i] <;> simp [FeatureCombinator.data]
  sorted := by
    have hpairwise : (sortByOrder ngrams).Pairwise fun f1 f2 =>
        decide (f1.data.length ≤ f2.data.length) = true := by
      apply List.pairwise_mergeSort
      · intro f g h hfg hgh
        simp only [decide_eq_true_eq] at *
        omega
      · intro f g
        simp only [Bool.or_eq_true, decide_eq_true_eq]
        omega
    have hsorted : (sortByOrder ngrams).Pairwise fun f1 f2 => f1.data.length ≤ f2.data.length :=
      hpairwise.imp fun h => of_decide_eq_true h
    unfold fillNgramFeatures
    rw [List.pairwise_iff_getElem] at hsorted ⊢
    intro i j hi hj hij
    rw [List.length_mapIdx] at hi hj
    simpa using hsorted i j hi hj hij

/-! ## Features in one piece -/

/-- `NgramFeatureImpl<1>`, `NgramFeatureImpl<2>` and `NgramFeatureImpl<3>`. -/
inductive NgramFeatureImpl
  | one (index p0 : Nat)
  | two (index p0 p1 : Nat)
  | three (index p0 p1 p2 : Nat)

namespace NgramFeatureImpl

def index : NgramFeatureImpl → Nat
  | one index _ => index
  | two index _ _ => index
  | three index _ _ _ => index

def hash (t2 t1 t0 : PatternRow) : NgramFeatureImpl → Hasher
  | one index p0 =>
      (((FastHashRot.init.mix 3).mix (.ofNat index)).mix unigramSeed).mix (t0.at p0)
  | two index p0 p1 =>
      ((((FastHashRot.init.mix 4).mix (.ofNat index)).mix bigramSeed).mix (t0.at p0)).mix (t1.at p1)
  | three index p0 p1 p2 =>
      (((((FastHashRot.init.mix 5).mix (.ofNat index)).mix trigramSeed).mix (t0.at p0)).mix
        (t1.at p1)).mix (t2.at p2)

def apply (feature : NgramFeatureImpl) (result : List UInt32) (t2 t1 t0 : PatternRow) :
    Option (List UInt32) :=
  writeAt result feature.index (feature.hash t2 t1 t0).result.toUInt32

end NgramFeatureImpl

abbrev NgramDynamicFeatureApply := List NgramFeatureImpl

namespace NgramDynamicFeatureApply

def addChild (children : NgramDynamicFeatureApply) (nf : NgramFeatureDescriptor) :
    Except String NgramDynamicFeatureApply :=
  match nf.references with
  | [p0] => .ok (children ++ [.one nf.index p0])
  | [p0, p1] => .ok (children ++ [.two nf.index p0 p1])
  | [p0, p1, p2] => .ok (children ++ [.three nf.index p0 p1 p2])
  | references =>
      .error s!"invalid ngram feature of order {references.length} only 1-3 are supported"

/-- The features of the spec, as `makeFeatures` adds them. -/
def make (spec : NgramSpec) : Except String NgramDynamicFeatureApply :=
  spec.ngram.foldlM addChild []

def apply (children : NgramDynamicFeatureApply) (result : List UInt32) (t2 t1 t0 : PatternRow) :
    Option (List UInt32) :=
  children.foldlM (fun result c => c.apply result t2 t1 t0) result

end NgramDynamicFeatureApply

/-! ## Features in steps -/

/-- `target` is the position among the features of the same order, `index` the one among all. -/
structure UnigramFeature where
  target : Nat
  index : Nat
  t0idx : Nat

namespace UnigramFeature

def totalHashArgs : UInt64 := 3

def maskedValueFor (feature : UnigramFeature) (t0 : UInt64) (mask : UInt32) : UInt32 :=
  ((((FastHashRot.init.mix totalHashArgs).mix (.ofNat feature.index)).mix unigramSeed).mix
    t0).masked mask

def value (feature : UnigramFeature) (patterns : PatternRow) (mask : UInt32) : UInt32 :=
  feature.maskedValueFor (patterns.at feature.t0idx) mask

def step0 (feature : UnigramFeature) (patterns : PatternRow) (result : List UInt32)
    (mask : UInt32) : Option (List UInt32) :=
  writeAt result feature.target (feature.value patterns mask)

end UnigramFeature

structure BigramFeature where
  target : Nat
  index : Nat
  t0idx : Nat
  t1idx : Nat

namespace BigramFeature

def totalHashArgs : UInt64 := 4

/-- What `step0` stores. -/
def state0 (feature : BigramFeature) (t0 : PatternRow) : UInt64 :=
  ((((FastHashRot.init.mix totalHashArgs).mix (.ofNat feature.index)).mix bigramSeed).mix
    (t0.at feature.t0idx)).result

def step0 (feature : BigramFeature) (patterns : PatternRow) (state : List UInt64) :
    Option (List UInt64) :=
  writeAt state feature.target (feature.state0 patterns)

def raw2 (feature : BigramFeature) (state : UInt64) (t1 : PatternRow) (mask : UInt32) : UInt32 :=
  ((FastHashRot.mk state).mix (t1.at feature.t1idx)).masked mask

def step1 (feature : BigramFeature) (patterns : PatternRow) (state : List UInt64)
    (result : List UInt32) (mask : UInt32) : Option (List UInt32) :=
  (readAt state feature.target).bind fun s =>
    writeAt result feature.target (feature.raw2 s patterns mask)

def jointRaw (feature : BigramFeature) (t0 t1 : PatternRow) (mask : UInt32) : UInt32 :=
  feature.raw2 (feature.state0 t0) t1 mask

def jointApply (feature : BigramFeature) (t0 t1 : PatternRow) (result : List UInt32)
    (mask : UInt32) : Option (List UInt32) :=
  writeAt result feature.target (feature.jointRaw t0 t1 mask)

end BigramFeature

structure TrigramFeature where
  target : Nat
  index : Nat
  t0idx : Nat
  t1idx : Nat
  t2idx : Nat

namespace TrigramFeature

def totalHashArgs : UInt64 := 5

/-- What `step0` stores. -/
def state0 (feature : TrigramFeature) (t0 : PatternRow) : UInt64 :=
  ((((FastHashRot.init.mix totalHashArgs).mix (.ofNat feature.index)).mix trigramSeed).mix
    (t0.at feature.t0idx)).result

/-- What `step1` stores. -/
def state1 (feature : TrigramFeature) (state : UInt64) (t1 : PatternRow) : UInt64 :=
  ((FastHashRot.mk state).mix (t1.at feature.t1idx)).result

def step0 (feature : TrigramFeature) (patterns : PatternRow) (state : List UInt64) :
    Option (List UInt64) :=
  writeAt state feature.target (feature.state0 patterns)

def step1 (feature : TrigramFeature) (patterns : PatternRow) (state result : List UInt64) :
    Option (List UInt64) :=
  (readAt state feature.target).bind fun s =>
    writeAt result feature.target (feature.state1 s patterns)

def step2Value (feature : TrigramFeature) (state : UInt64) (t2 : PatternRow) (mask : UInt32) :
    UInt32 :=
  ((FastHashRot.mk state).mix (t2.at feature.t2idx)).masked mask

def step2 (feature : TrigramFeature) (patterns : PatternRow) (state : List UInt64)
    (result : List UInt32) (mask : UInt32) : Option (List UInt32) :=
  (readAt state feature.target).bind fun s =>
    writeAt result feature.target (feature.step2Value s patterns mask)

def raw23 (feature : TrigramFeature) (state : UInt64) (t1 t2 : PatternRow) (mask : UInt32) :
    UInt32 :=
  (((FastHashRot.mk state).mix (t1.at feature.t1idx)).mix (t2.at feature.t2idx)).masked mask

def jointRaw (feature : TrigramFeature) (t0 t1 t2 : PatternRow) (mask : UInt32) : UInt32 :=
  feature.raw23 (feature.state0 t0) t1 t2 mask

def jointApply (feature : TrigramFeature) (t0 t1 t2 : PatternRow) (result : List UInt32)
    (mask : UInt32) : Option (List UInt32) :=
  writeAt result feature.target (feature.jointRaw t0 t1 t2 mask)

/-- Two steps are the joint form. -/
@[simp]
theorem step2Value_state1 (feature : TrigramFeature) (state : UInt64) (t1 t2 : PatternRow)
    (mask : UInt32) :
    feature.step2Value (feature.state1 state t1) t2 mask = feature.raw23 state t1 t2 mask :=
  rfl

end TrigramFeature

/-- The features of `PartialNgramDynamicFeatureApply`, and of the class that is generated in its
place. -/
structure PartialNgramFeatures where
  unigrams : List UnigramFeature
  bigrams : List BigramFeature
  trigrams : List TrigramFeature

namespace PartialNgramFeatures

def empty : PartialNgramFeatures :=
  ⟨[], [], []⟩

def numUnigrams (child : PartialNgramFeatures) : Nat :=
  child.unigrams.length

def numBigrams (child : PartialNgramFeatures) : Nat :=
  child.bigrams.length

def numTrigrams (child : PartialNgramFeatures) : Nat :=
  child.trigrams.length

def addChild (child : PartialNgramFeatures) (nf : NgramFeatureDescriptor) :
    Except String PartialNgramFeatures :=
  match nf.references with
  | [t0] =>
      .ok { child with unigrams := child.unigrams ++ [⟨child.unigrams.length, nf.index, t0⟩] }
  | [t0, t1] =>
      .ok { child with bigrams := child.bigrams ++ [⟨child.bigrams.length, nf.index, t0, t1⟩] }
  | [t0, t1, t2] =>
      .ok { child with
        trigrams := child.trigrams ++ [⟨child.trigrams.length, nf.index, t0, t1, t2⟩] }
  | args =>
      .error s!"invalid ngram feature #{nf.index}of order {args.length} only 1-3 are supported"

/-- The features of the spec, as `makeFeatures` adds them. -/
def make (spec : NgramSpec) : Except String PartialNgramFeatures :=
  spec.ngram.foldlM addChild .empty

/-- Every feature has its own slot, in the order of the features. -/
structure Targets (child : PartialNgramFeatures) : Prop where
  unigrams : ∀ (i : Nat) (h : i < child.unigrams.length), child.unigrams[i].target = i
  bigrams : ∀ (i : Nat) (h : i < child.bigrams.length), child.bigrams[i].target = i
  trigrams : ∀ (i : Nat) (h : i < child.trigrams.length), child.trigrams[i].target = i

end PartialNgramFeatures

end Jumanpp.Core.Features
