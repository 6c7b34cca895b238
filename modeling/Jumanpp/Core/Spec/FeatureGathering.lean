import Jumanpp.Core.Spec.SpecDsl
import Jumanpp.Lib.FlatMap
import Jumanpp.Lib.StableSort
import Mathlib.Data.List.Range

/-!
# Gathering the features of a definition

The spec compiler numbers every feature that something refers to and every pattern, which is a position
of some n-gram.  The patterns are then numbered again, so that those which only unigrams use come last.
Numbers are `i32` in the source; `CountersFit` says that none of them has overflown.
-/

namespace Jumanpp.Core.Spec

open Jumanpp.Lib

namespace SpecCompiler

/-- What the compiler uses of a `FieldDescriptor`. -/
structure Field where
  specIndex : Int
  dicIndex : Int
  name : SpecName
  isTrieKey : Bool
  fieldType : FieldTypeName

structure AccessFeatureInfo where
  number : Int := -1
  dicFinalNumber : Int := -1
  shift : Int := -1
  trueBranch : List Int := []
  falseBranch : List Int := []

structure PatternFeatureInfo where
  number : Int := -1
  usage : Nat := 0

/-- `computeByName_`. -/
abbrev ComputeMap := FlatMap SpecName AccessFeatureInfo

/-- `patternByCombo_`. -/
abbrev PatternMap := FlatMap (List Int) PatternFeatureInfo

abbrev PatternEntry := List Int × PatternFeatureInfo

/-! ## Gathering -/

def fieldByName (fields : List Field) (name : SpecName) : Option Field :=
  fields.find? fun f => decide (name = f.name)

def registerFeature (computeByName : ComputeMap) (name : SpecName) : ComputeMap :=
  computeByName.update name {} fun compF =>
    if compF.number = -1 then { compF with number := computeByName.size } else compF

def numberOf (computeByName : ComputeMap) (name : SpecName) : Int :=
  ((computeByName.find name).getD {}).number

structure Gathered where
  computeByName : ComputeMap
  patternByCombo : PatternMap

/-- The loop over the accesses of a position. -/
def gatherAccess (s : List Int × ComputeMap) (access : SpecName) : List Int × ComputeMap :=
  let computeByName := registerFeature s.2 access
  (s.1 ++ [numberOf computeByName access], computeByName)

/-- `curPatSize` is the number of a pattern that has none yet. -/
def usePattern (curPatSize order : Nat) (info : PatternFeatureInfo) : PatternFeatureInfo where
  number := if info.number = -1 then curPatSize else info.number
  usage := info.usage ||| 1 <<< (order - 1)

def gatherPosition (order : Nat) (g : Gathered) (pos : List SpecName) : Gathered :=
  let accesses := pos.foldl gatherAccess ([], g.computeByName)
  ⟨accesses.2, g.patternByCombo.update accesses.1 {} (usePattern g.patternByCombo.size order)⟩

def gatherNgram (g : Gathered) (ngram : FeatureCombinator) : Gathered :=
  ngram.data.foldl (gatherPosition ngram.data.length) g

def registerUnk (computeByName : ComputeMap) (unk : UnkProcBuilder) : ComputeMap :=
  unk.output.foldl registerFeature (unk.sideFeatures.foldl registerFeature computeByName)

/-- Only fields with values of their own are features.  A name that no field has is a null pointer. -/
def registerField (fields : List Field) (computeByName : ComputeMap) (ref : SpecName) :
    Option ComputeMap :=
  (fieldByName fields ref).map fun fld =>
    match fld.fieldType with
    | .String | .Int => registerFeature computeByName ref
    | _ => computeByName

def registerReferences (fields : List Field) (computeByName : ComputeMap) (f : FeatureBuilder) :
    Option ComputeMap :=
  f.fields.foldlM (registerField fields)
    (f.falseTransforms.foldl registerFeature (f.trueTransforms.foldl registerFeature computeByName))

def gatherFeatureInfo (bldr : ModelSpecBuilder) (fields : List Field) : Option Gathered :=
  let g := bldr.ngrams.foldl gatherNgram ⟨.empty, .empty⟩
  let computeByName := bldr.unks.foldl registerUnk g.computeByName
  (bldr.features.foldlM (registerReferences fields) computeByName).map fun computeByName =>
    { g with computeByName := computeByName }

/-! ## Grouping -/

def scoreForUsage (usage : Nat) : Int :=
  match usage with
  -- uni + tri
  | 0b101 => 1
  -- only tri
  | 0b100 => 10
  -- uni + bi + tri or bi + tri
  | 0b110 => 49
  | 0b111 => 49
  -- only bi
  | 0b010 => 50
  -- uni + bi
  | 0b011 => 51
  -- only uni
  | 0b001 => 100
  | _ => 1000

/-- `(scoreForUsage(i) << 16) + i->number`. -/
def groupKey (info : PatternFeatureInfo) : Int :=
  scoreForUsage info.usage * 2 ^ 16 + info.number

/-- `p->number = idx`. -/
def withNumber (info : PatternFeatureInfo) (idx : Nat) : PatternFeatureInfo :=
  ⟨idx, info.usage⟩

/-- The numbers in the order of the sorted pointers. -/
def assignNumbers (patternByCombo : PatternMap) (v : List PatternEntry) : PatternMap :=
  v.zipIdx.foldl
    (fun patternByCombo p => patternByCombo.update p.1.1 {} fun info => withNumber info p.2)
    patternByCombo

/-- `order` is the order in which the map is gone over. -/
def groupPatternFeatures (patternByCombo : PatternMap)
    (order : List PatternEntry) : PatternMap :=
  assignNumbers patternByCombo (sortByKey (fun e => groupKey e.2) order)

/-! ## The compiled n-grams and patterns -/

structure NgramFeature where
  index : Int
  references : List Int

structure PatternFeature where
  index : Int
  usage : Nat
  references : List Int

def patternNumber (patternByCombo : PatternMap) (f : List Int) : Int :=
  ((patternByCombo.find f).getD {}).number

def fillNgram (g : Gathered) (number : Nat) (ngram : FeatureCombinator) : NgramFeature where
  index := number
  references := ngram.data.map fun pos =>
    patternNumber g.patternByCombo (pos.map (numberOf g.computeByName))

def fillNgramFeatures (g : Gathered) (ngrams : List FeatureCombinator) : List NgramFeature :=
  ngrams.zipIdx.map fun p => fillNgram g p.2 p.1

def noPattern : PatternFeature := ⟨0, 0, []⟩

/-- One turn of the loop over the patterns, and the number of those that only unigrams use. -/
def fillPattern (s : List PatternFeature × Nat) (pf : PatternEntry) :
    List PatternFeature × Nat :=
  (s.1.set pf.2.number.toNat ⟨pf.2.number, pf.2.usage, pf.1⟩,
    if pf.2.usage = 1 then s.2 + 1 else s.2)

/-- The part of `fillRemainingFeatures` that is about patterns. -/
def fillPatterns (patternByCombo : PatternMap) (order : List PatternEntry) :
    List PatternFeature × Nat :=
  order.foldl fillPattern (List.replicate patternByCombo.size noPattern, 0)

/-- What the analyzer gets of the patterns. -/
structure CompiledPatterns where
  pattern : List PatternFeature
  ngram : List NgramFeature
  numUniOnlyPats : Nat

/-- The numbers and the keys of the sort are values of an `i32`. -/
def CountersFit (g : Gathered) : Prop :=
  g.computeByName.size < 2 ^ 31 ∧ ∀ e ∈ g.patternByCombo.entries, groupKey e.2 < 2 ^ 31

instance (g : Gathered) : Decidable (CountersFit g) :=
  inferInstanceAs (Decidable (g.computeByName.size < 2 ^ 31 ∧
    ∀ e ∈ g.patternByCombo.entries, groupKey e.2 < 2 ^ 31))

/-- Nothing is said of a definition for which a counter overflows.  `order` and `order'` are the orders
in which the map is gone over before and after the numbers are assigned. -/
def compilePatterns (ngrams : List FeatureCombinator) (g : Gathered)
    (order order' : List PatternEntry) : Option CompiledPatterns :=
  if CountersFit g then
    let g := { g with patternByCombo := groupPatternFeatures g.patternByCombo order }
    let patterns := fillPatterns g.patternByCombo order'
    some ⟨patterns.1, fillNgramFeatures g ngrams, patterns.2⟩
  else none

end SpecCompiler

end Jumanpp.Core.Spec
