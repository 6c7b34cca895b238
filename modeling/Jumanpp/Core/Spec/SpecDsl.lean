import Jumanpp.Core.Spec.SpecTypes

/-!
# Model definitions

What the builders of a model definition collect: fields, features, n-grams and makers of unknown words.
Everything refers to fields and features by their names.
-/

namespace Jumanpp.Core.Spec

/-- A `StringPiece` that names a field or a feature. -/
abbrev SpecName := List UInt8

structure FieldBuilder where
  name : SpecName
  columnType : FieldTypeName
  trieIndex : Bool

inductive FeatureType
  | Initial
  | Invalid
  | MatchValue
  | MatchCsv
  | Placeholder
  | ByteLength
  | CodepointSize
  | CodepointType
  | Codepoint
  deriving DecidableEq

structure FeatureBuilder where
  name : SpecName
  type : FeatureType
  fields : List SpecName := []
  trueTransforms : List SpecName := []
  falseTransforms : List SpecName := []
  intParam : Int := -2 ^ 31

/-- The positions of an n-gram, the current node first.  `unigram`, `bigram` and `trigram` are the only
ways to make one. -/
structure FeatureCombinator where
  data : List (List SpecName)
  data_ne_nil : data ≠ []
  length_le : data.length ≤ 3

namespace FeatureCombinator

theorem length_le_three (l : List (List SpecName)) (h : l.length = 1 ∨ l.length = 2 ∨ l.length = 3) :
    l.length ≤ 3 := by
  omega

def unigram (t0 : List SpecName) : FeatureCombinator :=
  ⟨[t0], List.cons_ne_nil t0 [], length_le_three [t0] (.inl rfl)⟩

def bigram (t1 t0 : List SpecName) : FeatureCombinator :=
  ⟨[t0, t1], List.cons_ne_nil t0 [t1], length_le_three [t0, t1] (.inr (.inl rfl))⟩

def trigram (t2 t1 t0 : List SpecName) : FeatureCombinator :=
  ⟨[t0, t1, t2], List.cons_ne_nil t0 [t1, t2], length_le_three [t0, t1, t2] (.inr (.inr rfl))⟩

end FeatureCombinator

structure UnkProcBuilder where
  sideFeatures : List SpecName
  output : List SpecName

structure ModelSpecBuilder where
  fields : List FieldBuilder
  features : List FeatureBuilder
  ngrams : List FeatureCombinator
  unks : List UnkProcBuilder

end Jumanpp.Core.Spec
