import Jumanpp.Util.Characters
import Jumanpp.Util.Serialization

/-!
# The analysis spec

What the spec compiler makes of a model definition: the fields of the dictionary, the features over
them, the makers of unknown words and the training setup.
-/

namespace Jumanpp.Core.Spec

open Jumanpp.Util Jumanpp.Util.Serialization

inductive FieldTypeName
  | String
  | Int
  | StringList
  | StringKVList
  | Error

instance : EnumNames FieldTypeName where
  value
    | .String => 0
    | .Int => 1
    | .StringList => 2
    | .StringKVList => 3
    | .Error => 4

abbrev FieldType := EnumClass FieldTypeName

def InvalidInt : Int32 := Int32.minValue

def SpecMagic : UInt32 := 0xfeed0000
def SpecFormatVersion : UInt32 := 3

structure FieldDescriptor where
  specIndex : Int32 := InvalidInt
  position : Int32 := InvalidInt
  dicIndex : Int32 := InvalidInt
  name : StdString := StdList.empty
  isTrieKey : Bool := false
  fieldType : FieldType := .of .Error
  emptyString : StdString := StdList.empty
  listSeparator : StdString := StdList.empty
  kvSeparator : StdString := StdList.empty
  stringStorage : Int32 := InvalidInt
  intStorage : Int32 := InvalidInt
  alignment : Int32 := 0

structure DictionarySpec where
  fields : StdList FieldDescriptor := StdList.empty
  aliasingSet : StdList Int32 := StdList.empty
  indexColumn : Int32 := -1
  numIntStorage : Int32 := -1
  numStringStorage : Int32 := -1

inductive UnkMakerTypeName
  | Invalid
  | Single
  | Chunking
  | Onomatopoeia
  | Numeric
  | Normalize

instance : EnumNames UnkMakerTypeName where
  value
    | .Invalid => 0
    | .Single => 1
    | .Chunking => 2
    | .Onomatopoeia => 3
    | .Numeric => 4
    | .Normalize => 5

abbrev UnkMakerType := EnumClass UnkMakerTypeName

inductive UnkFeatureTypeName
  | NotPrefixOfDic
  | NormalizedActions

instance : EnumNames UnkFeatureTypeName where
  value
    | .NotPrefixOfDic => 0
    | .NormalizedActions => 1

abbrev UnkFeatureType := EnumClass UnkFeatureTypeName

structure UnkMakerFeature where
  targetPlaceholder : Int32
  targetFeature : Int32
  featureType : UnkFeatureType

structure UnkProcessorDescriptor where
  index : Int32 := -1
  name : StdString := StdList.empty
  type : UnkMakerType := .of .Invalid
  patternRow : Int32 := -1
  patternPtr : Int32 := InvalidInt
  priority : Int32 := 0
  charClass : CharacterClass := CharacterClass.FAMILY_OTHERS
  features : StdList UnkMakerFeature := StdList.empty
  replaceFields : StdList Int32 := StdList.empty

inductive PrimitiveFeatureKindName
  | Invalid
  | Copy
  | SingleBit
  | Provided
  | ByteLength
  | CodepointSize
  | SurfaceCodepointSize
  | CodepointType
  | Codepoint

instance : EnumNames PrimitiveFeatureKindName where
  value
    | .Invalid => 0
    | .Copy => 1
    | .SingleBit => 2
    | .Provided => 3
    | .ByteLength => 4
    | .CodepointSize => 5
    | .SurfaceCodepointSize => 6
    | .CodepointType => 7
    | .Codepoint => 8

abbrev PrimitiveFeatureKind := EnumClass PrimitiveFeatureKindName

inductive DicImportKindName
  | Invalid
  | ImportAsFeature
  | MatchListKey
  | MatchFields
  | ImportAsData

instance : EnumNames DicImportKindName where
  value
    | .Invalid => 0
    | .ImportAsFeature => 1
    | .MatchListKey => 2
    | .MatchFields => 3
    | .ImportAsData => 1000

abbrev DicImportKind := EnumClass DicImportKindName

structure DicImportDescriptor where
  index : Int32 := InvalidInt
  target : Int32 := InvalidInt
  shift : Int32 := InvalidInt
  name : StdString := StdList.empty
  kind : DicImportKind
  references : StdList Int32 := StdList.empty
  data : StdList StdString := StdList.empty

structure PrimitiveFeatureDescriptor where
  index : Int32 := InvalidInt
  name : StdString := StdList.empty
  kind : PrimitiveFeatureKind
  references : StdList Int32 := StdList.empty
  matchData : StdList StdString := StdList.empty

structure ComputationFeatureDescriptor where
  name : StdString := StdList.empty
  index : Int32 := InvalidInt
  primitiveFeature : Int32 := InvalidInt
  trueBranch : StdList Int32 := StdList.empty
  falseBranch : StdList Int32 := StdList.empty

structure PatternFeatureDescriptor where
  index : Int32
  usage : Int32
  references : StdList Int32 := StdList.empty

structure NgramFeatureDescriptor where
  index : Int32 := InvalidInt
  references : StdList Int32 := StdList.empty

structure FeaturesSpec where
  dictionary : StdList DicImportDescriptor := StdList.empty
  primitive : StdList PrimitiveFeatureDescriptor := StdList.empty
  computation : StdList ComputationFeatureDescriptor := StdList.empty
  pattern : StdList PatternFeatureDescriptor := StdList.empty
  ngram : StdList NgramFeatureDescriptor := StdList.empty
  numPlaceholders : Int32 := 0
  totalPrimitives : Int32 := InvalidInt
  numDicFeatures : Int32 := InvalidInt
  numDicData : Int32 := InvalidInt
  numUniOnlyPats : Int32 := InvalidInt

structure TrainingField where
  number : Int32
  fieldIdx : Int32
  dicIdx : Int32
  weight : FloatBits

structure AllowedUnkField where
  targetField : Int32
  sourceField : Int32
  sourceKey : StdString := StdList.empty

structure TrainingSpec where
  surfaceIdx : Int32
  fields : StdList TrainingField := StdList.empty
  allowedUnk : StdList AllowedUnkField := StdList.empty

structure AnalysisSpec where
  specMagic_ : UInt32 := SpecMagic
  specVersion_ : UInt32 := SpecFormatVersion
  dictionary : DictionarySpec
  features : FeaturesSpec
  unkCreators : StdList UnkProcessorDescriptor := StdList.empty
  training : TrainingSpec
  specMagic2_ : UInt32 := SpecMagic

end Jumanpp.Core.Spec
