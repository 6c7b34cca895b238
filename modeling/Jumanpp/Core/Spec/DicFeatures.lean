import Mathlib
import Jumanpp.Core.Spec.FeatureGathering

/-!
# The dictionary features of a definition

Fields that features refer to are stored as features of an entry, all others as its data.  Every match
feature gets a bit of a column of flags, which the compiler adds to the fields; a column has 31 of them.
After that the primitive features can say what they read.
-/

namespace Jumanpp.Core.Spec

open Jumanpp.Lib

namespace SpecCompiler

/-- `InvalidInt` of an `i32` that has not been set. -/
def invalidInt : Int := -2 ^ 31

/-- A `DicImportDescriptor` without the rows that it matches. -/
structure DicImport where
  index : Int
  target : Int
  shift : Int := invalidInt
  name : SpecName
  kind : DicImportKindName
  references : List Int

/-- The state of the compiler until the imports are numbered. -/
structure DicState where
  fields : List Field
  dictionary : List DicImport
  computeByName : ComputeMap
  currentOffset : Nat := 32
  currentFlagField : Int := invalidInt

/-! ## Fields -/

/-- A field of an unknown type has no storage. -/
def buildField (p : FieldBuilder × Nat) : Option Field :=
  match p.1.columnType with
  | .Error => none
  | _ => some ⟨p.2, invalidInt, p.1.name, p.1.trieIndex, p.1.columnType⟩

def buildFields (fields : List FieldBuilder) : Option (List Field) :=
  fields.zipIdx.mapM buildField

/-- Where `fieldByName` points to. -/
def fieldPlace (fields : List Field) (name : SpecName) : Option Nat :=
  fields.findIdx? fun f => decide (name = f.name)

def setDicIndex (fields : List Field) (i : Nat) (dicIndex : Int) : List Field :=
  fields.modify i fun fld => { fld with dicIndex := dicIndex }

/-! ## Imports -/

def addDicImport (dictionary : List DicImport) (descriptor : Field) (kind : DicImportKindName) :
    List DicImport :=
  dictionary ++ [{
    index := dictionary.length
    target := descriptor.specIndex
    name := descriptor.name
    kind := kind
    references := [descriptor.specIndex] }]

def fieldImportKind (computeByName : ComputeMap) (col : Field) : DicImportKindName :=
  if col.name ∈ computeByName.keys then .ImportAsFeature else .ImportAsData

def importFields (computeByName : ComputeMap) (fields : List Field) : List DicImport :=
  fields.foldl (fun dictionary col => addDicImport dictionary col (fieldImportKind computeByName col)) []

def autogenName (idx : Nat) : SpecName :=
  ("__autogen_int_flags_" ++ toString idx).toUTF8.toList

/-- A new column for flags. -/
def addFlagField (st : DicState) : DicState :=
  { st with
    fields := st.fields ++
      [⟨st.fields.length, invalidInt, autogenName st.fields.length, false, .Int⟩]
    currentFlagField := st.fields.length
    currentOffset := 0 }

def makeIntSlot (width : Nat) (st : DicState) : DicState × Int × Nat :=
  let st := if 32 ≤ st.currentOffset + width then addFlagField st else st
  ({ st with currentOffset := st.currentOffset + width }, st.currentFlagField, st.currentOffset)

/-- What the feature's own entry learns of its slot and its branches. -/
def cacheSlot (computeByName : ComputeMap) (f : FeatureBuilder) (shift : Int) : ComputeMap :=
  let computeByName := registerFeature computeByName f.name
  computeByName.update f.name {} fun cache =>
    { cache with
      shift := shift
      trueBranch := cache.trueBranch ++ f.trueTransforms.map (numberOf computeByName)
      falseBranch := cache.falseBranch ++ f.falseTransforms.map (numberOf computeByName) }

/-- The import is a reference to the last descriptor in the source; here the caller adds it. -/
def complexImportCommonInit (f : FeatureBuilder) (st : DicState) : DicState × DicImport :=
  let slot := makeIntSlot 1 st
  ({ slot.1 with computeByName := cacheSlot slot.1.computeByName f slot.2.2 },
    { index := slot.1.dictionary.length
      target := slot.2.1
      shift := slot.2.2
      name := f.name
      kind := .Invalid
      references := [] })

def pushImport (st : DicState) (v : DicImport) : DicState :=
  { st with dictionary := st.dictionary ++ [v] }

def matchValueKind (fieldType : FieldTypeName) : Option DicImportKindName :=
  match fieldType with
  | .StringList | .StringKVList => some .MatchListKey
  | .String => some .MatchFields
  | _ => none

def makeMatchValueFeature (f : FeatureBuilder) (st : DicState) : Option DicState :=
  let s := complexImportCommonInit f st
  match f.fields with
  | [fldName] => do
      let fld ← fieldByName s.1.fields fldName
      let kind ← matchValueKind fld.fieldType
      some (pushImport s.1
        { s.2 with references := s.2.references ++ [fld.specIndex], kind := kind })
  | _ => none

def csvReference (fields : List Field) (fldName : SpecName) : Option Int := do
  let fld ← fieldByName fields fldName
  match fld.fieldType with
  | .String => some fld.specIndex
  | _ => none

def makeMatchCsvFeature (f : FeatureBuilder) (st : DicState) : Option DicState := do
  let s := complexImportCommonInit f st
  let references ← f.fields.mapM (csvReference s.1.fields)
  some (pushImport s.1
    { s.2 with references := s.2.references ++ references, kind := .MatchFields })

def makeDicFeature (st : DicState) (f : FeatureBuilder) : Option DicState :=
  match f.type with
  | .MatchValue => makeMatchValueFeature f st
  | .MatchCsv => makeMatchCsvFeature f st
  | _ => some st

/-! ## Numbers -/

/-- The state of the two loops over the sorted imports. -/
structure DicNumbers where
  dictionary : List DicImport
  fields : List Field
  computeByName : ComputeMap
  numDicData : Nat := 0
  numDicFeatures : Nat := 0

/-- `~numDic` is `Int.negSucc`. -/
def numberData (s : DicNumbers) (f : DicImport) : Option DicNumbers :=
  let f := { f with index := s.dictionary.length }
  match f.kind with
  | .ImportAsData => (fieldPlace s.fields f.name).map fun i =>
      { s with
        dictionary := s.dictionary ++ [{ f with target := s.numDicData }]
        fields := setDicIndex s.fields i (.negSucc s.numDicData)
        numDicData := s.numDicData + 1 }
  | _ => some { s with dictionary := s.dictionary ++ [f] }

/-- The index of a field that has one or takes the next one. -/
def takeDicIndex (s : DicNumbers) (i : Nat) (fld : Field) : DicNumbers × Int :=
  if fld.dicIndex = invalidInt then
    ({ s with
        fields := setDicIndex s.fields i s.numDicFeatures
        numDicFeatures := s.numDicFeatures + 1 }, s.numDicFeatures)
  else (s, fld.dicIndex)

def setFinalNumber (computeByName : ComputeMap) (name : SpecName) (dicFinalNumber : Int) : ComputeMap :=
  if name ∈ computeByName.keys then
    computeByName.update name {} fun info => { info with dicFinalNumber := dicFinalNumber }
  else computeByName

def numberFeature (s : DicNumbers) (f : DicImport) : Option DicNumbers :=
  match f.kind with
  | .ImportAsData => some { s with dictionary := s.dictionary ++ [f] }
  | _ => s.fields[f.target.toNat]?.map fun fld =>
      let taken := takeDicIndex s f.target.toNat fld
      { taken.1 with
        computeByName := setFinalNumber taken.1.computeByName f.name taken.2
        dictionary := taken.1.dictionary ++ [{ f with target := taken.2 }] }

def kindValue (kind : DicImportKindName) : Int :=
  (Jumanpp.Util.Serialization.EnumNames.value kind).toInt

/-- Features that nothing refers to are left out. -/
def makeDicFeatures (features : List FeatureBuilder) (g : Gathered) (fields : List Field) :
    Option DicNumbers := do
  let st ← (features.filter fun f => decide (f.name ∈ g.computeByName.keys)).foldlM makeDicFeature
    { fields := fields
      dictionary := importFields g.computeByName fields
      computeByName := g.computeByName }
  let s ← (sortByKey (fun d => kindValue d.kind) st.dictionary).foldlM numberData
    { dictionary := [], fields := st.fields, computeByName := st.computeByName }
  s.dictionary.foldlM numberFeature { s with dictionary := [] }

/-! ## Primitive features -/

structure PrimitiveFeature where
  index : Int
  name : SpecName
  kind : PrimitiveFeatureKindName
  references : List Int

structure ComputationFeature where
  name : SpecName
  index : Int
  primitiveFeature : Int
  trueBranch : List Int
  falseBranch : List Int

def noPrimitive : PrimitiveFeature := ⟨invalidInt, [], .Invalid, []⟩

def noComputation : ComputationFeature := ⟨[], invalidInt, invalidInt, [], []⟩

def findFeature (features : List FeatureBuilder) (name : SpecName) : Option FeatureBuilder :=
  features.find? fun f => decide (name = f.name)

/-- The kind and the references of a primitive feature. -/
abbrev PrimitiveInfo := PrimitiveFeatureKindName × List Int

/-- The placeholders are numbered as they come. -/
def copyPrimitiveInfo (fields : List Field) (fBldr : FeatureBuilder) (afi : AccessFeatureInfo)
    (numPlaceholders : Nat) : Option (PrimitiveInfo × Nat) :=
  match fBldr.type with
  | .MatchValue | .MatchCsv => some ((.SingleBit, [afi.dicFinalNumber, afi.shift]), numPlaceholders)
  | .Placeholder => some ((.Provided, [(numPlaceholders : Int)]), numPlaceholders + 1)
  | .ByteLength => do
      let fld ← fieldByName fields (← fBldr.fields[0]?)
      some ((.ByteLength, [fld.dicIndex]), numPlaceholders)
  | .CodepointSize => do
      let fld ← fieldByName fields (← fBldr.fields[0]?)
      if fld.isTrieKey then some ((.SurfaceCodepointSize, []), numPlaceholders)
      else some ((.CodepointSize, [fld.dicIndex]), numPlaceholders)
  | .Codepoint => some ((.Codepoint, [fBldr.intParam]), numPlaceholders)
  | .CodepointType => some ((.CodepointType, [fBldr.intParam]), numPlaceholders)
  | .Initial | .Invalid => none

/-- A name that no feature has is the name of a field. -/
def primitiveInfo (features : List FeatureBuilder) (fields : List Field) (name : SpecName)
    (afi : AccessFeatureInfo) (numPlaceholders : Nat) : Option (PrimitiveInfo × Nat) :=
  match findFeature features name with
  | some fBldr => copyPrimitiveInfo fields fBldr afi numPlaceholders
  | none => do
      let fld ← fieldByName fields name
      match fld.fieldType with
      | .String | .Int => some ((.Copy, [afi.dicFinalNumber]), numPlaceholders)
      | _ => none

structure Filled where
  primitive : List PrimitiveFeature
  computation : List ComputationFeature
  numPlaceholders : Nat

def fillFeature (features : List FeatureBuilder) (fields : List Field) (s : Filled)
    (cf : SpecName × AccessFeatureInfo) : Option Filled := do
  let number := cf.2.number
  let (info, numPlaceholders) ← primitiveInfo features fields cf.1 cf.2 s.numPlaceholders
  some {
    primitive := s.primitive.set number.toNat ⟨number, cf.1, info.1, info.2⟩
    computation := s.computation.set number.toNat
      ⟨cf.1, number, number, cf.2.trueBranch, cf.2.falseBranch⟩
    numPlaceholders := numPlaceholders }

/-- The part of `fillRemainingFeatures` that is about features.  `order` is the order in which the map is
gone over. -/
def fillRemainingFeatures (features : List FeatureBuilder) (fields : List Field)
    (order : List (SpecName × AccessFeatureInfo)) : Option Filled :=
  order.foldlM (fillFeature features fields)
    ⟨.replicate order.length noPrimitive, .replicate order.length noComputation, 0⟩

end SpecCompiler

/-! ## Building -/

namespace FeatureBuilder

def isMatch (f : FeatureBuilder) : Bool :=
  match f.type with
  | .MatchCsv | .MatchValue => true
  | _ => false

def isLength (f : FeatureBuilder) : Bool :=
  match f.type with
  | .ByteLength | .CodepointSize => true
  | _ => false

/-- The checks of a feature in their order. -/
def validate (f : FeatureBuilder) : Prop :=
  f.type ≠ .Initial ∧ f.type ≠ .Invalid ∧ (f.isLength = true → f.fields.length = 1) ∧
    (f.trueTransforms = [] ↔ f.falseTransforms = []) ∧
    (f.trueTransforms ≠ [] → f.isMatch = true) ∧ (f.type = .Codepoint → f.intParam ≠ 0)

instance (f : FeatureBuilder) : Decidable f.validate :=
  inferInstanceAs (Decidable (_ ∧ _))

end FeatureBuilder

namespace ModelSpecBuilder

/-- The names of features are compared with those of fields only. -/
def validateNames (bldr : ModelSpecBuilder) : Prop :=
  (bldr.fields.map FieldBuilder.name).Nodup ∧
    ∀ f ∈ bldr.features, f.name ∉ bldr.fields.map FieldBuilder.name

instance (bldr : ModelSpecBuilder) : Decidable bldr.validateNames :=
  inferInstanceAs (Decidable (_ ∧ _))

def validateFeatures (bldr : ModelSpecBuilder) : Prop :=
  ∀ f ∈ bldr.features, f.validate

instance (bldr : ModelSpecBuilder) : Decidable bldr.validateFeatures :=
  inferInstanceAs (Decidable (∀ f ∈ bldr.features, f.validate))

/-- The n-grams are sorted by their length. -/
def sortNgrams (bldr : ModelSpecBuilder) : ModelSpecBuilder :=
  { bldr with ngrams := sortByKey (fun ngram => (ngram.data.length : Int)) bldr.ngrams }

end ModelSpecBuilder

namespace SpecCompiler

/-- The fields and imports, the features over them and the patterns. -/
structure CompiledSpec where
  dic : DicNumbers
  filled : Filled
  patterns : CompiledPatterns

/-- `build` without the unknown words and the training setup.  `maxDicFields` is an option of the build
system, `pats` and `feats` are the orders in which the two maps are gone over. -/
def build (maxDicFields : Nat) (pats : MapOrder (List Int) PatternFeatureInfo)
    (feats : MapOrder SpecName AccessFeatureInfo) (bldr : ModelSpecBuilder) : Option CompiledSpec := do
  let fields ← buildFields bldr.fields
  let g ← gatherFeatureInfo bldr fields
  let order := pats.order g.patternByCombo
  let patterns ← compilePatterns bldr.ngrams g order
    (pats.order (groupPatternFeatures g.patternByCombo order))
  let dic ← makeDicFeatures bldr.features g fields
  let filled ← fillRemainingFeatures bldr.features dic.fields (feats.order dic.computeByName)
  if dic.fields.length ≤ maxDicFields then some ⟨dic, filled, patterns⟩ else none

end SpecCompiler

/-- The part of the builder's own checks that is about fields' and features' names and features. -/
def ModelSpecBuilder.build (maxDicFields : Nat)
    (pats : MapOrder (List Int) SpecCompiler.PatternFeatureInfo)
    (feats : MapOrder SpecName SpecCompiler.AccessFeatureInfo) (bldr : ModelSpecBuilder) :
    Option SpecCompiler.CompiledSpec :=
  if bldr.validateNames ∧ bldr.validateFeatures then
    SpecCompiler.build maxDicFields pats feats bldr.sortNgrams
  else none

end Jumanpp.Core.Spec
