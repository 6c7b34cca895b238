import Jumanpp.Core.Spec.SpecTypes
import Jumanpp.Util.SerialFormat

/-!
# The saved spec

The members that the spec is saved with, structure by structure.  Left out are the raw data of a
dictionary import and the target feature of an unknown word maker.
-/

namespace Jumanpp.Core.Spec

open Jumanpp.Util Jumanpp.Util.Serialization
open Serializable

instance : Serializable CharacterClass where
  type := .struct (.field (type Int32) .done)
  toValue o := (Int32.ofBitVec o, ())
  ofValue := fun (o, ()) => o.toBitVec

instance : Serializable FieldDescriptor where
  type := .struct (.field (type Int32) (.field (type Int32) (.field (type Int32)
    (.field (type StdString) (.field (type Bool) (.field (type FieldType)
    (.field (type StdString) (.field (type StdString) (.field (type StdString)
    (.field (type Int32) (.field (type Int32) (.field (type Int32) .done))))))))))))
  toValue fd := (fd.specIndex, fd.position, fd.dicIndex, fd.name, fd.isTrieKey,
    toValue fd.fieldType, fd.emptyString, fd.listSeparator, fd.kvSeparator, fd.stringStorage,
    fd.intStorage, fd.alignment, ())
  ofValue := fun (specIndex, position, dicIndex, name, isTrieKey, fieldType, emptyString,
      listSeparator, kvSeparator, stringStorage, intStorage, alignment, ()) =>
    { specIndex, position, dicIndex, name, isTrieKey, fieldType := ofValue fieldType, emptyString,
      listSeparator, kvSeparator, stringStorage, intStorage, alignment }

instance : Serializable DictionarySpec where
  type := .struct (.field (type (StdList FieldDescriptor)) (.field (type (StdList Int32))
    (.field (type Int32) (.field (type Int32) (.field (type Int32) .done)))))
  toValue spec := (toValue spec.fields, toValue spec.aliasingSet, spec.indexColumn,
    spec.numIntStorage, spec.numStringStorage, ())
  ofValue := fun (fields, aliasingSet, indexColumn, numIntStorage, numStringStorage, ()) =>
    { fields := ofValue fields, aliasingSet := ofValue aliasingSet, indexColumn, numIntStorage,
      numStringStorage }

/-- `emplace_back` zeroes the member that is not loaded. -/
instance : Serializable UnkMakerFeature where
  type := .struct (.field (type Int32) (.field (type UnkFeatureType) .done))
  toValue o := (o.targetPlaceholder, toValue o.featureType, ())
  ofValue := fun (targetPlaceholder, featureType, ()) =>
    { targetPlaceholder, targetFeature := 0, featureType := ofValue featureType }

instance : Serializable UnkProcessorDescriptor where
  type := .struct (.field (type Int32) (.field (type StdString) (.field (type UnkMakerType)
    (.field (type Int32) (.field (type Int32) (.field (type Int32)
    (.field (type CharacterClass) (.field (type (StdList UnkMakerFeature))
    (.field (type (StdList Int32)) .done)))))))))
  toValue o := (o.index, o.name, toValue o.type, o.patternRow, o.patternPtr, o.priority,
    toValue o.charClass, toValue o.features, toValue o.replaceFields, ())
  ofValue := fun (index, name, type, patternRow, patternPtr, priority, charClass, features,
      replaceFields, ()) =>
    { index, name, type := ofValue type, patternRow, patternPtr, priority,
      charClass := ofValue charClass, features := ofValue features,
      replaceFields := ofValue replaceFields }

instance : Serializable DicImportDescriptor where
  type := .struct (.field (type Int32) (.field (type Int32) (.field (type Int32)
    (.field (type StdString) (.field (type DicImportKind) (.field (type (StdList Int32))
    .done))))))
  toValue o := (o.index, o.target, o.shift, o.name, toValue o.kind, toValue o.references, ())
  ofValue := fun (index, target, shift, name, kind, references, ()) =>
    { index, target, shift, name, kind := ofValue kind, references := ofValue references }

instance : Serializable PrimitiveFeatureDescriptor where
  type := .struct (.field (type Int32) (.field (type StdString)
    (.field (type PrimitiveFeatureKind) (.field (type (StdList Int32))
    (.field (type (StdList StdString)) .done)))))
  toValue o := (o.index, o.name, toValue o.kind, toValue o.references, toValue o.matchData, ())
  ofValue := fun (index, name, kind, references, matchData, ()) =>
    { index, name, kind := ofValue kind, references := ofValue references,
      matchData := ofValue matchData }

instance : Serializable ComputationFeatureDescriptor where
  type := .struct (.field (type StdString) (.field (type Int32) (.field (type Int32)
    (.field (type (StdList Int32)) (.field (type (StdList Int32)) .done)))))
  toValue o := (o.name, o.index, o.primitiveFeature, toValue o.trueBranch,
    toValue o.falseBranch, ())
  ofValue := fun (name, index, primitiveFeature, trueBranch, falseBranch, ()) =>
    { name, index, primitiveFeature, trueBranch := ofValue trueBranch,
      falseBranch := ofValue falseBranch }

instance : Serializable PatternFeatureDescriptor where
  type := .struct (.field (type Int32) (.field (type Int32) (.field (type (StdList Int32)) .done)))
  toValue o := (o.index, o.usage, toValue o.references, ())
  ofValue := fun (index, usage, references, ()) =>
    { index, usage, references := ofValue references }

instance : Serializable NgramFeatureDescriptor where
  type := .struct (.field (type Int32) (.field (type (StdList Int32)) .done))
  toValue o := (o.index, toValue o.references, ())
  ofValue := fun (index, references, ()) => { index, references := ofValue references }

instance : Serializable FeaturesSpec where
  type := .struct (.field (type (StdList DicImportDescriptor))
    (.field (type (StdList PrimitiveFeatureDescriptor))
    (.field (type (StdList ComputationFeatureDescriptor))
    (.field (type (StdList PatternFeatureDescriptor))
    (.field (type (StdList NgramFeatureDescriptor)) (.field (type Int32) (.field (type Int32)
    (.field (type Int32) (.field (type Int32) (.field (type Int32) .done))))))))))
  toValue o := (toValue o.dictionary, toValue o.primitive, toValue o.computation,
    toValue o.pattern, toValue o.ngram, o.numPlaceholders, o.totalPrimitives, o.numDicFeatures,
    o.numDicData, o.numUniOnlyPats, ())
  ofValue := fun (dictionary, primitive, computation, pattern, ngram, numPlaceholders,
      totalPrimitives, numDicFeatures, numDicData, numUniOnlyPats, ()) =>
    { dictionary := ofValue dictionary, primitive := ofValue primitive,
      computation := ofValue computation, pattern := ofValue pattern, ngram := ofValue ngram,
      numPlaceholders, totalPrimitives, numDicFeatures, numDicData, numUniOnlyPats }

instance : Serializable TrainingField where
  type := .struct (.field (type Int32) (.field (type Int32) (.field (type Int32)
    (.field (type FloatBits) .done))))
  toValue o := (o.number, o.fieldIdx, o.dicIdx, toValue o.weight, ())
  ofValue := fun (number, fieldIdx, dicIdx, weight, ()) =>
    { number, fieldIdx, dicIdx, weight := ofValue weight }

instance : Serializable AllowedUnkField where
  type := .struct (.field (type Int32) (.field (type Int32) (.field (type StdString) .done)))
  toValue o := (o.targetField, o.sourceField, o.sourceKey, ())
  ofValue := fun (targetField, sourceField, sourceKey, ()) =>
    { targetField, sourceField, sourceKey }

instance : Serializable TrainingSpec where
  type := .struct (.field (type Int32) (.field (type (StdList TrainingField))
    (.field (type (StdList AllowedUnkField)) .done)))
  toValue o := (o.surfaceIdx, toValue o.fields, toValue o.allowedUnk, ())
  ofValue := fun (surfaceIdx, fields, allowedUnk, ()) =>
    { surfaceIdx, fields := ofValue fields, allowedUnk := ofValue allowedUnk }

instance : Serializable AnalysisSpec where
  type := .struct (.field (type UInt32) (.field (type UInt32) (.field (type DictionarySpec)
    (.field (type FeaturesSpec) (.field (type (StdList UnkProcessorDescriptor))
    (.field (type TrainingSpec) (.field (type UInt32) .done)))))))
  toValue spec := (spec.specMagic_, spec.specVersion_, toValue spec.dictionary,
    toValue spec.features, toValue spec.unkCreators, toValue spec.training, spec.specMagic2_, ())
  ofValue := fun (specMagic_, specVersion_, dictionary, features, unkCreators, training,
      specMagic2_, ()) =>
    { specMagic_, specVersion_, dictionary := ofValue dictionary, features := ofValue features,
      unkCreators := ofValue unkCreators, training := ofValue training, specMagic2_ }

def saveSpec (spec : AnalysisSpec) : List UInt8 := save spec

def loadSpec (limits : VectorLimits) (data : List UInt8) : Except Fault (Option AnalysisSpec) :=
  load limits data

/-! ## What is loaded -/

instance : LawfulSerializable CharacterClass := ⟨fun _ => rfl⟩
instance : LawfulSerializable FieldDescriptor := ⟨fun _ => rfl⟩
instance : LawfulSerializable TrainingField := ⟨fun _ => rfl⟩
instance : LawfulSerializable AllowedUnkField := ⟨fun _ => rfl⟩

instance : LawfulSerializable DictionarySpec where
  ofValue_toValue o := by
    show { o with
      fields := ofValue (toValue o.fields), aliasingSet := ofValue (toValue o.aliasingSet) } = o
    simp only [LawfulSerializable.ofValue_toValue]

instance : LawfulSerializable PrimitiveFeatureDescriptor where
  ofValue_toValue o := by
    show { o with
      references := ofValue (toValue o.references)
      matchData := ofValue (toValue o.matchData) } = o
    simp only [LawfulSerializable.ofValue_toValue]

instance : LawfulSerializable ComputationFeatureDescriptor where
  ofValue_toValue o := by
    show { o with
      trueBranch := ofValue (toValue o.trueBranch)
      falseBranch := ofValue (toValue o.falseBranch) } = o
    simp only [LawfulSerializable.ofValue_toValue]

instance : LawfulSerializable PatternFeatureDescriptor where
  ofValue_toValue o := by
    show { o with references := ofValue (toValue o.references) } = o
    simp only [LawfulSerializable.ofValue_toValue]

instance : LawfulSerializable NgramFeatureDescriptor where
  ofValue_toValue o := by
    show { o with references := ofValue (toValue o.references) } = o
    simp only [LawfulSerializable.ofValue_toValue]

instance : LawfulSerializable TrainingSpec where
  ofValue_toValue o := by
    show { o with
      fields := ofValue (toValue o.fields), allowedUnk := ofValue (toValue o.allowedUnk) } = o
    simp only [LawfulSerializable.ofValue_toValue]

def DicImportDescriptor.withoutData (o : DicImportDescriptor) : DicImportDescriptor :=
  { o with data := StdList.empty }

def UnkMakerFeature.withoutTarget (o : UnkMakerFeature) : UnkMakerFeature :=
  { o with targetFeature := 0 }

def UnkProcessorDescriptor.withoutTargets (o : UnkProcessorDescriptor) : UnkProcessorDescriptor :=
  { o with features := o.features.map UnkMakerFeature.withoutTarget }

def FeaturesSpec.withoutData (o : FeaturesSpec) : FeaturesSpec :=
  { o with dictionary := o.dictionary.map DicImportDescriptor.withoutData }

/-- The spec without the raw data of its imports. -/
def AnalysisSpec.withoutData (spec : AnalysisSpec) : AnalysisSpec :=
  { spec with features := spec.features.withoutData }

theorem DicImportDescriptor.ofValue_toValue (o : DicImportDescriptor) :
    ofValue (toValue o) = o.withoutData := by
  show { o with references := ofValue (toValue o.references), data := StdList.empty } = _
  simp only [LawfulSerializable.ofValue_toValue, DicImportDescriptor.withoutData]

theorem UnkProcessorDescriptor.ofValue_toValue (o : UnkProcessorDescriptor) :
    ofValue (toValue o) = o.withoutTargets := by
  show { o with
    features := ofValue (toValue o.features)
    replaceFields := ofValue (toValue o.replaceFields) } = _
  rw [ofValue_toValue_stdList o.features, LawfulSerializable.ofValue_toValue]
  rfl

theorem FeaturesSpec.ofValue_toValue (o : FeaturesSpec) : ofValue (toValue o) = o.withoutData := by
  show { o with
    dictionary := ofValue (toValue o.dictionary)
    primitive := ofValue (toValue o.primitive)
    computation := ofValue (toValue o.computation)
    pattern := ofValue (toValue o.pattern)
    ngram := ofValue (toValue o.ngram) } = _
  rw [ofValue_toValue_stdList o.dictionary]
  simp only [LawfulSerializable.ofValue_toValue, DicImportDescriptor.ofValue_toValue]
  rfl

theorem AnalysisSpec.ofValue_toValue (spec : AnalysisSpec) :
    ofValue (toValue spec) =
      { spec.withoutData with
        unkCreators := spec.unkCreators.map UnkProcessorDescriptor.withoutTargets } := by
  show { spec with
    dictionary := ofValue (toValue spec.dictionary)
    features := ofValue (toValue spec.features)
    unkCreators := ofValue (toValue spec.unkCreators)
    training := ofValue (toValue spec.training) } = _
  rw [ofValue_toValue_stdList spec.unkCreators, FeaturesSpec.ofValue_toValue]
  simp only [LawfulSerializable.ofValue_toValue, UnkProcessorDescriptor.ofValue_toValue]
  rfl

theorem AnalysisSpec.withoutData_idem (spec : AnalysisSpec) :
    spec.withoutData.withoutData = spec.withoutData := by
  have hmap : (spec.features.dictionary.map DicImportDescriptor.withoutData).map
      DicImportDescriptor.withoutData
        = spec.features.dictionary.map DicImportDescriptor.withoutData :=
    StdList.ext (List.map_map ..)
  simp only [AnalysisSpec.withoutData, FeaturesSpec.withoutData, hmap]

theorem map_eq_self_iff {α : Type} {f : α → α} {l : StdList α} :
    l.map f = l ↔ ∀ a ∈ l.elems, f a = a := by
  have hinj := List.map_inj_left (f := f) (g := id) (l := l.elems)
  rw [List.map_id] at hinj
  exact ⟨fun h => hinj.mp (congrArg StdList.elems h), fun h => StdList.ext (hinj.mpr h)⟩

theorem UnkMakerFeature.withoutTarget_eq_iff (o : UnkMakerFeature) :
    o.withoutTarget = o ↔ o.targetFeature = 0 := by
  cases o
  simp [UnkMakerFeature.withoutTarget, eq_comm]

theorem UnkProcessorDescriptor.withoutTargets_eq_iff (o : UnkProcessorDescriptor) :
    o.withoutTargets = o ↔ ∀ f ∈ o.features.elems, f.targetFeature = 0 := by
  have hmap := map_eq_self_iff (f := UnkMakerFeature.withoutTarget) (l := o.features)
  simp only [UnkMakerFeature.withoutTarget_eq_iff] at hmap
  rw [← hmap]
  cases o
  simp [UnkProcessorDescriptor.withoutTargets]

/-- A loaded spec has lost the raw data and the targets, and nothing else. -/
theorem loadSpec_saveSpec {limits : VectorLimits} {spec s : AnalysisSpec} :
    loadSpec limits (saveSpec spec) = .ok (some s) ↔
      (type AnalysisSpec).Fits (toValue spec) ∧
        s = { spec.withoutData with
          unkCreators := spec.unkCreators.map UnkProcessorDescriptor.withoutTargets } := by
  have hdata : (type AnalysisSpec).HasData := Or.inl trivial
  rw [loadSpec, saveSpec, load_save_iff, AnalysisSpec.ofValue_toValue]
  exact and_iff_right hdata

/-- A spec is restored exactly when its vectors fit and no unknown word maker has a feature whose
target is not the feature 0. -/
theorem loadSpec_restores_iff (limits : VectorLimits) (spec : AnalysisSpec) :
    (∃ s, loadSpec limits (saveSpec spec) = .ok (some s) ∧ s.withoutData = spec.withoutData) ↔
      (type AnalysisSpec).Fits (toValue spec) ∧
        ∀ u ∈ spec.unkCreators.elems, ∀ f ∈ u.features.elems, f.targetFeature = 0 := by
  have htargets : ({ spec.withoutData with
      unkCreators := spec.unkCreators.map UnkProcessorDescriptor.withoutTargets } :
        AnalysisSpec).withoutData = spec.withoutData ↔
      ∀ u ∈ spec.unkCreators.elems, ∀ f ∈ u.features.elems, f.targetFeature = 0 := by
    have hmap := map_eq_self_iff (f := UnkProcessorDescriptor.withoutTargets)
      (l := spec.unkCreators)
    simp only [UnkProcessorDescriptor.withoutTargets_eq_iff] at hmap
    rw [← hmap]
    constructor
    · intro h
      exact congrArg AnalysisSpec.unkCreators h
    · intro h
      rw [h]
      exact spec.withoutData_idem
  simp only [loadSpec_saveSpec]
  constructor
  · rintro ⟨s, ⟨hfits, rfl⟩, hsame⟩
    exact ⟨hfits, htargets.mp hsame⟩
  · rintro ⟨hfits, hzero⟩
    exact ⟨_, ⟨hfits, rfl⟩, htargets.mpr hzero⟩

/-! ## A spec with a placeholder -/

/-- The field `i` of a dictionary of strings without an own storage name. -/
def stringField (i : Nat) (dicIndex : Int32) (name : StdString) (isTrieKey : Bool) :
    FieldDescriptor where
  specIndex := Int32.ofNat i
  position := Int32.ofNat (i + 1)
  dicIndex := dicIndex
  name := name
  isTrieKey := isTrieKey
  fieldType := .of .String
  listSeparator := ⟨[0x20], by decide⟩
  kvSeparator := ⟨[0x3a], by decide⟩
  stringStorage := Int32.ofNat i

/-- What is compiled for `field 1 a string trie_index`, `field 2 b string`,
`feature f placeholder`, `unk k template row 1 single katakana feature to f` and `ngram [a, f]`. -/
def placeholderSpec : AnalysisSpec where
  dictionary :=
    { fields := ⟨[stringField 0 0 ⟨[0x61], by decide⟩ true,
        stringField 1 (-1) ⟨[0x62], by decide⟩ false], by decide⟩
      aliasingSet := ⟨[0], by decide⟩
      indexColumn := 0
      numIntStorage := 0
      numStringStorage := 2 }
  features :=
    { dictionary := ⟨[
        { index := 0, target := 0, name := ⟨[0x61], by decide⟩, kind := .of .ImportAsFeature,
          references := ⟨[0], by decide⟩ },
        { index := 1, target := 0, name := ⟨[0x62], by decide⟩, kind := .of .ImportAsData,
          references := ⟨[1], by decide⟩ }], by decide⟩
      primitive := ⟨[
        { index := 0, name := ⟨[0x61], by decide⟩, kind := .of .Copy,
          references := ⟨[0], by decide⟩ },
        { index := 1, name := ⟨[0x66], by decide⟩, kind := .of .Provided,
          references := ⟨[0], by decide⟩ }], by decide⟩
      computation := ⟨[
        { name := ⟨[0x61], by decide⟩, index := 0, primitiveFeature := 0 },
        { name := ⟨[0x66], by decide⟩, index := 1, primitiveFeature := 1 }], by decide⟩
      pattern := ⟨[{ index := 0, usage := 1, references := ⟨[0, 1], by decide⟩ }], by decide⟩
      ngram := ⟨[{ index := 0, references := ⟨[0], by decide⟩ }], by decide⟩
      numPlaceholders := 1
      totalPrimitives := 2
      numDicFeatures := 1
      numDicData := 1
      numUniOnlyPats := 1 }
  unkCreators := ⟨[
    { index := 0, name := ⟨[0x6b], by decide⟩, type := .of .Single, patternRow := 1,
      charClass := CharacterClass.KATAKANA,
      features := ⟨[
        { targetPlaceholder := 0, targetFeature := 1,
          featureType := .of .NotPrefixOfDic }], by decide⟩ }], by decide⟩
  training := { surfaceIdx := -1 }

theorem loadSpec_drops_target :
    ¬ ∀ (limits : VectorLimits) (spec : AnalysisSpec),
      ∃ s, loadSpec limits (saveSpec spec) = .ok (some s) ∧ s.withoutData = spec.withoutData := by
  intro h
  obtain ⟨s, hload, hsame⟩ := h VectorLimits.ofPtrdiff placeholderSpec
  obtain ⟨-, rfl⟩ := loadSpec_saveSpec.mp hload
  have hfeatures := congrArg
    (fun spec : AnalysisSpec => spec.unkCreators.elems.map
      fun u => u.features.elems.map UnkMakerFeature.targetFeature) hsame
  exact absurd hfeatures (by decide)

end Jumanpp.Core.Spec
