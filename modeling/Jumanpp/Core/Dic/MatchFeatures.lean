import Mathlib
import Jumanpp.Core.Dic.MatchFields
import Jumanpp.Core.Spec.FilledFeatures

/-!
# The match features of a compiled definition

The imports of a compiled definition become the features of the dictionary entries.  Every match feature
has a bit of its own there, so that the order of the features does not matter.
-/

namespace Jumanpp.Core.Dic

open Jumanpp.Lib Jumanpp.Util Jumanpp.Core.Spec Jumanpp.Core.Spec.SpecCompiler

/-- What the features are made from: the storages and importers of the fields by their index, and the
lines of the match features. -/
structure DicFeatureContext where
  column : Int → StringColumn
  importer : Int → Row → Int32
  listSeparator : Int → List UInt8
  kvSeparator : Int → List UInt8
  data : DicImport → List (List UInt8)

namespace DicFeatureContext

variable (ctx : DicFeatureContext)

def descriptor (f : DicImport) : MatchDescriptor :=
  ⟨f.target.toNat, f.shift.toNat, ctx.data f⟩

def columns (f : DicImport) : List StringColumn :=
  f.references.map ctx.column

/-- `createFeature` for everything but the data of an entry. -/
def createFeature (f : DicImport) : Option DicFeature :=
  match f.kind with
  | .ImportAsFeature =>
      match f.references with
      | [ref] => some (.ImportField f.target.toNat (ctx.importer ref))
      | _ => none
  | .MatchListKey =>
      match f.references with
      | [ref] => (MatchListDicFeatureImpl.initializeFrom (ctx.column ref).mapping ref.toNat
          (ctx.listSeparator ref) (ctx.kvSeparator ref) (ctx.descriptor f)).map .MatchList
      | _ => none
  | .MatchFields =>
      (MatchFieldTupleDicFeatureImpl.initializeFrom (ctx.columns f) (ctx.descriptor f)).map
        .MatchFieldTuple
  | _ => none

/-- The data of an entry goes to `content_`. -/
def createFeatures : List DicImport → Option (List DicFeature)
  | [] => some []
  | f :: dictionary =>
      if f.isData then createFeatures dictionary
      else do
        let feature ← ctx.createFeature f
        let features ← createFeatures dictionary
        some (feature :: features)

variable {ctx}

/-- The feature that is made from an import. -/
structure Makes (f : DicImport) (feature : DicFeature) : Prop where
  target : feature.target = f.target.toNat
  place : f.isMatch = true → feature.place = some (f.target.toNat, f.shift.toNat)
  none : f.isMatch = false → feature.place = none

theorem makes_createFeature {f : DicImport} {feature : DicFeature}
    (h : ctx.createFeature f = some feature) : Makes f feature := by
  unfold createFeature at h
  split at h
  next hkind =>
    have hmatch : f.isMatch = false := by simp [DicImport.isMatch, hkind]
    split at h
    · cases h
      exact ⟨rfl, fun htrue => absurd htrue (by simp [hmatch]), fun _ => rfl⟩
    · cases h
  next hkind =>
    have hmatch : f.isMatch = true := by simp [DicImport.isMatch, hkind]
    split at h
    · obtain ⟨impl, himpl, rfl⟩ := Option.map_eq_some_iff.mp h
      unfold MatchListDicFeatureImpl.initializeFrom at himpl
      split at himpl
      · cases himpl
        exact ⟨rfl, fun _ => rfl, fun hfalse => absurd hfalse (by simp [hmatch])⟩
      · cases himpl
    · cases h
  next hkind =>
    have hmatch : f.isMatch = true := by simp [DicImport.isMatch, hkind]
    obtain ⟨impl, himpl, rfl⟩ := Option.map_eq_some_iff.mp h
    obtain ⟨data, -, rfl⟩ := Option.map_eq_some_iff.mp himpl
    exact ⟨rfl, fun _ => rfl, fun hfalse => absurd hfalse (by simp [hmatch])⟩
  next => cases h

theorem forall₂_createFeatures {dictionary : List DicImport} {features : List DicFeature}
    (h : ctx.createFeatures dictionary = some features) :
    List.Forall₂ (fun f feature => ctx.createFeature f = some feature)
      (dictionary.filter fun f => !f.isData) features := by
  induction dictionary generalizing features with
  | nil =>
      cases h
      exact .nil
  | cons f dictionary ih =>
      unfold createFeatures at h
      by_cases hdata : f.isData = true
      · rw [if_pos hdata] at h
        rw [List.filter_cons_of_neg (by simp [hdata])]
        exact ih h
      · rw [if_neg hdata] at h
        obtain ⟨feature, hfeature, h⟩ := Option.bind_eq_some_iff.mp h
        obtain ⟨rest, hrest, h⟩ := Option.bind_eq_some_iff.mp h
        cases h
        rw [List.filter_cons_of_pos (by simp [hdata])]
        exact .cons hfeature (ih hrest)

/-- Every feature comes from an import that is not data. -/
theorem exists_import {dictionary : List DicImport} {features : List DicFeature}
    (hfeatures : ctx.createFeatures dictionary = some features) {feature : DicFeature}
    (hfeature : feature ∈ features) :
    ∃ f ∈ dictionary, f.isData = false ∧ Makes f feature := by
  obtain ⟨f, hf, hmade⟩ := exists_of_forall₂_right (forall₂_createFeatures hfeatures) hfeature
  obtain ⟨hf, hdata⟩ := List.mem_filter.mp hf
  exact ⟨f, hf, by simpa using hdata, makes_createFeature hmade⟩

/-- Two match features of a dictionary never have the same bit. -/
theorem pairwise_places {dictionary : List DicImport}
    (h : ((dictionary.filter DicImport.isMatch).map fun d => (d.target, d.shift)).Nodup) :
    (dictionary.filter fun f => !f.isData).Pairwise fun d e =>
      d.isMatch = true → e.isMatch = true → (d.target, d.shift) ≠ (e.target, e.shift) := by
  have hall : dictionary.Pairwise fun d e =>
      d.isMatch = true → e.isMatch = true → (d.target, d.shift) ≠ (e.target, e.shift) := by
    rw [List.Nodup, List.pairwise_map, List.pairwise_filter] at h
    exact h.imp fun hne hd he => hne hd he
  exact hall.filter _

section Table

variable {bldr : ModelSpecBuilder} {g : Gathered} {fields : List Field} {imports : List DicImport}
  {st : DicState} {dic : DicNumbers} (h : DicMade bldr g fields imports st dic)
  {features : List DicFeature} (hfeatures : ctx.createFeatures dic.dictionary = some features)

include h hfeatures

theorem distinct_features : features.Pairwise DicFeature.Apart := by
  have hmade := forall₂_createFeatures hfeatures
  have hplaces := pairwise_places h.nodup_matchImports
  have hwith : (dic.dictionary.filter fun f => !f.isData).Pairwise fun d e =>
      (d ∈ dic.dictionary ∧ e ∈ dic.dictionary) ∧
        (d.isMatch = true → e.isMatch = true → (d.target, d.shift) ≠ (e.target, e.shift)) := by
    apply hplaces.imp_of_mem
    intro d e hd he hne
    exact ⟨⟨(List.mem_filter.mp hd).1, (List.mem_filter.mp he).1⟩, hne⟩
  refine pairwise_of_forall₂ hmade ?_ hwith
  rintro d e feature feature' hd he ⟨⟨hdmem, hemem⟩, hne⟩
  have hmakes := makes_createFeature hd
  have hmakes' := makes_createFeature he
  by_cases hmatch : d.isMatch = true
  · by_cases hmatch' : e.isMatch = true
    · refine .inr fun hsame => hne hmatch hmatch' ?_
      rw [hmakes.place hmatch, hmakes'.place hmatch'] at hsame
      obtain ⟨htarget, hshift⟩ := Prod.mk.injEq _ _ _ _ ▸ Option.some.inj hsame
      obtain ⟨k, -, hk⟩ := h.target_feature hdmem (DicImport.isMatch_iff.mp hmatch).isData
      obtain ⟨k', -, hk'⟩ := h.target_feature hemem (DicImport.isMatch_iff.mp hmatch').isData
      have hpos := (h.matchImport hdmem hmatch).2.1
      have hpos' := (h.matchImport hemem hmatch').2.1
      rw [Prod.mk.injEq]
      constructor
      · omega
      · omega
    · refine .inr fun hsame => ?_
      rw [hmakes.place hmatch, hmakes'.none (by simpa using hmatch')] at hsame
      cases hsame
  · exact .inl (hmakes.none (by simpa using hmatch))

/-- The features of a compiled definition. -/
def table : FeatureTable where
  numDicFeatures := dic.numDicFeatures
  features := features
  distinct := distinct_features h hfeatures
  separate f hf hnone g hg hsome := by
    obtain ⟨d, hd, hdata, hmakes⟩ := exists_import hfeatures hf
    obtain ⟨e, he, hdata', hmakes'⟩ := exists_import hfeatures hg
    have hmatch : d.isMatch = false := by
      by_contra hmatch
      rw [hmakes.place (by simpa using hmatch)] at hnone
      cases hnone
    have hmatch' : e.isMatch = true := by
      by_contra hmatch'
      exact hsome (hmakes'.none (by simpa using hmatch'))
    have hne := h.target_ne_of_isMatch hd hdata hmatch he hmatch'
    obtain ⟨k, -, hk⟩ := h.target_feature hd hdata
    obtain ⟨k', -, hk'⟩ := h.target_feature he hdata'
    rw [hmakes.target, hmakes'.target]
    omega
  target_lt f hf := by
    obtain ⟨d, hd, hdata, hmakes⟩ := exists_import hfeatures hf
    obtain ⟨k, hk, htarget⟩ := h.target_feature hd hdata
    rw [hmakes.target, htarget]
    exact hk
  shift_lt f hf p hp := by
    obtain ⟨d, hd, hdata, hmakes⟩ := exists_import hfeatures hf
    by_cases hmatch : d.isMatch = true
    · have hshift := (h.matchImport hd hmatch).2
      rw [hmakes.place hmatch] at hp
      cases hp
      show d.shift.toNat < 32
      omega
    · rw [hmakes.none (by simpa using hmatch)] at hp
      cases hp

end Table

/-- The bit of a match feature is set if and only if the strings of the row are those of a line, and
applying another feature never changes it. -/
def Decides (ctx : DicFeatureContext) (numDicFeatures : Nat) (features : List DicFeature)
    (f : DicImport) (csv : Row) : Prop :=
  (∀ order : List DicFeature, order.Perm features →
    (bitAt (computeFeatures numDicFeatures order csv) f.target.toNat f.shift.toNat = true ↔
      MatchFieldTupleDicFeatureImpl.stringsOf (ctx.columns f) csv ∈
        MatchFieldTupleDicFeatureImpl.linesOf (ctx.descriptor f))) ∧
  ∀ feature ∈ features, feature.place ≠ some (f.target.toNat, f.shift.toNat) →
    ∀ data : FeatureData, data.length = numDicFeatures →
      bitAt (feature.apply data csv) f.target.toNat f.shift.toNat =
        bitAt data f.target.toNat f.shift.toNat

/-- The feature that is made from an import of tuples. -/
theorem exists_matchFieldTuple {dictionary : List DicImport} {features : List DicFeature}
    (hfeatures : ctx.createFeatures dictionary = some features) {f : DicImport} (hf : f ∈ dictionary)
    (hkind : f.kind = .MatchFields) : ∃ impl, .MatchFieldTuple impl ∈ features ∧
      MatchFieldTupleDicFeatureImpl.initializeFrom (ctx.columns f) (ctx.descriptor f) = some impl ∧
      (DicFeature.MatchFieldTuple impl).place = some (f.target.toNat, f.shift.toNat) := by
  have hdata : f.isData = false := by simp [DicImport.isData, hkind]
  have hmatch : f.isMatch = true := by simp [DicImport.isMatch, hkind]
  obtain ⟨feature, hmem, hmade⟩ := exists_of_forall₂_left (forall₂_createFeatures hfeatures)
    (List.mem_filter.mpr ⟨hf, by simp [hdata]⟩)
  have hplace := (makes_createFeature hmade).place hmatch
  simp only [createFeature, hkind] at hmade
  obtain ⟨impl, himpl, rfl⟩ := Option.map_eq_some_iff.mp hmade
  exact ⟨impl, hmem, himpl, hplace⟩

/-- For every match feature over tuples of a compiled definition and every row. -/
theorem decides_iff {maxDicFields : Nat} (hmax : maxDicFields < 2 ^ 31)
    {pats : MapOrder (List Int) PatternFeatureInfo} {feats : MapOrder SpecName AccessFeatureInfo}
    {bldr : ModelSpecBuilder} {r : CompiledSpec} (hr : bldr.build maxDicFields pats feats = some r)
    {features : List DicFeature} (hfeatures : ctx.createFeatures r.dic.dictionary = some features)
    {f : DicImport} (hf : f ∈ r.dic.dictionary) (hkind : f.kind = .MatchFields) (csv : Row) :
    Decides ctx r.dic.numDicFeatures features f csv ↔
      MatchFieldTupleDicFeatureImpl.Matchable (ctx.columns f)
        (MatchFieldTupleDicFeatureImpl.linesOf (ctx.descriptor f)) csv := by
  obtain ⟨g, fields, imports, st, h⟩ := dicMade_of_build hmax hr
  obtain ⟨impl, himpl, hinit, hplace⟩ := exists_matchFieldTuple hfeatures hf hkind
  have hbit : ∀ order : List DicFeature, order.Perm features →
      bitAt (computeFeatures r.dic.numDicFeatures order csv) f.target.toNat f.shift.toNat =
        impl.contains csv := by
    intro order horder
    exact (table h hfeatures).bitAt_computeFeatures horder himpl hplace csv
  rw [← MatchFieldTupleDicFeatureImpl.contains_iff_mem_iff hinit csv]
  constructor
  · intro hdecides
    have hrow := hdecides.1 features (.refl _)
    rw [hbit features (.refl _)] at hrow
    exact hrow
  · intro hrow
    constructor
    · intro order horder
      rw [hbit order horder]
      exact hrow
    · intro feature hfeature hne data hlength
      rw [(table h hfeatures).bitAt_apply hfeature hlength himpl hplace, decide_eq_false hne,
        Bool.false_and, Bool.or_false]

/-! ## A declared empty value -/

/-- A match feature over one field. -/
def particle : ModelSpecBuilder where
  fields := [⟨[112], .String, true⟩]
  features := [{ name := [109], type := .MatchCsv, fields := [[112]] }]
  ngrams := [.unigram [[109]]]
  unks := []

theorem nodup_particle_names : ([[109], [112]] : List SpecName).Nodup := by decide

def particleImport : DicImport := ⟨1, 1, 0, [109], .MatchFields, [0]⟩

def particleCompiled : CompiledSpec where
  dic := {
    dictionary := [⟨0, 0, invalidInt, [112], .ImportAsFeature, [0]⟩, particleImport]
    fields := [⟨0, 0, [112], true, .String⟩, ⟨1, 1, autogenName 1, false, .Int⟩]
    computeByName := ⟨[([109], { number := 0, dicFinalNumber := 1, shift := 0 }),
      ([112], { number := 1, dicFinalNumber := 0 })], nodup_particle_names⟩
    numDicData := 0
    numDicFeatures := 2 }
  filled := {
    primitive := [⟨0, [109], .SingleBit, [1, 0]⟩, ⟨1, [112], .Copy, [0]⟩]
    computation := [⟨[109], 0, 0, [], []⟩, ⟨[112], 1, 1, [], []⟩]
    numPlaceholders := 0 }
  patterns := ⟨[⟨0, 1, [0]⟩], [⟨0, [0]⟩], 1⟩

theorem build_particle :
    particle.build 16 (MapOrder.inserted _ _) (MapOrder.inserted _ _) = some particleCompiled := by
  have hsort : particle.sortNgrams = particle := by
    unfold ModelSpecBuilder.sortNgrams particle
    rw [sortByKey_singleton]
  let compute : ComputeMap := ⟨[([109], { number := 0 }), ([112], { number := 1 })], nodup_particle_names⟩
  let patterns : PatternMap := ⟨[([0], ⟨0, 1⟩)], List.nodup_singleton _⟩
  rw [ModelSpecBuilder.build, if_pos (by decide), hsort]
  unfold SpecCompiler.build
  refine Option.bind_eq_some_iff.mpr ⟨[⟨0, invalidInt, [112], true, .String⟩], rfl, ?_⟩
  refine Option.bind_eq_some_iff.mpr ⟨⟨compute, patterns⟩, rfl, ?_⟩
  refine Option.bind_eq_some_iff.mpr ⟨particleCompiled.patterns, ?_, ?_⟩
  · have hgroup : groupPatternFeatures patterns [([0], ⟨0, 1⟩)] = patterns := by
      rw [groupPatternFeatures, sortByKey_singleton]
      rfl
    rw [compilePatterns, if_pos (by decide)]
    dsimp only [MapOrder.inserted]
    rw [hgroup]
    rfl
  have hdic : makeDicFeatures particle.features ⟨compute, patterns⟩
      [⟨0, invalidInt, [112], true, .String⟩] = some particleCompiled.dic := by
    have hsorted := @sortByKey_of_pairwise _ (fun d : DicImport => kindValue d.kind)
      [⟨0, 0, invalidInt, [112], .ImportAsFeature, [0]⟩, particleImport] (by decide)
    unfold makeDicFeatures
    show Option.bind (List.foldlM numberData _ (sortByKey (fun d : DicImport => kindValue d.kind)
      [⟨0, 0, invalidInt, [112], .ImportAsFeature, [0]⟩, particleImport])) _ = _
    rw [hsorted]
    rfl
  exact Option.bind_eq_some_iff.mpr ⟨particleCompiled.dic, hdic, rfl⟩

/-- `*`, the declared empty value of the field. -/
def star : List UInt8 := [42]

/-- No row has anything else in the field, so that its storage is empty. -/
def starContext : DicFeatureContext where
  column := fun _ => ⟨[], 0⟩
  importer := fun _ _ => fieldPointer [] star star
  listSeparator := fun _ => []
  kvSeparator := fun _ => []
  data := fun _ => [star]

def starFeatures : List DicFeature :=
  [.ImportField 0 fun _ => fieldPointer [] star star, .MatchFieldTuple ⟨[⟨[], 0⟩], 1, 0, []⟩]

theorem parseLine_star : parseLine star = some [star] := by
  simp [parseLine, star, Csv.CsvReader.initFromMemory, Csv.CsvReader.nextLine,
    Csv.CsvReader.nextLineLoop, Csv.CsvReader.startLine, Csv.CsvReader.finish, Csv.emit, Csv.lineFeed,
    Csv.carriageReturn, comma, doubleQuote]

theorem createFeatures_star :
    starContext.createFeatures particleCompiled.dic.dictionary = some starFeatures := by
  have hinit : MatchFieldTupleDicFeatureImpl.initializeFrom (starContext.columns particleImport)
      (starContext.descriptor particleImport) = some ⟨[⟨[], 0⟩], 1, 0, []⟩ := by
    unfold MatchFieldTupleDicFeatureImpl.initializeFrom
    show (MatchFieldTupleDicFeatureImpl.initializeData false [⟨[], 0⟩] [star]).map _ = _
    rw [MatchFieldTupleDicFeatureImpl.initializeData, parseLine_star]
    rfl
  show starContext.createFeatures [⟨0, 0, invalidInt, [112], .ImportAsFeature, [0]⟩, particleImport] =
    some starFeatures
  have hmatch : starContext.createFeature particleImport =
      some (.MatchFieldTuple ⟨[⟨[], 0⟩], 1, 0, []⟩) := by
    show (MatchFieldTupleDicFeatureImpl.initializeFrom _ _).map _ = _
    rw [hinit]
    rfl
  have hrest : starContext.createFeatures [particleImport] =
      some [.MatchFieldTuple ⟨[⟨[], 0⟩], 1, 0, []⟩] := by
    show (starContext.createFeature particleImport).bind _ = _
    rw [hmatch]
    rfl
  show (starContext.createFeatures [particleImport]).bind _ = _
  rw [hrest]
  rfl

theorem linesOf_star :
    MatchFieldTupleDicFeatureImpl.linesOf (starContext.descriptor particleImport) = [[star]] := by
  show [star].filterMap parseLine = _
  rw [List.filterMap_cons_some parseLine_star]
  rfl

theorem decides_iff_star : Decides starContext 2 starFeatures particleImport [[97]] ↔
    MatchFieldTupleDicFeatureImpl.Matchable (starContext.columns particleImport)
      (MatchFieldTupleDicFeatureImpl.linesOf (starContext.descriptor particleImport)) [[97]] :=
  decides_iff (by norm_num) build_particle createFeatures_star
    (List.mem_cons_of_mem _ (List.mem_singleton_self _)) rfl [[97]]

/-- The line `*` is left out, because the importer of the field never stores its empty value: the row
with `*` equals the line, and its bit is not set. -/
theorem star_not_matched :
    ¬ ∀ (ctx : DicFeatureContext) (maxDicFields : Nat) (pats : MapOrder (List Int) PatternFeatureInfo)
        (feats : MapOrder SpecName AccessFeatureInfo) (bldr : ModelSpecBuilder) (r : CompiledSpec)
        (features : List DicFeature) (f : DicImport) (csv : Row),
        bldr.build maxDicFields pats feats = some r →
        ctx.createFeatures r.dic.dictionary = some features →
        f ∈ r.dic.dictionary → f.kind = .MatchFields →
        Decides ctx r.dic.numDicFeatures features f csv := by
  intro hall
  have hdecides := hall starContext 16 _ _ _ _ _ particleImport [star] build_particle
    createFeatures_star (List.mem_cons_of_mem _ (List.mem_singleton_self _)) rfl
  have hrow := hdecides.1 starFeatures (.refl _)
  have hmem : [star] ∈ MatchFieldTupleDicFeatureImpl.linesOf
      (starContext.descriptor particleImport) := by
    rw [linesOf_star]
    exact List.mem_singleton_self _
  have hbit := hrow.mpr hmem
  exact absurd hbit (by decide)

end DicFeatureContext

end Jumanpp.Core.Dic
