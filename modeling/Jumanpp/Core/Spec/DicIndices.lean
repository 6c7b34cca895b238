import Mathlib
import Jumanpp.Core.Spec.DicFeatures
import Jumanpp.Core.Spec.PatternGroups
import Jumanpp.Lib.Loops
import Jumanpp.Lib.Slots

/-!
# The indices of the fields

The imports say which field each of them fills.  The loops over the sorted imports number the fields from
both ends: the data fields from `~0` down and the fields of features from `0` up.
-/

namespace Jumanpp.Core.Spec.SpecCompiler

open Jumanpp.Lib

/-! ## Registered names -/

theorem mem_foldl_registerFeature (names : List SpecName) {m : ComputeMap} {name : SpecName}
    (hname : name ∈ names ∨ name ∈ m.keys) : name ∈ (names.foldl registerFeature m).keys := by
  induction names generalizing m with
  | nil =>
      rcases hname with hname | hname
      · cases hname
      · exact hname
  | cons first names ih =>
      rw [List.foldl_cons]
      apply ih
      rcases hname with hname | hname
      · rcases List.mem_cons.mp hname with rfl | hname
        · exact .inr (mem_registerFeature m name)
        · exact .inl hname
      · exact .inr ((prefix_registerFeature m first).subset hname)

/-- A field whose values a feature can be has been registered if a feature refers to it. -/
theorem mem_foldlM_registerField {fields : List Field} (refs : List SpecName) {m m' : ComputeMap}
    (hm : Numbered m) (h : refs.foldlM (registerField fields) m = some m') {ref : SpecName}
    (href : ref ∈ refs) {fld : Field} (hfld : fieldByName fields ref = some fld)
    (htype : fld.fieldType = .String ∨ fld.fieldType = .Int) : ref ∈ m'.keys := by
  induction refs generalizing m with
  | nil => cases href
  | cons first refs ih =>
      rw [List.foldlM_cons] at h
      obtain ⟨m₁, hfirst, hrest⟩ := Option.bind_eq_some_iff.mp h
      have hm₁ := registers_registerField hm hfirst
      rcases List.mem_cons.mp href with rfl | href
      · have hregisters := registers_foldlM (fun _ _ _ hm href => registers_registerField hm href)
          refs hm₁.numbered hrest
        apply hregisters.keys.subset
        unfold registerField at hfirst
        rw [hfld] at hfirst
        cases hfirst
        rcases htype with htype | htype
        all_goals
          simp only [htype]
          exact mem_registerFeature m ref
      · exact ih hm₁.numbered hrest href

/-- What a feature refers to has been registered. -/
structure Referred (fields : List Field) (f : FeatureBuilder) (m : ComputeMap) : Prop where
  trueBranch : ∀ name ∈ f.trueTransforms, name ∈ m.keys
  falseBranch : ∀ name ∈ f.falseTransforms, name ∈ m.keys
  field : ∀ ref ∈ f.fields, ∀ fld, fieldByName fields ref = some fld →
    fld.fieldType = .String ∨ fld.fieldType = .Int → ref ∈ m.keys

theorem Referred.mono {fields : List Field} {f : FeatureBuilder} {m m' : ComputeMap}
    (h : Referred fields f m) (hm : Registers m m') : Referred fields f m' where
  trueBranch name hname := hm.keys.subset (h.trueBranch name hname)
  falseBranch name hname := hm.keys.subset (h.falseBranch name hname)
  field ref href fld hfld htype := hm.keys.subset (h.field ref href fld hfld htype)

theorem referred_registerReferences {fields : List Field} {m m' : ComputeMap} (hm : Numbered m)
    {f : FeatureBuilder} (h : registerReferences fields m f = some m') : Referred fields f m' := by
  unfold registerReferences at h
  have htrue := registers_names f.trueTransforms hm
  have hfalse := registers_names f.falseTransforms htrue.numbered
  have hfields := registers_foldlM (fun _ _ _ hm href => registers_registerField hm href)
    f.fields hfalse.numbered h
  refine ⟨?_, ?_, ?_⟩
  · intro name hname
    apply hfields.keys.subset
    exact mem_foldl_registerFeature _ (.inr (mem_foldl_registerFeature _ (.inl hname)))
  · intro name hname
    apply hfields.keys.subset
    exact mem_foldl_registerFeature _ (.inl hname)
  · intro ref href fld hfld htype
    exact mem_foldlM_registerField f.fields hfalse.numbered h href hfld htype

theorem referred_gatherFeatureInfo {bldr : ModelSpecBuilder} {fields : List Field} {g : Gathered}
    (h : gatherFeatureInfo bldr fields = some g) {f : FeatureBuilder} (hf : f ∈ bldr.features) :
    Referred fields f g.computeByName := by
  obtain ⟨m, hm, rfl⟩ := Option.map_eq_some_iff.mp h
  have hngrams := gathers_foldl (occurrences bldr.ngrams) gathers_empty
  rw [List.nil_append, ← foldl_gatherNgram] at hngrams
  have hunks := registers_foldl (fun _ unk hm => registers_registerUnk hm unk) bldr.unks
    hngrams.compute
  obtain ⟨before, after, hsplit⟩ := List.append_of_mem hf
  rw [hsplit, List.foldlM_append] at hm
  obtain ⟨m₁, hbefore, hm⟩ := Option.bind_eq_some_iff.mp hm
  rw [List.foldlM_cons] at hm
  obtain ⟨m₂, hturn, hafter⟩ := Option.bind_eq_some_iff.mp hm
  have hstep := fun (m : ComputeMap) (f : FeatureBuilder) (m' : ComputeMap) (hm : Numbered m)
    (hf : registerReferences fields m f = some m') => registers_registerReferences hm hf
  have hbefore' := registers_foldlM hstep before hunks.numbered hbefore
  have hturn' := registers_registerReferences hbefore'.numbered hturn
  exact (referred_registerReferences hbefore'.numbered hturn).mono
    (registers_foldlM hstep after hturn'.numbered hafter)

/-! ## Fields -/

/-- What a field is apart from its index. -/
def Field.shape (fld : Field) : Int × SpecName × Bool × FieldTypeName :=
  (fld.specIndex, fld.name, fld.isTrieKey, fld.fieldType)

theorem map_shape_setDicIndex (fields : List Field) (i : Nat) (dicIndex : Int) :
    (setDicIndex fields i dicIndex).map Field.shape = fields.map Field.shape := by
  apply List.ext_getElem?
  intro j
  rw [List.getElem?_map, List.getElem?_map, setDicIndex, List.getElem?_modify]
  cases fields[j]? with
  | none => rfl
  | some fld =>
      show some (Field.shape (if i = j then _ else fld)) = some fld.shape
      split_ifs
      · rfl
      · rfl

theorem map_dicIndex_setDicIndex (fields : List Field) (i : Nat) (dicIndex : Int) :
    (setDicIndex fields i dicIndex).map Field.dicIndex =
      (fields.map Field.dicIndex).set i dicIndex := by
  apply List.ext_getElem?
  intro j
  rw [List.getElem?_map, setDicIndex, List.getElem?_modify, List.getElem?_set', List.getElem?_map]
  cases fields[j]? with
  | none => simp
  | some fld =>
      by_cases hij : i = j
      · simp [hij]
      · simp [hij]

theorem map_name_of_shape {fields fields' : List Field}
    (h : fields'.map Field.shape = fields.map Field.shape) :
    fields'.map Field.name = fields.map Field.name := by
  have hnames := congrArg (List.map fun shape => shape.2.1) h
  rw [List.map_map, List.map_map] at hnames
  exact hnames

theorem length_of_shape {fields fields' : List Field}
    (h : fields'.map Field.shape = fields.map Field.shape) : fields'.length = fields.length := by
  have hlength := congrArg List.length h
  rw [List.length_map, List.length_map] at hlength
  exact hlength

/-- The place of a name that stands once in front. -/
theorem fieldPlace_of_nodup {fields : List Field} {names rest : List SpecName} (hnodup : names.Nodup)
    (hfields : fields.map Field.name = names ++ rest) {i : Nat} {name : SpecName}
    (hi : names[i]? = some name) : fieldPlace fields name = some i := by
  obtain ⟨hlt, hget⟩ := List.getElem?_eq_some_iff.mp hi
  have hmap : fieldPlace fields name =
      (fields.map Field.name).findIdx? fun n => decide (name = n) := by
    rw [List.findIdx?_map]
    rfl
  rw [hmap, hfields, List.findIdx?_append]
  have hfirst : names.findIdx? (fun n => decide (name = n)) = some i := by
    rw [List.findIdx?_eq_some_iff_getElem]
    refine ⟨hlt, decide_eq_true hget.symm, ?_⟩
    intro j hji heq
    rw [decide_eq_true_eq, ← hget] at heq
    have hsame := (List.Nodup.getElem_inj_iff hnodup).mp heq
    omega
  rw [hfirst]
  rfl

theorem fieldByName_eq (fields : List Field) (name : SpecName) :
    fieldByName fields name = (fieldPlace fields name).bind (fields[·]?) :=
  List.find?_eq_bind_findIdx?_getElem?

/-- The fields of a definition before anything is known of their indices. -/
structure Built (bldrFields : List FieldBuilder) (fields : List Field) : Prop where
  names : fields.map Field.name = bldrFields.map FieldBuilder.name
  specIndex : ∀ (i : Nat) (fld : Field), fields[i]? = some fld → fld.specIndex = i
  dicIndex : ∀ fld ∈ fields, fld.dicIndex = invalidInt

theorem built_buildFields {bldrFields : List FieldBuilder} {fields : List Field}
    (h : buildFields bldrFields = some fields) : Built bldrFields fields := by
  unfold buildFields at h
  rw [mapM_eq_some_iff, List.forall₂_iff_get] at h
  obtain ⟨hlength, hget⟩ := h
  rw [List.length_zipIdx] at hlength
  have hfield : ∀ i (hi : i < fields.length) (hb : i < bldrFields.length),
      fields[i].name = bldrFields[i].name ∧ fields[i].specIndex = i ∧
        fields[i].dicIndex = invalidInt := by
    intro i hi hb
    have hbuild := hget i (by simpa using hb) hi
    simp only [List.get_eq_getElem, List.getElem_zipIdx, Nat.zero_add] at hbuild
    unfold buildField at hbuild
    split at hbuild
    · cases hbuild
    · rw [← Option.some.inj hbuild]
      exact ⟨rfl, rfl, rfl⟩
  refine ⟨?_, ?_, ?_⟩
  · apply List.ext_getElem
    · simpa using hlength.symm
    · intro i hi hb
      rw [List.length_map] at hi hb
      simpa using (hfield i hi hb).1
  · intro i fld hfld
    obtain ⟨hi, rfl⟩ := List.getElem?_eq_some_iff.mp hfld
    exact (hfield i hi (hlength ▸ hi)).2.1
  · intro fld hfld
    obtain ⟨i, hi, rfl⟩ := List.getElem_of_mem hfld
    exact (hfield i hi (hlength ▸ hi)).2.2

/-! ## The imports of the fields -/

theorem map_importFields (computeByName : ComputeMap) (fields : List Field) :
    (importFields computeByName fields).map (fun d => (d.name, d.target, d.kind)) =
      fields.map fun fld => (fld.name, fld.specIndex, fieldImportKind computeByName fld) := by
  have hloop : ∀ dictionary : List DicImport,
      (fields.foldl (fun dictionary col =>
          addDicImport dictionary col (fieldImportKind computeByName col)) dictionary).map
        (fun d => (d.name, d.target, d.kind)) =
      dictionary.map (fun d => (d.name, d.target, d.kind)) ++
        fields.map fun fld => (fld.name, fld.specIndex, fieldImportKind computeByName fld) := by
    induction fields with
    | nil => simp
    | cons fld fields ih =>
        intro dictionary
        rw [List.foldl_cons, ih]
        simp [addDicImport]
  exact hloop []

theorem fieldImportKind_eq_data_iff {computeByName : ComputeMap} {col : Field} :
    fieldImportKind computeByName col = .ImportAsData ↔ col.name ∉ computeByName.keys := by
  unfold fieldImportKind
  split_ifs with h
  · simp [h]
  · simp [h]

/-! ## Flags -/

/-- An import of a match feature. -/
def DicImport.IsMatch (d : DicImport) : Prop := d.kind = .MatchListKey ∨ d.kind = .MatchFields

/-- The column and the bit of the `k`-th flag behind `base` fields. -/
def flagPlace (base k : Nat) : Int × Int := ((base + k / 31 : Nat), (k % 31 : Nat))

def flagField (base j : Nat) : Field :=
  ⟨(base + j : Nat), invalidInt, autogenName (base + j), false, .Int⟩

/-- The columns that `n` flags need. -/
def flagFields (base n : Nat) : List Field :=
  (List.range ((n + 30) / 31)).map (flagField base)

/-- The state after the imports of some match features have been added. -/
structure Flagged (computeByName : ComputeMap) (fields : List Field) (features : List FeatureBuilder)
    (imports : List DicImport) (st : DicState) : Prop where
  dictionary : st.dictionary = importFields computeByName fields ++ imports
  columns : st.fields = fields ++ flagFields fields.length imports.length
  places : imports.map (fun d => (d.target, d.shift)) =
    (List.range imports.length).map (flagPlace fields.length)
  first : imports = [] → st.currentOffset = 32
  later : imports ≠ [] → st.currentOffset = (imports.length - 1) % 31 + 1 ∧
    st.currentFlagField = (fields.length + (imports.length - 1) / 31 : Nat)
  isMatch : ∀ d ∈ imports, d.IsMatch
  names : imports.map DicImport.name =
    (features.filter FeatureBuilder.isMatch).map FeatureBuilder.name
  keys : st.computeByName.keys = computeByName.keys
  numbered : Numbered st.computeByName
  shift : ∀ d ∈ imports, ∃ info, st.computeByName.find d.name = some info ∧
    ∃ d' ∈ imports, d'.name = d.name ∧ info.shift = d'.shift
  branches : ∀ name info, st.computeByName.find name = some info →
    ∀ b ∈ info.trueBranch ++ info.falseBranch, 0 ≤ b ∧ b < computeByName.size

/-! ## The entries of match features -/

section Cache

variable {m : ComputeMap} (hm : Numbered m) {f : FeatureBuilder} (hname : f.name ∈ m.keys)

include hm

theorem number_nonneg {name : SpecName} {info : AccessFeatureInfo} (hinfo : m.find name = some info) :
    0 ≤ info.number ∧ info.number < m.size :=
  FlatMap.Numbered.lt hm hinfo

include hname

/-- Registering a name once more changes nothing. -/
theorem find_registerFeature (name : SpecName) :
    (registerFeature m f.name).find name = m.find name := by
  unfold registerFeature
  by_cases heq : name = f.name
  · subst heq
    obtain ⟨info, hinfo⟩ := FlatMap.mem_keys_iff.mp hname
    have hpos := (number_nonneg hm hinfo).1
    rw [FlatMap.find_update_self, hinfo, Option.getD_some, if_neg (by omega)]
  · exact FlatMap.find_update_ne m heq _ _

theorem numberOf_registerFeature : numberOf (registerFeature m f.name) = numberOf m := by
  funext name
  unfold numberOf
  rw [find_registerFeature hm hname]

omit hm in
theorem keys_cacheSlot (shift : Int) : (cacheSlot m f shift).keys = m.keys := by
  have hregister : (registerFeature m f.name).keys = m.keys := FlatMap.keys_update_of_mem hname _ _
  unfold cacheSlot
  rw [FlatMap.keys_update_of_mem (mem_registerFeature m f.name), hregister]

omit hname in
theorem numbered_cacheSlot (shift : Int) : Numbered (cacheSlot m f shift) := by
  apply FlatMap.Numbered.update_of_mem (numbered_registerFeature hm f.name)
  · exact mem_registerFeature m f.name
  · intro info _
    rfl

theorem find_cacheSlot_self (shift : Int) : ∃ info, m.find f.name = some info ∧
    (cacheSlot m f shift).find f.name = some
      { info with
        shift := shift
        trueBranch := info.trueBranch ++ f.trueTransforms.map (numberOf m)
        falseBranch := info.falseBranch ++ f.falseTransforms.map (numberOf m) } := by
  obtain ⟨info, hinfo⟩ := FlatMap.mem_keys_iff.mp hname
  refine ⟨info, hinfo, ?_⟩
  unfold cacheSlot
  rw [FlatMap.find_update_self, find_registerFeature hm hname, hinfo, numberOf_registerFeature hm hname]
  rfl

theorem find_cacheSlot_ne (shift : Int) {name : SpecName} (hne : name ≠ f.name) :
    (cacheSlot m f shift).find name = m.find name := by
  unfold cacheSlot
  rw [FlatMap.find_update_ne _ hne, find_registerFeature hm hname]

end Cache

/-! ## The slots of match features -/

theorem flagFields_succ_of_dvd {base n : Nat} (h : n % 31 = 0) :
    flagFields base (n + 1) = flagFields base n ++ [flagField base (n / 31)] := by
  have hn : (n + 30) / 31 = n / 31 := by omega
  have hsucc : (n + 1 + 30) / 31 = n / 31 + 1 := by omega
  rw [flagFields, flagFields, hn, hsucc, List.range_succ, List.map_append]
  rfl

theorem flagFields_succ_of_not_dvd {base n : Nat} (h : n % 31 ≠ 0) :
    flagFields base (n + 1) = flagFields base n := by
  have hsucc : (n + 1 + 30) / 31 = (n + 30) / 31 := by omega
  rw [flagFields, flagFields, hsucc]

section Flagging

variable {computeByName : ComputeMap} {fields : List Field} {features : List FeatureBuilder}
  {imports : List DicImport} {st : DicState}

theorem Flagged.length_fields (h : Flagged computeByName fields features imports st) :
    st.fields.length = fields.length + (imports.length + 30) / 31 := by
  rw [h.columns, List.length_append, flagFields, List.length_map, List.length_range]

theorem Flagged.offset (h : Flagged computeByName fields features imports st) :
    32 ≤ st.currentOffset + 1 ↔ imports.length % 31 = 0 := by
  by_cases hnil : imports = []
  · rw [h.first hnil, hnil]
    decide
  · have hpos := List.length_pos_of_ne_nil hnil
    rw [(h.later hnil).1]
    omega

/-- A new slot is the next place. -/
theorem Flagged.makeIntSlot (h : Flagged computeByName fields features imports st) :
    makeIntSlot 1 st =
      ({ st with
          fields := fields ++ flagFields fields.length (imports.length + 1)
          currentOffset := imports.length % 31 + 1
          currentFlagField := (fields.length + imports.length / 31 : Nat) },
        ((fields.length + imports.length / 31 : Nat) : Int), imports.length % 31) := by
  unfold SpecCompiler.makeIntSlot
  have hoffset := h.offset
  by_cases hfull : imports.length % 31 = 0
  · -- the flags so far fill their columns
    have hlength : st.fields.length = fields.length + imports.length / 31 := by
      rw [h.length_fields]
      omega
    rw [if_pos (hoffset.mpr hfull), flagFields_succ_of_dvd hfull, ← List.append_assoc, ← h.columns,
      hfull]
    unfold addFlagField
    rw [hlength]
    rfl
  · have hnil : imports ≠ [] := by
      rintro rfl
      exact hfull rfl
    have hpos := List.length_pos_of_ne_nil hnil
    have hcolumn : fields.length + (imports.length - 1) / 31 = fields.length + imports.length / 31 := by
      omega
    have hbit : (imports.length - 1) % 31 + 1 = imports.length % 31 := by omega
    obtain ⟨hcurrent, hflag⟩ := h.later hnil
    rw [hcolumn] at hflag
    rw [hbit] at hcurrent
    rw [if_neg (fun hge => hfull (hoffset.mp hge)), flagFields_succ_of_not_dvd hfull, ← h.columns]
    dsimp only
    rw [hcurrent, hflag]

theorem Flagged.complexImportCommonInit (h : Flagged computeByName fields features imports st)
    (f : FeatureBuilder) : complexImportCommonInit f st =
      ({ st with
          fields := fields ++ flagFields fields.length (imports.length + 1)
          currentOffset := imports.length % 31 + 1
          currentFlagField := (fields.length + imports.length / 31 : Nat)
          computeByName := cacheSlot st.computeByName f (imports.length % 31 : Nat) },
        { index := st.dictionary.length
          target := (fields.length + imports.length / 31 : Nat)
          shift := (imports.length % 31 : Nat)
          name := f.name
          kind := .Invalid
          references := [] }) := by
  unfold SpecCompiler.complexImportCommonInit
  rw [h.makeIntSlot]

/-- The import of one more match feature. -/
theorem Flagged.push (h : Flagged computeByName fields features imports st) {f : FeatureBuilder}
    (hname : f.name ∈ computeByName.keys)
    (htrue : ∀ name ∈ f.trueTransforms, name ∈ computeByName.keys)
    (hfalse : ∀ name ∈ f.falseTransforms, name ∈ computeByName.keys) (hmatch : f.isMatch = true)
    {v : DicImport} (hplace : (v.target, v.shift) = flagPlace fields.length imports.length)
    (hv : v.name = f.name) (hkind : v.IsMatch) :
    Flagged computeByName fields (features ++ [f]) (imports ++ [v])
      (pushImport (SpecCompiler.complexImportCommonInit f st).1 v) := by
  have hname' : f.name ∈ st.computeByName.keys := by
    rw [h.keys]
    exact hname
  obtain ⟨info, hinfo, hcache⟩ := find_cacheSlot_self h.numbered hname' (imports.length % 31 : Nat)
  have hother := fun {name : SpecName} (hne : name ≠ f.name) =>
    find_cacheSlot_ne h.numbered hname' (imports.length % 31 : Nat) hne
  have hshift : v.shift = (imports.length % 31 : Nat) := congrArg Prod.snd hplace
  have hsize : st.computeByName.size = computeByName.size := by
    rw [FlatMap.size_eq, h.keys, ← FlatMap.size_eq]
  have hnumber : ∀ name ∈ computeByName.keys, 0 ≤ numberOf st.computeByName name ∧
      numberOf st.computeByName name < computeByName.size := by
    intro name hmem
    rw [← h.keys] at hmem
    have hlt := FlatMap.position_lt hmem
    rw [numberOf_eq h.numbered hmem]
    omega
  rw [h.complexImportCommonInit]
  refine ⟨?_, ?_, ?_, ?_, ?_, ?_, ?_, ?_, ?_, ?_, ?_⟩
  · show st.dictionary ++ [v] = _
    rw [h.dictionary, List.append_assoc]
  · rw [List.length_append, List.length_singleton]
    rfl
  · rw [List.map_append, h.places, List.length_append, List.length_singleton, List.range_succ,
      List.map_append, List.map_singleton, List.map_singleton, hplace]
  · intro hnil
    simp at hnil
  · intro _
    rw [List.length_append, List.length_singleton, Nat.add_sub_cancel]
    exact ⟨rfl, rfl⟩
  · intro d hd
    rcases List.mem_append.mp hd with hd | hd
    · exact h.isMatch d hd
    · rw [List.mem_singleton.mp hd]
      exact hkind
  · rw [List.map_append, h.names, List.filter_append, List.map_append, List.filter_singleton, hmatch,
      List.map_singleton, hv]
    rfl
  · exact (keys_cacheSlot hname' _).trans h.keys
  · exact numbered_cacheSlot h.numbered _
  · intro d hd
    by_cases heq : d.name = f.name
    · refine ⟨_, heq ▸ hcache, v, List.mem_append_right _ List.mem_cons_self, hv.trans heq.symm, ?_⟩
      exact hshift.symm
    · rcases List.mem_append.mp hd with hd | hd
      · obtain ⟨info', hinfo', d', hd', hd'name, hd'shift⟩ := h.shift d hd
        exact ⟨info', (hother heq).trans hinfo', d', List.mem_append_left _ hd', hd'name, hd'shift⟩
      · rw [List.mem_singleton.mp hd] at heq
        exact absurd hv heq
  · intro name info' hinfo' b hb
    change (cacheSlot st.computeByName f (imports.length % 31 : Nat)).find name = some info' at hinfo'
    by_cases heq : name = f.name
    · rw [heq, hcache] at hinfo'
      cases hinfo'
      simp only [List.mem_append, List.mem_map] at hb
      have hold := h.branches f.name info hinfo
      simp only [List.mem_append] at hold
      rcases hb with (hb | ⟨name, hmem, rfl⟩) | (hb | ⟨name, hmem, rfl⟩)
      · exact hold b (.inl hb)
      · exact hnumber name (htrue name hmem)
      · exact hold b (.inr hb)
      · exact hnumber name (hfalse name hmem)
    · rw [hother heq] at hinfo'
      exact h.branches name info' hinfo' b hb

/-- One turn of the loop over the features that something refers to. -/
theorem Flagged.step (h : Flagged computeByName fields features imports st) {f : FeatureBuilder}
    (hname : f.name ∈ computeByName.keys)
    (htrue : ∀ name ∈ f.trueTransforms, name ∈ computeByName.keys)
    (hfalse : ∀ name ∈ f.falseTransforms, name ∈ computeByName.keys) {st' : DicState}
    (hstep : makeDicFeature st f = some st') :
    ∃ imports', Flagged computeByName fields (features ++ [f]) imports' st' := by
  have hother : f.isMatch = false →
      (features ++ [f]).filter FeatureBuilder.isMatch = features.filter FeatureBuilder.isMatch := by
    intro hmatch
    rw [List.filter_append, List.filter_singleton, hmatch]
    exact List.append_nil _
  have hplace : ((SpecCompiler.complexImportCommonInit f st).2.target,
      (SpecCompiler.complexImportCommonInit f st).2.shift) =
        flagPlace fields.length imports.length := by
    rw [h.complexImportCommonInit]
    rfl
  have hnameOf : (SpecCompiler.complexImportCommonInit f st).2.name = f.name := rfl
  unfold makeDicFeature at hstep
  split at hstep
  next htype =>
    have hmatch : f.isMatch = true := by simp [FeatureBuilder.isMatch, htype]
    unfold makeMatchValueFeature at hstep
    split at hstep
    · obtain ⟨fld, -, hstep⟩ := Option.bind_eq_some_iff.mp hstep
      obtain ⟨kind, hkind, hstep⟩ := Option.bind_eq_some_iff.mp hstep
      cases hstep
      refine ⟨_, h.push hname htrue hfalse hmatch hplace hnameOf ?_⟩
      show kind = .MatchListKey ∨ kind = .MatchFields
      unfold matchValueKind at hkind
      split at hkind
      all_goals simp_all
    · cases hstep
  next htype =>
    have hmatch : f.isMatch = true := by simp [FeatureBuilder.isMatch, htype]
    obtain ⟨references, -, hstep⟩ := Option.bind_eq_some_iff.mp hstep
    cases hstep
    exact ⟨_, h.push hname htrue hfalse hmatch hplace hnameOf (.inr rfl)⟩
  next hvalue hcsv =>
    cases hstep
    have hmatch : f.isMatch = false := by
      unfold FeatureBuilder.isMatch
      split
      · exact absurd ‹_› hcsv
      · exact absurd ‹_› hvalue
      · rfl
    refine ⟨imports, { h with names := ?_ }⟩
    rw [hother hmatch]
    exact h.names

end Flagging

/-- No match feature has been made yet. -/
theorem flagged_nil {m : ComputeMap} (hm : Numbered m) (fields : List Field)
    (hbranches : NoBranches m) :
    Flagged m fields [] []
      { fields := fields, dictionary := importFields m fields, computeByName := m } where
  dictionary := (List.append_nil _).symm
  columns := (List.append_nil _).symm
  places := rfl
  first := fun _ => rfl
  later := fun h => absurd rfl h
  isMatch := by simp
  names := rfl
  keys := rfl
  numbered := hm
  shift := by simp
  branches := by
    intro name info hinfo b hb
    rw [(hbranches name info hinfo).1, (hbranches name info hinfo).2] at hb
    cases hb

end Jumanpp.Core.Spec.SpecCompiler
