import Mathlib
import Jumanpp.Core.Spec.DicIndices

/-!
# Numbering the imports

The first loop over the sorted imports numbers the data fields, the second one all others.  Both set the
index of a field at most once, and together they leave none without one.
-/

namespace Jumanpp.Core.Spec.SpecCompiler

open Jumanpp.Lib

/-! ## Where the imports go -/

theorem flagged_foldlM {m : ComputeMap} (hm : Numbered m) {fields : List Field}
    (hbranches : NoBranches m) {features : List FeatureBuilder}
    (hfeatures : ∀ f ∈ features, f.name ∈ m.keys ∧ Referred fields f m) {st : DicState}
    (h : features.foldlM makeDicFeature
      { fields := fields, dictionary := importFields m fields, computeByName := m } = some st) :
    ∃ imports, Flagged m fields features imports st := by
  apply foldlM_invariant (I := fun done st => ∃ imports, Flagged m fields done imports st) ?_
    ⟨[], flagged_nil hm fields hbranches⟩ h
  rintro done f rest st st' htotal ⟨imports, hflagged⟩ hstep
  have hmem : f ∈ features := by simp [htotal]
  obtain ⟨hname, href⟩ := hfeatures f hmem
  exact hflagged.step hname href.trueBranch href.falseBranch hstep

def DicImport.isData (d : DicImport) : Bool :=
  match d.kind with
  | .ImportAsData => true
  | _ => false

theorem DicImport.isData_iff {d : DicImport} : d.isData = true ↔ d.kind = .ImportAsData := by
  unfold DicImport.isData
  split
  next h => exact iff_of_true rfl h
  next h => exact iff_of_false Bool.false_ne_true h

theorem DicImport.IsMatch.isData {d : DicImport} (h : d.IsMatch) : d.isData = false := by
  unfold DicImport.isData
  rcases h with h | h
  · rw [h]
  · rw [h]

/-- The imports fill all fields, and each data field is filled once. -/
structure Placed (fields : List Field) (isData : Nat → Prop) (l : List DicImport) : Prop where
  place : ∀ d ∈ l, ∃ i : Nat, d.target = i ∧ i < fields.length ∧ (d.isData = true ↔ isData i)
  found : ∀ d ∈ l, d.isData = true → ∀ fields' : List Field,
    fields'.map Field.name = fields.map Field.name →
      fieldPlace fields' d.name = some d.target.toNat
  filled : ∀ i : Nat, i < fields.length → ∃ d ∈ l, d.target = i
  once : ((l.filter DicImport.isData).map DicImport.target).Nodup

theorem Placed.perm {fields : List Field} {isData : Nat → Prop} {l l' : List DicImport}
    (h : Placed fields isData l) (hl : l'.Perm l) : Placed fields isData l' where
  place d hd := h.place d (hl.mem_iff.mp hd)
  found d hd := h.found d (hl.mem_iff.mp hd)
  filled i hi := by
    obtain ⟨d, hd, hi⟩ := h.filled i hi
    exact ⟨d, hl.mem_iff.mpr hd, hi⟩
  once := ((hl.filter _).map _).nodup_iff.mpr h.once

/-- The fields of the definition to which nothing refers. -/
def DataPlace (m : ComputeMap) (fields : List Field) (i : Nat) : Prop :=
  ∃ fld, fields[i]? = some fld ∧ fld.name ∉ m.keys

section Placed

variable {bldrFields : List FieldBuilder} {fields : List Field} (hb : Built bldrFields fields)
  {m : ComputeMap}

include hb

/-- The import of a field of the definition. -/
theorem mem_importFields {d : DicImport} (hd : d ∈ importFields m fields) :
    ∃ (i : Nat) (fld : Field), fields[i]? = some fld ∧ d.name = fld.name ∧ d.target = i ∧
      (d.isData = true ↔ fld.name ∉ m.keys) := by
  have hmem : (d.name, d.target, d.kind) ∈
      (importFields m fields).map fun d => (d.name, d.target, d.kind) :=
    List.mem_map_of_mem hd
  rw [map_importFields] at hmem
  obtain ⟨fld, hfld, heq⟩ := List.mem_map.mp hmem
  obtain ⟨i, hi⟩ := List.mem_iff_getElem?.mp hfld
  injection heq with hname hrest
  injection hrest with htarget hkind
  refine ⟨i, fld, hi, hname.symm, htarget.symm.trans (hb.specIndex i fld hi), ?_⟩
  rw [DicImport.isData_iff, ← hkind, fieldImportKind_eq_data_iff]

theorem exists_importFields {i : Nat} {fld : Field} (hi : fields[i]? = some fld) :
    ∃ d ∈ importFields m fields, d.name = fld.name ∧ d.target = i := by
  have hmem : (fld.name, fld.specIndex, fieldImportKind m fld) ∈
      fields.map fun fld => (fld.name, fld.specIndex, fieldImportKind m fld) :=
    List.mem_map_of_mem (List.mem_of_getElem? hi)
  rw [← map_importFields] at hmem
  obtain ⟨d, hd, heq⟩ := List.mem_map.mp hmem
  injection heq with hname hrest
  injection hrest with htarget hkind
  exact ⟨d, hd, hname, htarget.trans (hb.specIndex i fld hi)⟩

theorem targets_importFields :
    (importFields m fields).map DicImport.target = (List.range fields.length).map (fun i : Nat => (i : Int)) := by
  have htargets := congrArg (List.map fun p => p.2.1) (map_importFields m fields)
  rw [List.map_map, List.map_map] at htargets
  have hspec : fields.map Field.specIndex = (List.range fields.length).map fun i : Nat => (i : Int) := by
    apply List.ext_getElem?
    intro i
    rw [List.getElem?_map, List.getElem?_map]
    cases hi : fields[i]? with
    | none =>
        rw [List.getElem?_eq_none (by simpa using hi)]
        rfl
    | some fld =>
        rw [List.getElem?_range (List.getElem?_eq_some_iff.mp hi).1]
        exact congrArg some (hb.specIndex i fld hi)
  exact Eq.trans htargets hspec

variable (hnodup : (bldrFields.map FieldBuilder.name).Nodup)

include hnodup

theorem Flagged.placed {features : List FeatureBuilder} {imports : List DicImport} {st : DicState}
    (h : Flagged m fields features imports st) :
    Placed st.fields (DataPlace m fields) st.dictionary := by
  have hplaces : ∀ d ∈ imports, ∃ k < imports.length, d.target = (fields.length + k / 31 : Nat) := by
    intro d hd
    have hmem : (d.target, d.shift) ∈ imports.map fun d => (d.target, d.shift) :=
      List.mem_map_of_mem hd
    rw [h.places] at hmem
    obtain ⟨k, hk, heq⟩ := List.mem_map.mp hmem
    exact ⟨k, List.mem_range.mp hk, (congrArg Prod.fst heq).symm⟩
  have hnames : ∀ fields' : List Field, fields'.map Field.name = st.fields.map Field.name →
      fields'.map Field.name = bldrFields.map FieldBuilder.name ++
        (flagFields fields.length imports.length).map Field.name := by
    intro fields' hfields'
    rw [hfields', h.columns, List.map_append, hb.names]
  rw [h.dictionary]
  refine ⟨?_, ?_, ?_, ?_⟩
  · intro d hd
    rcases List.mem_append.mp hd with hd | hd
    · obtain ⟨i, fld, hi, -, htarget, hdata⟩ := mem_importFields hb hd
      have hlt := (List.getElem?_eq_some_iff.mp hi).1
      refine ⟨i, htarget, by rw [h.length_fields]; omega, ?_⟩
      rw [hdata]
      unfold DataPlace
      simp [hi]
    · obtain ⟨k, hk, htarget⟩ := hplaces d hd
      refine ⟨_, htarget, by rw [h.length_fields]; omega, ?_⟩
      rw [(h.isMatch d hd).isData]
      unfold DataPlace
      rw [List.getElem?_eq_none (by omega)]
      simp
  · intro d hd hdata fields' hfields'
    rcases List.mem_append.mp hd with hd | hd
    · obtain ⟨i, fld, hi, hname, htarget, -⟩ := mem_importFields hb hd
      rw [htarget, Int.toNat_natCast]
      apply fieldPlace_of_nodup hnodup (hnames fields' hfields')
      rw [← hb.names, List.getElem?_map, hi, hname]
      rfl
    · rw [(h.isMatch d hd).isData] at hdata
      cases hdata
  · intro i hi
    rw [h.length_fields] at hi
    by_cases hlt : i < fields.length
    · obtain ⟨d, hd, -, htarget⟩ := exists_importFields hb (m := m) (List.getElem?_eq_getElem hlt)
      exact ⟨d, List.mem_append_left _ hd, htarget⟩
    · -- the first flag of the column
      have hk : 31 * (i - fields.length) < imports.length := by omega
      have hplace : (flagPlace fields.length (31 * (i - fields.length))) ∈
          (List.range imports.length).map (flagPlace fields.length) :=
        List.mem_map_of_mem (List.mem_range.mpr hk)
      rw [← h.places] at hplace
      obtain ⟨d, hd, heq⟩ := List.mem_map.mp hplace
      refine ⟨d, List.mem_append_right _ hd, (congrArg Prod.fst heq).trans ?_⟩
      show ((fields.length + 31 * (i - fields.length) / 31 : Nat) : Int) = i
      omega
  · rw [List.filter_append, List.map_append]
    have hnone : imports.filter DicImport.isData = [] := by
      apply List.filter_eq_nil_iff.mpr
      intro d hd
      rw [(h.isMatch d hd).isData]
      exact Bool.false_ne_true
    rw [hnone, List.map_nil, List.append_nil]
    apply (List.filter_sublist.map DicImport.target).nodup
    rw [targets_importFields hb]
    exact List.nodup_range.map Int.ofNat_injective

end Placed

/-! ## The data fields -/

def dicIndices (s : DicNumbers) : List Int := s.fields.map Field.dicIndex

/-- What the first loop makes of an import. -/
structure DataResult (dicIndex : List Int) (numDicData : Nat) (d d' : DicImport) : Prop where
  name : d'.name = d.name
  kind : d'.kind = d.kind
  shift : d'.shift = d.shift
  data : d.isData = true → ∃ k : Nat, k < numDicData ∧ d'.target = k ∧
    dicIndex[d.target.toNat]? = some (.negSucc k)
  other : d.isData = false → d'.target = d.target

/-- The state after some imports have been gone over in the first loop. -/
structure DataNumbered (fields : List Field) (m : ComputeMap) (done : List DicImport)
    (s : DicNumbers) : Prop where
  shape : s.fields.map Field.shape = fields.map Field.shape
  compute : s.computeByName = m
  features : s.numDicFeatures = 0
  values : (valuesSet invalidInt (dicIndices s)).Perm ((List.range s.numDicData).map Int.negSucc)
  unset : ∀ i : Nat, (dicIndices s)[i]? = some invalidInt ↔
    i < fields.length ∧ ∀ d ∈ done, d.isData = true → d.target ≠ i
  out : List.Forall₂ (DataResult (dicIndices s) s.numDicData) done s.dictionary

theorem length_dicIndices {fields : List Field} {s : DicNumbers}
    (h : s.fields.map Field.shape = fields.map Field.shape) :
    (dicIndices s).length = fields.length := by
  rw [dicIndices, List.length_map, length_of_shape h]

theorem perm_range_succ {β : Type} (f : Nat → β) {l : List β} {n : Nat}
    (h : l.Perm ((List.range n).map f)) : (f n :: l).Perm ((List.range (n + 1)).map f) := by
  rw [List.range_succ, List.map_append]
  exact (h.cons (f n)).trans (List.perm_append_singleton (f n) _).symm

theorem negSucc_ne_invalidInt {k : Nat} (hk : k < 2 ^ 31 - 1) : Int.negSucc k ≠ invalidInt := by
  unfold invalidInt
  omega

theorem natCast_ne_invalidInt (k : Nat) : (k : Int) ≠ invalidInt := by
  unfold invalidInt
  omega

section Data

variable {fields : List Field} {m : ComputeMap} {isData : Nat → Prop} {total : List DicImport}
  (hplaced : Placed fields isData total) (hmax : fields.length < 2 ^ 31)

include hplaced hmax

/-- One turn of the first loop. -/
theorem DataNumbered.step {done rest : List DicImport} {d : DicImport} {s s' : DicNumbers}
    (htotal : total = done ++ d :: rest) (h : DataNumbered fields m done s)
    (hstep : numberData s d = some s') : DataNumbered fields m (done ++ [d]) s' := by
  have hd : d ∈ total := by simp [htotal]
  unfold numberData at hstep
  by_cases hdata : d.isData = true
  · obtain ⟨i, htarget, hi, -⟩ := hplaced.place d hd
    have hplace := hplaced.found d hd hdata s.fields (map_name_of_shape h.shape)
    have hdistinct : ∀ d' ∈ done, d'.isData = true → d'.target ≠ i := by
      intro d' hd' hdata' heq
      have honce := hplaced.once
      rw [htotal, List.filter_append, List.map_append, List.filter_cons_of_pos hdata,
        List.map_cons] at honce
      have hmem : d'.target ∈ (done.filter DicImport.isData).map DicImport.target :=
        List.mem_map_of_mem (List.mem_filter.mpr ⟨hd', hdata'⟩)
      exact (List.nodup_append.mp honce).2.2 _ hmem _ List.mem_cons_self (heq.trans htarget.symm)
    have hunset : (dicIndices s)[i]? = some invalidInt := (h.unset i).mpr ⟨hi, hdistinct⟩
    -- the number is still an `i32`
    have hroom := length_valuesSet_lt hunset
    rw [h.values.length_eq, List.length_map, List.length_range, length_dicIndices h.shape] at hroom
    have hne := negSucc_ne_invalidInt (k := s.numDicData) (by omega)
    have hkind := DicImport.isData_iff.mp hdata
    simp only [hkind, hplace, Option.map_some, htarget, Int.toNat_natCast] at hstep
    cases hstep
    have hindices : (setDicIndex s.fields i (.negSucc s.numDicData)).map Field.dicIndex =
        (dicIndices s).set i (.negSucc s.numDicData) := map_dicIndex_setDicIndex _ _ _
    refine ⟨(map_shape_setDicIndex _ _ _).trans h.shape, h.compute, h.features, ?_, ?_, ?_⟩
    · show (valuesSet invalidInt ((setDicIndex s.fields i _).map Field.dicIndex)).Perm _
      rw [hindices]
      exact (valuesSet_set hunset hne).trans (perm_range_succ Int.negSucc h.values)
    · intro j
      show ((setDicIndex s.fields i _).map Field.dicIndex)[j]? = _ ↔ _
      rw [hindices, getElem?_set_eq_unset_iff hunset hne, h.unset]
      simp only [List.forall_mem_append, List.forall_mem_singleton, htarget, and_assoc]
      refine and_congr_right fun _ => and_congr_right fun _ => ?_
      rw [Ne, Ne, Int.natCast_inj]
      exact ⟨fun hne _ => hne, fun hne => hne hdata⟩
    · show List.Forall₂ (DataResult ((setDicIndex s.fields i _).map Field.dicIndex)
        (s.numDicData + 1)) _ _
      rw [hindices]
      have hkept : ∀ d₁ d₂, DataResult (dicIndices s) s.numDicData d₁ d₂ →
          DataResult ((dicIndices s).set i (.negSucc s.numDicData)) (s.numDicData + 1) d₁ d₂ := by
        intro d₁ d₂ hresult
        refine { hresult with data := ?_ }
        intro hdata'
        obtain ⟨k, hk, hvalue, hindex⟩ := hresult.data hdata'
        have hset := getElem?_set_of_ne (v := .negSucc s.numDicData) hunset hindex
          (negSucc_ne_invalidInt (by omega))
        exact ⟨k, by omega, hvalue, hset⟩
      refine List.rel_append (h.out.imp hkept) (.cons ?_ .nil)
      refine ⟨rfl, hkind.symm, rfl, ?_, ?_⟩
      · intro _
        refine ⟨s.numDicData, by omega, rfl, ?_⟩
        rw [htarget, Int.toNat_natCast]
        apply List.getElem?_set_self
        rw [length_dicIndices h.shape]
        exact hi
      · intro hother
        rw [hdata] at hother
        cases hother
  · rw [Bool.not_eq_true] at hdata
    have hkind : s' = { s with
        dictionary := s.dictionary ++ [{ d with index := s.dictionary.length }] } := by
      unfold DicImport.isData at hdata
      cases hk : d.kind
      all_goals
        rw [hk] at hdata
        simp only [hk] at hstep
        first
          | exact (Option.some.inj hstep).symm
          | cases hdata
    rw [hkind]
    refine ⟨h.shape, h.compute, h.features, h.values, ?_, ?_⟩
    · intro j
      show (dicIndices s)[j]? = _ ↔ _
      rw [h.unset]
      simp only [List.forall_mem_append, List.forall_mem_singleton, hdata, Bool.false_eq_true,
        false_implies, and_true]
    · refine List.rel_append h.out (.cons ?_ .nil)
      refine ⟨rfl, rfl, rfl, ?_, fun _ => rfl⟩
      intro hother
      rw [hdata] at hother
      cases hother

/-- The first loop. -/
theorem dataNumbered_foldlM (hunset : ∀ fld ∈ fields, fld.dicIndex = invalidInt) {s : DicNumbers}
    (h : total.foldlM numberData { dictionary := [], fields := fields, computeByName := m } = some s) :
    DataNumbered fields m total s := by
  apply foldlM_invariant (I := DataNumbered fields m) ?_ ?_ h
  · intro done d rest s s' htotal hnumbered hstep
    exact hnumbered.step hplaced hmax htotal hstep
  · refine ⟨rfl, rfl, rfl, ?_, ?_, .nil⟩
    · rw [valuesSet_eq_nil]
      · exact List.Perm.refl _
      · intro v hv
        obtain ⟨fld, hfld, rfl⟩ := List.mem_map.mp hv
        exact hunset fld hfld
    · intro i
      show (fields.map Field.dicIndex)[i]? = _ ↔ _
      rw [List.getElem?_map]
      cases hi : fields[i]? with
      | none =>
          have hge := List.getElem?_eq_none_iff.mp hi
          simp
          omega
      | some fld =>
          have hlt := (List.getElem?_eq_some_iff.mp hi).1
          simp [hunset fld (List.mem_of_getElem? hi), hlt]

omit hmax in
/-- After the first loop just the data fields have an index. -/
theorem DataNumbered.index {s : DicNumbers} (h : DataNumbered fields m total s) {i : Nat}
    (hi : i < fields.length) :
    (isData i → ∃ k : Nat, k < s.numDicData ∧ (dicIndices s)[i]? = some (.negSucc k)) ∧
      (¬ isData i → (dicIndices s)[i]? = some invalidInt) := by
  constructor
  · intro hdata
    obtain ⟨d, hd, htarget⟩ := hplaced.filled i hi
    obtain ⟨j, hj, -, hkind⟩ := hplaced.place d hd
    rw [htarget, Int.natCast_inj] at hj
    obtain ⟨d', -, hresult⟩ := exists_of_forall₂_left h.out hd
    obtain ⟨k, hk, -, hindex⟩ := hresult.data (hkind.mpr (hj ▸ hdata))
    rw [htarget, Int.toNat_natCast] at hindex
    exact ⟨k, hk, hindex⟩
  · intro hdata
    rw [h.unset]
    refine ⟨hi, ?_⟩
    intro d hd hkind htarget
    obtain ⟨j, hj, -, hplace⟩ := hplaced.place d hd
    rw [htarget, Int.natCast_inj] at hj
    exact hdata (hj ▸ hplace.mp hkind)

omit hplaced hmax in
theorem DataNumbered.numDicData_le {s : DicNumbers} (h : DataNumbered fields m total s) :
    s.numDicData ≤ fields.length := by
  have hle := List.length_filter_le (fun v => decide (v ≠ invalidInt)) (dicIndices s)
  have hperm := h.values.length_eq
  rw [List.length_map, List.length_range] at hperm
  rw [length_dicIndices h.shape] at hle
  exact hperm ▸ hle

end Data

/-! ## The fields of features -/

/-- The indices after the fields `taken` have been asked for one, from those in `s₀`. -/
structure Indexed (s₀ s : DicNumbers) (taken : Nat → Prop) : Prop where
  shape : s.fields.map Field.shape = s₀.fields.map Field.shape
  data : s.numDicData = s₀.numDicData
  values : (valuesSet invalidInt (dicIndices s)).Perm
    ((List.range s.numDicFeatures).map (fun k : Nat => (k : Int)) ++
      valuesSet invalidInt (dicIndices s₀))
  kept : ∀ (i : Nat) (v : Int), (dicIndices s₀)[i]? = some v → v ≠ invalidInt →
    (dicIndices s)[i]? = some v
  fresh : ∀ i : Nat, (dicIndices s₀)[i]? = some invalidInt → ¬ taken i →
    (dicIndices s)[i]? = some invalidInt
  index : ∀ i : Nat, (dicIndices s₀)[i]? = some invalidInt → taken i →
    ∃ k : Nat, k < s.numDicFeatures ∧ (dicIndices s)[i]? = some (k : Int)

theorem indexed_refl {s : DicNumbers} (h : s.numDicFeatures = 0) :
    Indexed s s (fun _ => False) where
  shape := rfl
  data := rfl
  values := by
    rw [h]
    exact List.Perm.refl _
  kept _ _ hv _ := hv
  fresh _ hi _ := hi
  index _ _ hfalse := hfalse.elim

/-- What has been taken stays. -/
def Keeps (s s' : DicNumbers) : Prop :=
  s.numDicFeatures ≤ s'.numDicFeatures ∧
    ∀ (j k : Nat), (dicIndices s)[j]? = some (k : Int) → (dicIndices s')[j]? = some (k : Int)

theorem Indexed.take {s₀ s : DicNumbers} {taken : Nat → Prop} (h : Indexed s₀ s taken) {i : Nat}
    (hi : (dicIndices s₀)[i]? = some invalidInt) {fld : Field} (hfld : s.fields[i]? = some fld) :
    Indexed s₀ (takeDicIndex s i fld).1 (fun j => taken j ∨ j = i) ∧
      Keeps s (takeDicIndex s i fld).1 ∧
      ∃ k : Nat, k < (takeDicIndex s i fld).1.numDicFeatures ∧ (takeDicIndex s i fld).2 = (k : Int) ∧
        (dicIndices (takeDicIndex s i fld).1)[i]? = some (k : Int) := by
  have hvalue : (dicIndices s)[i]? = some fld.dicIndex := by
    rw [dicIndices, List.getElem?_map, hfld]
    rfl
  unfold takeDicIndex
  split_ifs with hunset
  · rw [hunset] at hvalue
    have hne := natCast_ne_invalidInt s.numDicFeatures
    have hindices : (setDicIndex s.fields i s.numDicFeatures).map Field.dicIndex =
        (dicIndices s).set i s.numDicFeatures := map_dicIndex_setDicIndex _ _ _
    have hself : ((dicIndices s).set i (s.numDicFeatures : Int))[i]? = some (s.numDicFeatures : Int) :=
      List.getElem?_set_self (List.getElem?_eq_some_iff.mp hvalue).1
    refine ⟨⟨?_, h.data, ?_, ?_, ?_, ?_⟩, ⟨?_, ?_⟩, ?_⟩
    · exact (map_shape_setDicIndex _ _ _).trans h.shape
    · show (valuesSet invalidInt ((setDicIndex s.fields i _).map Field.dicIndex)).Perm _
      rw [hindices]
      have hperm := (valuesSet_set hvalue hne).trans (h.values.cons _)
      have hrange := perm_range_succ (fun k : Nat => (k : Int)) (List.Perm.refl _) (n := s.numDicFeatures)
      exact hperm.trans (hrange.append_right _)
    · intro j v hj hv
      show ((setDicIndex s.fields i _).map Field.dicIndex)[j]? = _
      rw [hindices]
      exact getElem?_set_of_ne hvalue (h.kept j v hj hv) hv
    · intro j hj hnot
      rw [not_or] at hnot
      show ((setDicIndex s.fields i _).map Field.dicIndex)[j]? = _
      rw [hindices, List.getElem?_set_ne (Ne.symm hnot.2)]
      exact h.fresh j hj hnot.1
    · intro j hj htaken
      show ∃ k : Nat, _ ∧ ((setDicIndex s.fields i _).map Field.dicIndex)[j]? = _
      rw [hindices]
      by_cases hij : j = i
      · rw [hij]
        exact ⟨s.numDicFeatures, Nat.lt_succ_self _, hself⟩
      · obtain ⟨k, hk, hindex⟩ := h.index j hj (htaken.resolve_right hij)
        refine ⟨k, Nat.lt_succ_of_lt hk, ?_⟩
        rw [List.getElem?_set_ne (Ne.symm hij)]
        exact hindex
    · exact Nat.le_succ _
    · intro j k hj
      show ((setDicIndex s.fields i _).map Field.dicIndex)[j]? = _
      rw [hindices]
      exact getElem?_set_of_ne hvalue hj (natCast_ne_invalidInt k)
    · refine ⟨s.numDicFeatures, Nat.lt_succ_self _, rfl, ?_⟩
      show ((setDicIndex s.fields i _).map Field.dicIndex)[i]? = _
      rw [hindices]
      exact hself
  · have htaken : taken i := by
      by_contra hnot
      rw [h.fresh i hi hnot] at hvalue
      exact hunset (Option.some.inj hvalue).symm
    obtain ⟨k, hk, hindex⟩ := h.index i hi htaken
    have hsame : fld.dicIndex = k := by
      rw [hvalue] at hindex
      exact Option.some.inj hindex
    refine ⟨⟨h.shape, h.data, h.values, h.kept, ?_, ?_⟩, ⟨Nat.le_refl _, fun _ _ hj => hj⟩, ?_⟩
    · intro j hj hnot
      exact h.fresh j hj fun htaken => hnot (.inl htaken)
    · intro j hj htaken'
      rcases htaken' with htaken' | rfl
      · exact h.index j hj htaken'
      · exact h.index j hj htaken
    · exact ⟨k, hk, hsame, hindex⟩

/-! ## Final numbers -/

section FinalNumber

variable {m : ComputeMap} {name : SpecName} (dicFinalNumber : Int)

theorem keys_setFinalNumber : (setFinalNumber m name dicFinalNumber).keys = m.keys := by
  unfold setFinalNumber
  split_ifs with h
  · exact FlatMap.keys_update_of_mem h _ _
  · rfl

theorem numbered_setFinalNumber (hm : Numbered m) :
    Numbered (setFinalNumber m name dicFinalNumber) := by
  unfold setFinalNumber
  split_ifs with h
  · apply FlatMap.Numbered.update_of_mem hm h
    intro info _
    rfl
  · exact hm

theorem find_setFinalNumber_self {info : AccessFeatureInfo} (hinfo : m.find name = some info) :
    (setFinalNumber m name dicFinalNumber).find name =
      some { info with dicFinalNumber := dicFinalNumber } := by
  unfold setFinalNumber
  rw [if_pos (FlatMap.mem_keys_iff.mpr ⟨info, hinfo⟩), FlatMap.find_update_self, hinfo]
  rfl

theorem find_setFinalNumber_ne {name' : SpecName} (hne : name' ≠ name) :
    (setFinalNumber m name dicFinalNumber).find name' = m.find name' := by
  unfold setFinalNumber
  split_ifs
  · exact FlatMap.find_update_ne m hne _ _
  · rfl

/-- Only the final number changes. -/
theorem find_setFinalNumber {name' : SpecName} {info' : AccessFeatureInfo}
    (h : (setFinalNumber m name dicFinalNumber).find name' = some info') :
    ∃ info, m.find name' = some info ∧ info' = { info with dicFinalNumber := info'.dicFinalNumber } := by
  by_cases heq : name' = name
  · subst heq
    cases hinfo : m.find name' with
    | none =>
        unfold setFinalNumber at h
        rw [if_neg (FlatMap.find_eq_none_iff.mp hinfo), hinfo] at h
        cases h
    | some info =>
        rw [find_setFinalNumber_self dicFinalNumber hinfo] at h
        cases h
        exact ⟨info, rfl, rfl⟩
  · rw [find_setFinalNumber_ne dicFinalNumber heq] at h
    exact ⟨info', h, rfl⟩

end FinalNumber

/-- What the second loop makes of an import. -/
structure FeatureResult (dicIndex : List Int) (numDicFeatures : Nat) (d d' : DicImport) : Prop where
  name : d'.name = d.name
  kind : d'.kind = d.kind
  shift : d'.shift = d.shift
  data : d.isData = true → d'.target = d.target
  other : d.isData = false → ∃ k : Nat, k < numDicFeatures ∧ d'.target = k ∧
    dicIndex[d.target.toNat]? = some (k : Int)

/-- The fields that the imports of features go to. -/
def Taken (done : List DicImport) (i : Nat) : Prop :=
  ∃ d ∈ done, d.isData = false ∧ d.target = i

/-- The state after some imports have been gone over in the second loop. -/
structure FeatureNumbered (s₀ : DicNumbers) (done : List DicImport) (s : DicNumbers) : Prop where
  indexed : Indexed s₀ s (Taken done)
  out : List.Forall₂ (FeatureResult (dicIndices s) s.numDicFeatures) done s.dictionary
  keys : s.computeByName.keys = s₀.computeByName.keys
  numbered : Numbered s.computeByName
  info : ∀ name info, s.computeByName.find name = some info → ∃ info₀,
    s₀.computeByName.find name = some info₀ ∧ info = { info₀ with dicFinalNumber := info.dicFinalNumber }
  final : ∀ d ∈ done, d.isData = false → d.name ∈ s₀.computeByName.keys →
    ∃ info, s.computeByName.find d.name = some info ∧
      ∃ d' ∈ s.dictionary, d'.isData = false ∧ d'.name = d.name ∧ info.dicFinalNumber = d'.target

theorem isData_of_kind {d d' : DicImport} (h : d'.kind = d.kind) : d'.isData = d.isData := by
  unfold DicImport.isData
  rw [h]

theorem taken_append {done : List DicImport} {d : DicImport} :
    Taken (done ++ [d]) = fun i => Taken done i ∨ d.isData = false ∧ d.target = i := by
  funext i
  unfold Taken
  simp [or_and_right, exists_or]

/-- One turn of the second loop. -/
theorem FeatureNumbered.step {s₀ s s' : DicNumbers} {done : List DicImport} {d : DicImport}
    (h : FeatureNumbered s₀ done s)
    (hplace : d.isData = false → ∃ i : Nat, d.target = i ∧ (dicIndices s₀)[i]? = some invalidInt)
    (hstep : numberFeature s d = some s') : FeatureNumbered s₀ (done ++ [d]) s' := by
  by_cases hdata : d.isData = true
  · have hresult : s' = { s with dictionary := s.dictionary ++ [d] } := by
      unfold numberFeature at hstep
      rw [DicImport.isData_iff.mp hdata] at hstep
      exact (Option.some.inj hstep).symm
    rw [hresult]
    refine ⟨?_, ?_, h.keys, h.numbered, h.info, ?_⟩
    · have htaken : Taken (done ++ [d]) = Taken done := by
        rw [taken_append]
        simp [hdata]
      rw [htaken]
      exact { h.indexed with }
    · refine List.rel_append h.out (.cons ⟨rfl, rfl, rfl, fun _ => rfl, ?_⟩ .nil)
      intro hother
      rw [hdata] at hother
      cases hother
    · intro d₁ hd₁ hother hname
      rcases List.mem_append.mp hd₁ with hd₁ | hd₁
      · obtain ⟨info, hinfo, d', hd', hresult⟩ := h.final d₁ hd₁ hother hname
        exact ⟨info, hinfo, d', List.mem_append_left _ hd', hresult⟩
      · rw [List.mem_singleton.mp hd₁, hdata] at hother
        cases hother
  · rw [Bool.not_eq_true] at hdata
    obtain ⟨i, htarget, hi⟩ := hplace hdata
    have hresult : ∃ fld, s.fields[i]? = some fld ∧ s' = { (takeDicIndex s i fld).1 with
        computeByName := setFinalNumber (takeDicIndex s i fld).1.computeByName d.name
          (takeDicIndex s i fld).2
        dictionary := (takeDicIndex s i fld).1.dictionary ++
          [{ d with target := (takeDicIndex s i fld).2 }] } := by
      unfold numberFeature at hstep
      rw [htarget, Int.toNat_natCast] at hstep
      unfold DicImport.isData at hdata
      split at hstep
      next hkind => simp [hkind] at hdata
      next =>
        obtain ⟨fld, hfld, heq⟩ := Option.map_eq_some_iff.mp hstep
        exact ⟨fld, hfld, heq.symm⟩
    obtain ⟨fld, hfld, hs'⟩ := hresult
    obtain ⟨hindexed, hkeeps, k, hk, hvalue, hindex⟩ := h.indexed.take hi hfld
    have hcompute : (takeDicIndex s i fld).1.computeByName = s.computeByName := by
      unfold takeDicIndex
      split_ifs
      · rfl
      · rfl
    have hdictionary : (takeDicIndex s i fld).1.dictionary = s.dictionary := by
      unfold takeDicIndex
      split_ifs
      · rfl
      · rfl
    rw [hs', hvalue, hcompute, hdictionary]
    generalize (takeDicIndex s i fld).1 = s₁ at hindexed hkeeps hk hindex
    refine ⟨?_, ?_, (keys_setFinalNumber _).trans h.keys, numbered_setFinalNumber _ h.numbered, ?_, ?_⟩
    · have htaken : Taken (done ++ [d]) = fun j => Taken done j ∨ j = i := by
        rw [taken_append]
        funext j
        simp only [hdata, htarget, Int.natCast_inj, true_and, eq_comm]
      rw [htaken]
      exact { hindexed with }
    · have hkept : ∀ d₁ d₂, FeatureResult (dicIndices s) s.numDicFeatures d₁ d₂ →
          FeatureResult (dicIndices s₁) s₁.numDicFeatures d₁ d₂ := by
        intro d₁ d₂ hresult
        refine { hresult with other := ?_ }
        intro hother
        obtain ⟨k, hk, hvalue, hindex⟩ := hresult.other hother
        exact ⟨k, Nat.lt_of_lt_of_le hk hkeeps.1, hvalue, hkeeps.2 _ _ hindex⟩
      refine List.rel_append (h.out.imp hkept) (.cons ⟨rfl, rfl, rfl, ?_, ?_⟩ .nil)
      · intro hother
        rw [hdata] at hother
        cases hother
      · intro _
        refine ⟨k, hk, rfl, ?_⟩
        rw [htarget, Int.toNat_natCast]
        exact hindex
    · intro name info' hinfo'
      obtain ⟨info, hinfo, heq⟩ := find_setFinalNumber _ hinfo'
      obtain ⟨info₀, hinfo₀, heq₀⟩ := h.info name info hinfo
      refine ⟨info₀, hinfo₀, ?_⟩
      rw [heq, heq₀]
    · intro d₁ hd₁ hother hname
      by_cases heq : d₁.name = d.name
      · have hmem : d.name ∈ s.computeByName.keys := by
          rw [h.keys, ← heq]
          exact hname
        obtain ⟨info, hinfo⟩ := FlatMap.mem_keys_iff.mp hmem
        have hself := find_setFinalNumber_self (k : Int) hinfo
        rw [heq]
        exact ⟨_, hself, { d with target := (k : Int) },
          List.mem_append_right _ List.mem_cons_self, hdata, rfl, rfl⟩
      · rcases List.mem_append.mp hd₁ with hd₁ | hd₁
        · obtain ⟨info, hinfo, d', hd', hresult⟩ := h.final d₁ hd₁ hother hname
          refine ⟨info, ?_, d', List.mem_append_left _ hd', hresult⟩
          exact (find_setFinalNumber_ne _ heq).trans hinfo
        · rw [List.mem_singleton.mp hd₁] at heq
          exact absurd rfl heq

/-! ## Both loops -/

/-- What the two loops make of an import. -/
structure ImportResult (s : DicNumbers) (d d' : DicImport) : Prop where
  name : d'.name = d.name
  kind : d'.kind = d.kind
  shift : d'.shift = d.shift
  data : d.isData = true → ∃ k : Nat, k < s.numDicData ∧ d'.target = k ∧
    (dicIndices s)[d.target.toNat]? = some (.negSucc k)
  other : d.isData = false → ∃ k : Nat, k < s.numDicFeatures ∧ d'.target = k ∧
    (dicIndices s)[d.target.toNat]? = some (k : Int)

/-- The state after both loops. -/
structure ImportsNumbered (fields : List Field) (m : ComputeMap) (imports : List DicImport)
    (s : DicNumbers) : Prop where
  shape : s.fields.map Field.shape = fields.map Field.shape
  indices : (dicIndices s).Perm ((List.range s.numDicFeatures).map (fun k : Nat => (k : Int)) ++
    (List.range s.numDicData).map Int.negSucc)
  out : List.Forall₂ (ImportResult s) imports s.dictionary
  keys : s.computeByName.keys = m.keys
  numbered : Numbered s.computeByName
  info : ∀ name info, s.computeByName.find name = some info → ∃ info₀,
    m.find name = some info₀ ∧ info = { info₀ with dicFinalNumber := info.dicFinalNumber }
  final : ∀ d ∈ imports, d.isData = false → d.name ∈ m.keys →
    ∃ info, s.computeByName.find d.name = some info ∧
      ∃ d' ∈ s.dictionary, d'.isData = false ∧ d'.name = d.name ∧ info.dicFinalNumber = d'.target

section Both

variable {fields : List Field} {m : ComputeMap} {isData : Nat → Prop} {imports : List DicImport}
  (hplaced : Placed fields isData imports) {s₀ s : DicNumbers} (h₀ : DataNumbered fields m imports s₀)

include hplaced h₀

/-- The imports that the first loop leaves go to fields without an index. -/
theorem DataNumbered.place {d : DicImport} (hd : d ∈ s₀.dictionary) (hother : d.isData = false) :
    ∃ i : Nat, d.target = i ∧ (dicIndices s₀)[i]? = some invalidInt := by
  obtain ⟨d₀, hd₀, hresult⟩ := exists_of_forall₂_right h₀.out hd
  obtain ⟨i, hi, hlt, hkind⟩ := hplaced.place d₀ hd₀
  rw [isData_of_kind hresult.kind] at hother
  refine ⟨i, (hresult.other hother).trans hi, (h₀.index hplaced hlt).2 ?_⟩
  rw [← hkind, hother]
  exact Bool.false_ne_true

/-- They go to all of these fields. -/
theorem DataNumbered.taken {i : Nat} (hi : i < fields.length) (hkind : ¬ isData i) :
    Taken s₀.dictionary i := by
  obtain ⟨d₀, hd₀, htarget⟩ := hplaced.filled i hi
  obtain ⟨j, hj, -, hdata₀⟩ := hplaced.place d₀ hd₀
  rw [htarget, Int.natCast_inj] at hj
  have hother : d₀.isData = false := by
    rw [← Bool.not_eq_true, hdata₀, ← hj]
    exact hkind
  obtain ⟨d, hd, hresult⟩ := exists_of_forall₂_left h₀.out hd₀
  exact ⟨d, hd, (isData_of_kind hresult.kind).trans hother, (hresult.other hother).trans htarget⟩

variable (hmax : fields.length < 2 ^ 31)
  (h : FeatureNumbered { s₀ with dictionary := [] } s₀.dictionary s)

include hmax h

/-- Every field has been numbered by one of the loops. -/
theorem invalidInt_not_mem : invalidInt ∉ dicIndices s := by
  intro hmem
  obtain ⟨i, hi, hget⟩ := List.getElem_of_mem hmem
  have hunset := List.getElem?_eq_some_iff.mpr ⟨hi, hget⟩
  rw [length_dicIndices (h.indexed.shape.trans h₀.shape)] at hi
  by_cases hkind : isData i
  · obtain ⟨k, hk, hindex⟩ := (h₀.index hplaced hi).1 hkind
    have hroom := h₀.numDicData_le
    have hne := negSucc_ne_invalidInt (k := k) (by omega)
    have hkept := h.indexed.kept i _ hindex hne
    rw [hunset] at hkept
    exact hne (Option.some.inj hkept).symm
  · have htaken := h₀.taken hplaced hi hkind
    obtain ⟨k, -, hindex⟩ := h.indexed.index i ((h₀.index hplaced hi).2 hkind) htaken
    rw [hunset] at hindex
    exact natCast_ne_invalidInt k (Option.some.inj hindex).symm

theorem importsNumbered : ImportsNumbered fields m imports s := by
  refine ⟨h.indexed.shape.trans h₀.shape, ?_, ?_, ?_, h.numbered, ?_, ?_⟩
  · rw [← valuesSet_eq_self (invalidInt_not_mem hplaced h₀ hmax h), h.indexed.data]
    have hvalues : (valuesSet invalidInt (dicIndices s₀)).Perm _ := h₀.values
    exact h.indexed.values.trans (hvalues.append_left _)
  · apply forall₂_comp ?_ h₀.out h.out
    intro d d₁ d₂ hdata hfeature
    have hisData := isData_of_kind hdata.kind
    refine ⟨hfeature.name.trans hdata.name, hfeature.kind.trans hdata.kind,
      hfeature.shift.trans hdata.shift, ?_, ?_⟩
    · intro hd
      obtain ⟨k, hk, htarget, hindex⟩ := hdata.data hd
      have hroom := h₀.numDicData_le
      have hne := negSucc_ne_invalidInt (k := k) (by omega)
      refine ⟨k, ?_, (hfeature.data (hisData.trans hd)).trans htarget,
        h.indexed.kept _ _ hindex hne⟩
      rw [h.indexed.data]
      exact hk
    · intro hd
      obtain ⟨k, hk, htarget, hindex⟩ := hfeature.other (hisData.trans hd)
      rw [hdata.other hd] at hindex
      exact ⟨k, hk, htarget, hindex⟩
  · rw [h.keys, ← h₀.compute]
  · intro name info hinfo
    rw [← h₀.compute]
    exact h.info name info hinfo
  · intro d hd hother hname
    obtain ⟨d₁, hd₁, hresult⟩ := exists_of_forall₂_left h₀.out hd
    rw [← h₀.compute, ← hresult.name] at hname
    rw [← hresult.name]
    exact h.final d₁ hd₁ ((isData_of_kind hresult.kind).trans hother) hname

end Both

/-- The two loops over the sorted imports. -/
theorem importsNumbered_foldlM {fields : List Field} {m : ComputeMap} (hm : Numbered m)
    {isData : Nat → Prop} {imports : List DicImport} (hplaced : Placed fields isData imports)
    (hmax : fields.length < 2 ^ 31) (hunset : ∀ fld ∈ fields, fld.dicIndex = invalidInt)
    {s₀ s : DicNumbers}
    (hdata : imports.foldlM numberData
      { dictionary := [], fields := fields, computeByName := m } = some s₀)
    (hfeatures : s₀.dictionary.foldlM numberFeature { s₀ with dictionary := [] } = some s) :
    ImportsNumbered fields m imports s := by
  have h₀ := dataNumbered_foldlM hplaced hmax hunset hdata
  apply importsNumbered hplaced h₀ hmax
  apply foldlM_invariant (I := FeatureNumbered { s₀ with dictionary := [] }) ?_ ?_ hfeatures
  · intro done d rest s s' htotal hnumbered hstep
    apply hnumbered.step ?_ hstep
    intro hother
    exact h₀.place hplaced (by simp [htotal]) hother
  · refine ⟨?_, .nil, rfl, ?_, fun _ info hinfo => ⟨info, hinfo, rfl⟩, by simp⟩
    · have htaken : Taken [] = fun _ => False := by
        funext i
        simp [Taken]
      rw [htaken]
      exact indexed_refl h₀.features
    · show Numbered s₀.computeByName
      rw [h₀.compute]
      exact hm

end Jumanpp.Core.Spec.SpecCompiler
