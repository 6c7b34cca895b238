import Mathlib
import Jumanpp.Core.Spec.DicNumbering

/-!
# What the compiled features refer to

Every field, flag, placeholder and feature that a compiled feature refers to is there.  The references of
codepoint features are no indices but distances from the word.  Nothing is said here of the lengths of
list fields, which have no values of their own in an entry.
-/

namespace Jumanpp.Core.Spec

open Jumanpp.Lib

/-! ## Declared names -/

namespace ModelSpecBuilder

/-- The name of a builder that a `FeatureRef` can be made from. -/
def Declares (bldr : ModelSpecBuilder) (name : SpecName) : Prop :=
  name ∈ bldr.fields.map FieldBuilder.name ∨ name ∈ bldr.features.map FeatureBuilder.name

instance (bldr : ModelSpecBuilder) (name : SpecName) : Decidable (bldr.Declares name) :=
  inferInstanceAs (Decidable (_ ∨ _))

/-- References are made from builders only. -/
structure Declared (bldr : ModelSpecBuilder) : Prop where
  ngrams : ∀ ngram ∈ bldr.ngrams, ∀ pos ∈ ngram.data, ∀ name ∈ pos, bldr.Declares name
  sideFeatures : ∀ unk ∈ bldr.unks, ∀ name ∈ unk.sideFeatures, bldr.Declares name
  output : ∀ unk ∈ bldr.unks, ∀ name ∈ unk.output, bldr.Declares name
  trueTransforms : ∀ f ∈ bldr.features, ∀ name ∈ f.trueTransforms, bldr.Declares name
  falseTransforms : ∀ f ∈ bldr.features, ∀ name ∈ f.falseTransforms, bldr.Declares name
  fields : ∀ f ∈ bldr.features, ∀ name ∈ f.fields, bldr.Declares name

theorem Declared.sortNgrams {bldr : ModelSpecBuilder} (h : bldr.Declared) :
    bldr.sortNgrams.Declared :=
  { h with ngrams := fun ngram hngram => h.ngrams ngram (sortByKey_perm.mem_iff.mp hngram) }

end ModelSpecBuilder

namespace SpecCompiler

/-- All names in the map have the property. -/
def Within (P : SpecName → Prop) (m : ComputeMap) : Prop := ∀ name ∈ m.keys, P name

section Within

variable {P : SpecName → Prop} {m : ComputeMap} (hm : Within P m)

include hm

theorem within_registerFeature {name : SpecName} (hname : P name) :
    Within P (registerFeature m name) := by
  intro name' hname'
  rcases FlatMap.mem_keys_update.mp hname' with hname' | rfl
  · exact hm name' hname'
  · exact hname

theorem within_foldl {α : Type} {f : ComputeMap → α → ComputeMap} (l : List α)
    (hf : ∀ x ∈ l, ∀ m, Within P m → Within P (f m x)) : Within P (l.foldl f m) := by
  induction l generalizing m with
  | nil => exact hm
  | cons x l ih =>
      rw [List.foldl_cons]
      exact ih (hf x List.mem_cons_self m hm) fun y hy => hf y (List.mem_cons_of_mem _ hy)

theorem within_foldlM {α : Type} {f : ComputeMap → α → Option ComputeMap} (l : List α)
    (hf : ∀ x ∈ l, ∀ m m', Within P m → f m x = some m' → Within P m') {m' : ComputeMap}
    (h : l.foldlM f m = some m') : Within P m' := by
  apply foldlM_invariant (I := fun _ m => Within P m) ?_ hm h
  intro done x rest m m' htotal hm hx
  exact hf x (by simp [htotal]) m m' hm hx

theorem within_names {names : List SpecName} (hnames : ∀ name ∈ names, P name) :
    Within P (names.foldl registerFeature m) :=
  within_foldl hm names fun name hname _ hm => within_registerFeature hm (hnames name hname)

theorem within_gatherAccess {pos : List SpecName} (hpos : ∀ name ∈ pos, P name)
    (features : List Int) : Within P (pos.foldl gatherAccess (features, m)).2 := by
  induction pos generalizing features m with
  | nil => exact hm
  | cons name pos ih =>
      rw [List.foldl_cons]
      exact ih (within_registerFeature hm (hpos name List.mem_cons_self))
        (fun name hname => hpos name (List.mem_cons_of_mem _ hname)) _

end Within

theorem within_foldl_gatherOccurrence {P : SpecName → Prop} (occs : List (Nat × List SpecName))
    (hoccs : ∀ occ ∈ occs, ∀ name ∈ occ.2, P name) {g : Gathered} (hg : Within P g.computeByName) :
    Within P (occs.foldl gatherOccurrence g).computeByName := by
  induction occs generalizing g with
  | nil => exact hg
  | cons occ occs ih =>
      rw [List.foldl_cons]
      apply ih (fun occ hocc => hoccs occ (List.mem_cons_of_mem _ hocc))
      exact within_gatherAccess hg (hoccs occ List.mem_cons_self) []

/-- Only declared names are registered. -/
theorem within_gatherFeatureInfo {bldr : ModelSpecBuilder} (hdecl : bldr.Declared)
    {fields : List Field} {g : Gathered} (h : gatherFeatureInfo bldr fields = some g) :
    Within bldr.Declares g.computeByName := by
  obtain ⟨m, hm, rfl⟩ := Option.map_eq_some_iff.mp h
  have hngrams : Within bldr.Declares
      (bldr.ngrams.foldl gatherNgram ⟨.empty, .empty⟩).computeByName := by
    rw [foldl_gatherNgram]
    apply within_foldl_gatherOccurrence
    · intro occ hocc name hname
      obtain ⟨ngram, hngram, pos, hpos, rfl⟩ := mem_occurrences_iff.mp hocc
      exact hdecl.ngrams ngram hngram pos hpos name hname
    · intro name hname
      cases hname
  have hunks := within_foldl hngrams (f := registerUnk) bldr.unks fun unk hunk _ hm =>
    within_names (within_names hm (hdecl.sideFeatures unk hunk)) (hdecl.output unk hunk)
  apply within_foldlM hunks bldr.features ?_ hm
  intro f hf m m' hm hturn
  have htrue := within_names hm (hdecl.trueTransforms f hf)
  have hfalse := within_names htrue (hdecl.falseTransforms f hf)
  apply within_foldlM hfalse f.fields ?_ hturn
  intro ref href m m' hm hfield
  obtain ⟨fld, -, rfl⟩ := Option.map_eq_some_iff.mp hfield
  have hregister := within_registerFeature hm (hdecl.fields f hf ref href)
  cases fld.fieldType with
  | String => exact hregister
  | Int => exact hregister
  | StringList => exact hm
  | StringKVList => exact hm
  | Error => exact hm

/-! ## The dictionary -/

def DicImport.isMatch (d : DicImport) : Bool :=
  match d.kind with
  | .MatchListKey | .MatchFields => true
  | _ => false

theorem DicImport.isMatch_iff {d : DicImport} : d.isMatch = true ↔ d.IsMatch := by
  unfold DicImport.isMatch DicImport.IsMatch
  split
  next h => exact iff_of_true rfl (.inl h)
  next h => exact iff_of_true rfl (.inr h)
  next hkey hfields => exact iff_of_false Bool.false_ne_true fun h => h.elim hkey hfields

theorem isMatch_of_kind {d d' : DicImport} (h : d'.kind = d.kind) : d'.isMatch = d.isMatch := by
  unfold DicImport.isMatch
  rw [h]

theorem kind_importFields {m : ComputeMap} {fields : List Field} {d : DicImport}
    (hd : d ∈ importFields m fields) : d.kind = .ImportAsFeature ∨ d.kind = .ImportAsData := by
  have hmem : (d.name, d.target, d.kind) ∈
      (importFields m fields).map fun d => (d.name, d.target, d.kind) :=
    List.mem_map_of_mem hd
  rw [map_importFields] at hmem
  obtain ⟨fld, -, heq⟩ := List.mem_map.mp hmem
  injection heq with _ hrest
  injection hrest with _ hkind
  rw [← hkind]
  unfold fieldImportKind
  split_ifs
  · exact .inl rfl
  · exact .inr rfl

theorem isMatch_importFields {m : ComputeMap} {fields : List Field} {d : DicImport}
    (hd : d ∈ importFields m fields) : d.isMatch = false := by
  unfold DicImport.isMatch
  rcases kind_importFields hd with hkind | hkind
  · rw [hkind]
  · rw [hkind]

theorem shape_numberData {s s' : DicNumbers} {d : DicImport} (h : numberData s d = some s') :
    s'.fields.map Field.shape = s.fields.map Field.shape := by
  unfold numberData at h
  dsimp only at h
  split at h
  · obtain ⟨i, -, rfl⟩ := Option.map_eq_some_iff.mp h
    exact map_shape_setDicIndex _ _ _
  · cases h
    rfl

theorem shape_numberFeature {s s' : DicNumbers} {d : DicImport} (h : numberFeature s d = some s') :
    s'.fields.map Field.shape = s.fields.map Field.shape := by
  unfold numberFeature at h
  split at h
  · cases h
    rfl
  · obtain ⟨fld, -, rfl⟩ := Option.map_eq_some_iff.mp h
    unfold takeDicIndex
    split_ifs
    · exact map_shape_setDicIndex _ _ _
    · rfl

/-- The sorted imports, in whose order the fields are numbered. -/
def sortedImports (dictionary : List DicImport) : List DicImport :=
  sortByKey (fun d => kindValue d.kind) dictionary

theorem sortedImports_perm (dictionary : List DicImport) :
    (sortedImports dictionary).Perm dictionary :=
  sortByKey_perm

/-- What is known of the dictionary features once they are made. -/
structure DicMade (bldr : ModelSpecBuilder) (g : Gathered) (fields : List Field)
    (imports : List DicImport) (st : DicState) (dic : DicNumbers) : Prop where
  built : Built bldr.fields fields
  gathered : Gathers (occurrences bldr.ngrams) g
  referred : ∀ f ∈ bldr.features, Referred fields f g.computeByName
  names : (bldr.fields.map FieldBuilder.name).Nodup
  flagged : Flagged g.computeByName fields
    (bldr.features.filter fun f => decide (f.name ∈ g.computeByName.keys)) imports st
  numbered : ImportsNumbered st.fields st.computeByName (sortedImports st.dictionary) dic

theorem dicMade {bldr : ModelSpecBuilder} (hnames : (bldr.fields.map FieldBuilder.name).Nodup)
    {fields : List Field} (hfields : buildFields bldr.fields = some fields) {g : Gathered}
    (hg : gatherFeatureInfo bldr fields = some g) {dic : DicNumbers}
    (hdic : makeDicFeatures bldr.features g fields = some dic) (hmax : dic.fields.length < 2 ^ 31) :
    ∃ imports st, DicMade bldr g fields imports st dic := by
  have hb := built_buildFields hfields
  have hgathers := gathers_gatherFeatureInfo hg
  unfold makeDicFeatures at hdic
  obtain ⟨st, hst, hdic⟩ := Option.bind_eq_some_iff.mp hdic
  obtain ⟨s₀, hs₀, hs⟩ := Option.bind_eq_some_iff.mp hdic
  have hreferred := fun f hf => referred_gatherFeatureInfo hg (f := f) hf
  obtain ⟨imports, hflagged⟩ := flagged_foldlM hgathers.compute hgathers.branches (by
    intro f hf
    obtain ⟨hmem, hname⟩ := List.mem_filter.mp hf
    exact ⟨of_decide_eq_true hname, hreferred f hmem⟩) hst
  refine ⟨imports, st, hb, hgathers, hreferred, hnames, hflagged, ?_⟩
  have hshape₀ : s₀.fields.map Field.shape = st.fields.map Field.shape := by
    apply foldlM_invariant (I := fun _ s => s.fields.map Field.shape = st.fields.map Field.shape)
      ?_ rfl hs₀
    intro _ _ _ s s' _ hshape hstep
    exact (shape_numberData hstep).trans hshape
  have hshape : dic.fields.map Field.shape = st.fields.map Field.shape := by
    apply foldlM_invariant (I := fun _ s => s.fields.map Field.shape = st.fields.map Field.shape)
      ?_ hshape₀ hs
    intro _ _ _ s s' _ hshape hstep
    exact (shape_numberFeature hstep).trans hshape
  have hplaced := (hflagged.placed hb hnames).perm (sortedImports_perm st.dictionary)
  apply importsNumbered_foldlM hflagged.numbered hplaced ?_ ?_ hs₀ hs
  · rw [← length_of_shape hshape]
    exact hmax
  · intro fld hfld
    rw [hflagged.columns] at hfld
    rcases List.mem_append.mp hfld with hfld | hfld
    · exact hb.dicIndex fld hfld
    · obtain ⟨j, -, rfl⟩ := List.mem_map.mp hfld
      rfl

namespace DicMade

variable {bldr : ModelSpecBuilder} {g : Gathered} {fields : List Field} {imports : List DicImport}
  {st : DicState} {dic : DicNumbers} (h : DicMade bldr g fields imports st dic)

include h

theorem placed : Placed st.fields (DataPlace g.computeByName fields) (sortedImports st.dictionary) :=
  (h.flagged.placed h.built h.names).perm sortByKey_perm

theorem mem_sorted {d : DicImport} : d ∈ sortedImports st.dictionary ↔
    d ∈ importFields g.computeByName fields ∨ d ∈ imports := by
  rw [(sortedImports_perm st.dictionary).mem_iff, h.flagged.dictionary, List.mem_append]

/-- The index of a place is that of its kind. -/
theorem index {i : Nat} (hi : i < st.fields.length) :
    (DataPlace g.computeByName fields i →
      ∃ k : Nat, k < dic.numDicData ∧ (dicIndices dic)[i]? = some (.negSucc k)) ∧
    (¬ DataPlace g.computeByName fields i →
      ∃ k : Nat, k < dic.numDicFeatures ∧ (dicIndices dic)[i]? = some (k : Int)) := by
  obtain ⟨d, hd, htarget⟩ := h.placed.filled i hi
  obtain ⟨j, hj, -, hkind⟩ := h.placed.place d hd
  rw [htarget, Int.natCast_inj] at hj
  subst hj
  obtain ⟨d', -, hresult⟩ := exists_of_forall₂_left h.numbered.out hd
  constructor
  · intro hdata
    obtain ⟨k, hk, -, hindex⟩ := hresult.data (hkind.mpr hdata)
    rw [htarget, Int.toNat_natCast] at hindex
    exact ⟨k, hk, hindex⟩
  · intro hdata
    have hother : d.isData = false := by
      rw [← Bool.not_eq_true, hkind]
      exact hdata
    obtain ⟨k, hk, -, hindex⟩ := hresult.other hother
    rw [htarget, Int.toNat_natCast] at hindex
    exact ⟨k, hk, hindex⟩

theorem isMatch_imports {d : DicImport} (hd : d ∈ imports) : d.isMatch = true :=
  DicImport.isMatch_iff.mpr (h.flagged.isMatch d hd)

theorem mem_imports {d : DicImport} (hd : d ∈ sortedImports st.dictionary)
    (hmatch : d.isMatch = true) : d ∈ imports := by
  rcases h.mem_sorted.mp hd with hd | hd
  · rw [isMatch_importFields hd] at hmatch
    cases hmatch
  · exact hd

theorem mem_importFields {d : DicImport} (hd : d ∈ sortedImports st.dictionary)
    (hmatch : d.isMatch = false) : d ∈ importFields g.computeByName fields := by
  rcases h.mem_sorted.mp hd with hd | hd
  · exact hd
  · rw [h.isMatch_imports hd] at hmatch
    cases hmatch

theorem filter_isMatch : ((sortedImports st.dictionary).filter DicImport.isMatch).Perm imports := by
  have hfields : (importFields g.computeByName fields).filter DicImport.isMatch = [] := by
    apply List.filter_eq_nil_iff.mpr
    intro d hd
    rw [isMatch_importFields hd]
    exact Bool.false_ne_true
  have himports : imports.filter DicImport.isMatch = imports :=
    List.filter_eq_self.mpr fun d hd => h.isMatch_imports hd
  have hfilter : st.dictionary.filter DicImport.isMatch = imports := by
    rw [h.flagged.dictionary, List.filter_append, hfields, himports, List.nil_append]
  have hperm := (sortedImports_perm st.dictionary).filter DicImport.isMatch
  exact hperm.trans (List.Perm.of_eq hfilter)

theorem filter_not_isMatch : ((sortedImports st.dictionary).filter fun d => !d.isMatch).Perm
    (importFields g.computeByName fields) := by
  have hfields : (importFields g.computeByName fields).filter (fun d => !d.isMatch) =
      importFields g.computeByName fields := by
    apply List.filter_eq_self.mpr
    intro d hd
    rw [isMatch_importFields hd]
    rfl
  have himports : imports.filter (fun d => !d.isMatch) = [] := by
    apply List.filter_eq_nil_iff.mpr
    intro d hd
    rw [h.isMatch_imports hd]
    exact Bool.false_ne_true
  have hfilter : st.dictionary.filter (fun d => !d.isMatch) =
      importFields g.computeByName fields := by
    rw [h.flagged.dictionary, List.filter_append, hfields, himports, List.append_nil]
  have hperm := (sortedImports_perm st.dictionary).filter fun d => !d.isMatch
  exact hperm.trans (List.Perm.of_eq hfilter)

/-- A field keeps everything but its index. -/
theorem getElem?_fields {i : Nat} {fld₀ : Field} (hi : st.fields[i]? = some fld₀) {v : Int}
    (hv : (dicIndices dic)[i]? = some v) :
    ∃ fld ∈ dic.fields, fld.shape = fld₀.shape ∧ fld.dicIndex = v := by
  have hshape := congrArg (·[i]?) h.numbered.shape
  simp only [List.getElem?_map, hi, Option.map_some] at hshape
  obtain ⟨fld, hfld, hsame⟩ := Option.map_eq_some_iff.mp hshape
  refine ⟨fld, List.mem_of_getElem? hfld, hsame, ?_⟩
  rw [dicIndices, List.getElem?_map, hfld] at hv
  exact Option.some.inj hv

theorem getElem?_user {i : Nat} {fld : Field} (hi : fields[i]? = some fld) :
    st.fields[i]? = some fld := by
  rw [h.flagged.columns, List.getElem?_append_left (List.getElem?_eq_some_iff.mp hi).1]
  exact hi

/-- The place of a flag and the column that it is in. -/
theorem flag {d : DicImport} (hd : d ∈ imports) : ∃ k : Nat, k < imports.length ∧
    (d.target, d.shift) = flagPlace fields.length k ∧
    st.fields[fields.length + k / 31]? = some (flagField fields.length (k / 31)) := by
  have hmem : (d.target, d.shift) ∈ imports.map fun d => (d.target, d.shift) :=
    List.mem_map_of_mem hd
  rw [h.flagged.places] at hmem
  obtain ⟨k, hk, heq⟩ := List.mem_map.mp hmem
  rw [List.mem_range] at hk
  refine ⟨k, hk, heq.symm, ?_⟩
  rw [h.flagged.columns, List.getElem?_append_right (Nat.le_add_right _ _), Nat.add_sub_cancel_left,
    flagFields, List.getElem?_map, List.getElem?_range (by omega)]
  rfl

theorem nodup_places : (imports.map fun d => (d.target, d.shift)).Nodup := by
  rw [h.flagged.places]
  apply List.nodup_range.map_on
  intro j _ k _ heq
  have hcolumn : ((fields.length + j / 31 : Nat) : Int) = (fields.length + k / 31 : Nat) :=
    congrArg Prod.fst heq
  have hbit : ((j % 31 : Nat) : Int) = (k % 31 : Nat) := congrArg Prod.snd heq
  omega

theorem nodup_dicIndices : (dicIndices dic).Nodup := by
  rw [h.numbered.indices.nodup_iff, List.nodup_append]
  refine ⟨List.nodup_range.map Int.ofNat_injective, ?_, ?_⟩
  · apply List.nodup_range.map
    intro j k heq
    exact Int.negSucc.inj heq
  · intro v hv w hw heq
    obtain ⟨j, -, rfl⟩ := List.mem_map.mp hv
    obtain ⟨k, -, rfl⟩ := List.mem_map.mp hw
    omega

end DicMade

/-- The dictionary part of a compiled definition.  `referred` are the names that features refer to. -/
structure IndexedDictionary (bldr : ModelSpecBuilder) (referred : List SpecName)
    (dic : DicNumbers) : Prop where
  indices : (dic.fields.map Field.dicIndex).Perm
    ((List.range dic.numDicFeatures).map (fun k : Nat => (k : Int)) ++
      (List.range dic.numDicData).map Int.negSucc)
  fieldImports : ((dic.dictionary.filter fun d => !d.isMatch).map DicImport.name).Perm
    (bldr.fields.map FieldBuilder.name)
  feature : ∀ d ∈ dic.dictionary, d.isMatch = false → d.name ∈ referred →
    d.kind = .ImportAsFeature ∧ ∃ k : Nat, d.target = k ∧
      ∃ fld ∈ dic.fields, fld.name = d.name ∧ fld.dicIndex = k
  data : ∀ d ∈ dic.dictionary, d.isMatch = false → d.name ∉ referred →
    d.kind = .ImportAsData ∧ ∃ k : Nat, d.target = k ∧
      ∃ fld ∈ dic.fields, fld.name = d.name ∧ fld.dicIndex = .negSucc k
  matchImports : ((dic.dictionary.filter DicImport.isMatch).map DicImport.name).Perm
    ((bldr.features.filter fun f => f.isMatch && decide (f.name ∈ referred)).map FeatureBuilder.name)
  flag : ∀ d ∈ dic.dictionary, d.isMatch = true →
    (∃ k : Nat, d.target = k ∧ ∃ fld ∈ dic.fields, fld.fieldType = .Int ∧
      (bldr.fields.length : Int) ≤ fld.specIndex ∧ fld.dicIndex = k) ∧
    0 ≤ d.shift ∧ d.shift < 32
  distinct : ((dic.dictionary.filter DicImport.isMatch).map fun d => (d.target, d.shift)).Nodup

namespace DicMade

variable {bldr : ModelSpecBuilder} {g : Gathered} {fields : List Field} {imports : List DicImport}
  {st : DicState} {dic : DicNumbers} (h : DicMade bldr g fields imports st dic)

include h

/-- The import of a field of the definition fills the field of its name. -/
theorem userImport {d' : DicImport} (hd' : d' ∈ dic.dictionary) (hmatch : d'.isMatch = false) :
    (d'.name ∈ g.computeByName.keys → d'.kind = .ImportAsFeature ∧ ∃ k : Nat, d'.target = k ∧
      ∃ fld ∈ dic.fields, fld.name = d'.name ∧ fld.dicIndex = k) ∧
    (d'.name ∉ g.computeByName.keys → d'.kind = .ImportAsData ∧ ∃ k : Nat, d'.target = k ∧
      ∃ fld ∈ dic.fields, fld.name = d'.name ∧ fld.dicIndex = .negSucc k) := by
  obtain ⟨d, hd, hresult⟩ := exists_of_forall₂_right h.numbered.out hd'
  rw [isMatch_of_kind hresult.kind] at hmatch
  have hfield := h.mem_importFields hd hmatch
  obtain ⟨i, fld, hi, hname, htarget, hdata⟩ := SpecCompiler.mem_importFields h.built hfield
  have hi' := h.getElem?_user hi
  rw [hresult.name, hname, hresult.kind]
  constructor
  · intro hkeys
    have hother : d.isData = false := by
      rw [← Bool.not_eq_true, hdata]
      exact not_not.mpr hkeys
    obtain ⟨k, -, htarget', hindex⟩ := hresult.other hother
    rw [htarget, Int.toNat_natCast] at hindex
    obtain ⟨fld', hfld', hshape, hvalue⟩ := h.getElem?_fields hi' hindex
    have hkind : d.kind = .ImportAsFeature := by
      apply (kind_importFields hfield).resolve_right
      intro hkind
      rw [DicImport.isData_iff.mpr hkind] at hother
      cases hother
    exact ⟨hkind, k, htarget', fld', hfld', congrArg (·.2.1) hshape, hvalue⟩
  · intro hkeys
    have hisData := hdata.mpr hkeys
    obtain ⟨k, -, htarget', hindex⟩ := hresult.data hisData
    rw [htarget, Int.toNat_natCast] at hindex
    obtain ⟨fld', hfld', hshape, hvalue⟩ := h.getElem?_fields hi' hindex
    exact ⟨DicImport.isData_iff.mp hisData, k, htarget', fld', hfld', congrArg (·.2.1) hshape, hvalue⟩

/-- The imports of match features keep their names and their shifts. -/
theorem matchResults : List.Forall₂ (ImportResult dic)
    ((sortedImports st.dictionary).filter DicImport.isMatch)
    (dic.dictionary.filter DicImport.isMatch) :=
  forall₂_filter (fun _ _ hresult => isMatch_of_kind hresult.kind) h.numbered.out

theorem names_fieldImports : ((dic.dictionary.filter fun d => !d.isMatch).map DicImport.name).Perm
    (bldr.fields.map FieldBuilder.name) := by
  have hresults : List.Forall₂ (ImportResult dic)
      ((sortedImports st.dictionary).filter fun d => !d.isMatch)
      (dic.dictionary.filter fun d => !d.isMatch) :=
    forall₂_filter (fun _ _ hresult => congrArg not (isMatch_of_kind hresult.kind)) h.numbered.out
  have hnames := map_eq_map_of_forall₂ (f := DicImport.name) (g := DicImport.name)
    (fun _ _ hresult => hresult.name) hresults
  have hfields : (importFields g.computeByName fields).map DicImport.name =
      bldr.fields.map FieldBuilder.name := by
    rw [← h.built.names]
    have hmap := congrArg (List.map Prod.fst) (map_importFields g.computeByName fields)
    rw [List.map_map, List.map_map] at hmap
    exact hmap
  rw [hnames, ← hfields]
  exact h.filter_not_isMatch.map DicImport.name

theorem names_matchImports : ((dic.dictionary.filter DicImport.isMatch).map DicImport.name).Perm
    ((bldr.features.filter fun f => f.isMatch && decide (f.name ∈ g.computeByName.keys)).map
      FeatureBuilder.name) := by
  have hnames := map_eq_map_of_forall₂ (f := DicImport.name) (g := DicImport.name)
    (fun _ _ hresult => hresult.name) h.matchResults
  have himports := h.flagged.names
  rw [List.filter_filter] at himports
  rw [hnames, ← himports]
  exact h.filter_isMatch.map DicImport.name

/-- The import of a match feature stands for a bit of one of the columns for flags. -/
theorem matchImport {d' : DicImport} (hd' : d' ∈ dic.dictionary) (hmatch : d'.isMatch = true) :
    (∃ k : Nat, d'.target = k ∧ ∃ fld ∈ dic.fields, fld.fieldType = .Int ∧
      (bldr.fields.length : Int) ≤ fld.specIndex ∧ fld.dicIndex = k) ∧
    0 ≤ d'.shift ∧ d'.shift < 32 := by
  obtain ⟨d, hd, hresult⟩ := exists_of_forall₂_right h.numbered.out hd'
  rw [isMatch_of_kind hresult.kind] at hmatch
  obtain ⟨j, -, hplace, hcolumn⟩ := h.flag (h.mem_imports hd hmatch)
  have htarget : d.target = (fields.length + j / 31 : Nat) := congrArg Prod.fst hplace
  have hshift : d.shift = (j % 31 : Nat) := congrArg Prod.snd hplace
  obtain ⟨k, -, htarget', hindex⟩ := hresult.other (DicImport.isMatch_iff.mp hmatch).isData
  rw [htarget, Int.toNat_natCast] at hindex
  obtain ⟨fld, hfld, hshape, hvalue⟩ := h.getElem?_fields hcolumn hindex
  have hspec : fld.specIndex = (fields.length + j / 31 : Nat) := congrArg Prod.fst hshape
  have hlength : bldr.fields.length = fields.length := by
    have hnames := congrArg List.length h.built.names
    rw [List.length_map, List.length_map] at hnames
    exact hnames.symm
  refine ⟨⟨k, htarget', fld, hfld, congrArg (·.2.2.2) hshape, ?_, hvalue⟩, ?_, ?_⟩
  · omega
  · rw [hresult.shift, hshift]
    omega
  · rw [hresult.shift, hshift]
    omega

theorem nodup_matchImports :
    ((dic.dictionary.filter DicImport.isMatch).map fun d => (d.target, d.shift)).Nodup := by
  apply nodup_of_forall₂ (f := fun d => (d.target, d.shift)) h.matchResults
  · intro d₁ hd₁ d₂ hd₂ d₁' d₂' hresult₁ hresult₂ heq
    obtain ⟨hmem₁, hmatch₁⟩ := List.mem_filter.mp hd₁
    obtain ⟨hmem₂, hmatch₂⟩ := List.mem_filter.mp hd₂
    obtain ⟨k₁, -, htarget₁, hindex₁⟩ := hresult₁.other (DicImport.isMatch_iff.mp hmatch₁).isData
    obtain ⟨k₂, -, htarget₂, hindex₂⟩ := hresult₂.other (DicImport.isMatch_iff.mp hmatch₂).isData
    obtain ⟨i₁, hi₁, -⟩ := h.placed.place d₁ hmem₁
    obtain ⟨i₂, hi₂, -⟩ := h.placed.place d₂ hmem₂
    rw [hi₁, Int.toNat_natCast] at hindex₁
    rw [hi₂, Int.toNat_natCast] at hindex₂
    -- the two indices are the same one
    have hvalue : (k₁ : Int) = k₂ := by
      rw [← htarget₁, ← htarget₂]
      exact congrArg Prod.fst heq
    rw [← hvalue] at hindex₂
    have hlt := (List.getElem?_eq_some_iff.mp hindex₁).1
    have hsame := (List.getElem?_inj hlt h.nodup_dicIndices).mp (hindex₁.trans hindex₂.symm)
    have hshift : d₁.shift = d₂.shift := by
      rw [← hresult₁.shift, ← hresult₂.shift]
      exact congrArg Prod.snd heq
    rw [hi₁, hi₂, hsame, hshift]
  · exact (h.filter_isMatch.map _).nodup_iff.mpr h.nodup_places

/-- What is not data stands in a column of the features. -/
theorem target_feature {d' : DicImport} (hd' : d' ∈ dic.dictionary) (hother : d'.isData = false) :
    ∃ k : Nat, k < dic.numDicFeatures ∧ d'.target = k := by
  obtain ⟨d, -, hresult⟩ := exists_of_forall₂_right h.numbered.out hd'
  obtain ⟨k, hk, htarget, -⟩ := hresult.other ((isData_of_kind hresult.kind).symm.trans hother)
  exact ⟨k, hk, htarget⟩

/-- No field is imported into a column of flags. -/
theorem target_ne_of_isMatch {d₁' d₂' : DicImport} (hd₁' : d₁' ∈ dic.dictionary)
    (hother : d₁'.isData = false) (hmatch₁ : d₁'.isMatch = false) (hd₂' : d₂' ∈ dic.dictionary)
    (hmatch₂ : d₂'.isMatch = true) : d₁'.target ≠ d₂'.target := by
  obtain ⟨d₁, hd₁, hresult₁⟩ := exists_of_forall₂_right h.numbered.out hd₁'
  obtain ⟨d₂, hd₂, hresult₂⟩ := exists_of_forall₂_right h.numbered.out hd₂'
  rw [isMatch_of_kind hresult₁.kind] at hmatch₁
  rw [isMatch_of_kind hresult₂.kind] at hmatch₂
  rw [isData_of_kind hresult₁.kind] at hother
  obtain ⟨i, fld, hi, -, hplace₁, -⟩ :=
    SpecCompiler.mem_importFields h.built (h.mem_importFields hd₁ hmatch₁)
  obtain ⟨j, -, hplace₂, -⟩ := h.flag (h.mem_imports hd₂ hmatch₂)
  have hcolumn : d₂.target = (fields.length + j / 31 : Nat) := congrArg Prod.fst hplace₂
  obtain ⟨k₁, -, htarget₁, hindex₁⟩ := hresult₁.other hother
  obtain ⟨k₂, -, htarget₂, hindex₂⟩ := hresult₂.other (DicImport.isMatch_iff.mp hmatch₂).isData
  rw [hplace₁, Int.toNat_natCast] at hindex₁
  rw [hcolumn, Int.toNat_natCast] at hindex₂
  intro heq
  have hvalue : (k₁ : Int) = k₂ := by
    rw [← htarget₁, ← htarget₂, heq]
  rw [← hvalue] at hindex₂
  have hlt := (List.getElem?_eq_some_iff.mp hindex₁).1
  have hsame := (List.getElem?_inj hlt h.nodup_dicIndices).mp (hindex₁.trans hindex₂.symm)
  have hfield := (List.getElem?_eq_some_iff.mp hi).1
  omega

theorem indexed : IndexedDictionary bldr g.computeByName.keys dic where
  indices := h.numbered.indices
  fieldImports := h.names_fieldImports
  feature _ hd hmatch hkeys := (h.userImport hd hmatch).1 hkeys
  data _ hd hmatch hkeys := (h.userImport hd hmatch).2 hkeys
  matchImports := by convert h.names_matchImports
  flag _ hd hmatch := h.matchImport hd hmatch
  distinct := h.nodup_matchImports

/-- The number that the last import of a name left for its feature. -/
theorem exists_final {d : DicImport} (hd : d ∈ sortedImports st.dictionary) (hother : d.isData = false)
    (hname : d.name ∈ g.computeByName.keys) {info : AccessFeatureInfo}
    (hinfo : dic.computeByName.find d.name = some info) :
    ∃ d' ∈ dic.dictionary, d'.isData = false ∧ d'.name = d.name ∧ info.dicFinalNumber = d'.target ∧
      ∃ k : Nat, k < dic.numDicFeatures ∧ d'.target = k := by
  rw [← h.flagged.keys] at hname
  obtain ⟨info', hinfo', d', hd', hdata', hname', hfinal⟩ := h.numbered.final d hd hother hname
  rw [hinfo] at hinfo'
  cases hinfo'
  obtain ⟨d₀, hd₀, hresult⟩ := exists_of_forall₂_right h.numbered.out hd'
  obtain ⟨k, hk, htarget, -⟩ := hresult.other ((isData_of_kind hresult.kind).symm.trans hdata')
  exact ⟨d', hd', hdata', hname', hfinal, k, hk, htarget⟩

/-- A field that is a feature itself is read from a column of the entry. -/
theorem copy (hwithin : Within bldr.Declares g.computeByName) {name : SpecName}
    (hname : name ∈ g.computeByName.keys) (hfeature : findFeature bldr.features name = none)
    {info : AccessFeatureInfo} (hinfo : dic.computeByName.find name = some info) :
    ∃ k : Nat, k < dic.numDicFeatures ∧ info.dicFinalNumber = k := by
  have hfield : name ∈ fields.map Field.name := by
    rw [h.built.names]
    apply (hwithin name hname).resolve_right
    intro hmem
    obtain ⟨f, hf, rfl⟩ := List.mem_map.mp hmem
    have hnone := List.find?_eq_none.mp hfeature f hf
    simp at hnone
  obtain ⟨fld, hfld, rfl⟩ := List.mem_map.mp hfield
  obtain ⟨i, hi⟩ := List.mem_iff_getElem?.mp hfld
  obtain ⟨d, hd, hdname, -⟩ := exists_importFields h.built (m := g.computeByName) hi
  obtain ⟨-, fld', -, hdname', -, hdata⟩ := SpecCompiler.mem_importFields h.built hd
  have hother : d.isData = false := by
    rw [← Bool.not_eq_true, hdata, ← hdname', hdname]
    exact not_not.mpr hname
  rw [← hdname] at hname hinfo
  obtain ⟨d', -, -, -, hfinal, k, hk, htarget⟩ :=
    h.exists_final (h.mem_sorted.mpr (.inl hd)) hother hname hinfo
  exact ⟨k, hk, hfinal.trans htarget⟩

/-- A match feature is read from a flag that stands for its name. -/
theorem singleBit (hnames : bldr.validateNames) {name : SpecName}
    (hname : name ∈ g.computeByName.keys) {f : FeatureBuilder}
    (hfeature : findFeature bldr.features name = some f) (hmatch : f.isMatch = true)
    {info : AccessFeatureInfo} (hinfo : dic.computeByName.find name = some info) :
    (∃ d ∈ dic.dictionary, d.isMatch = true ∧ d.name = name ∧ info.dicFinalNumber = d.target) ∧
      ∃ d ∈ dic.dictionary, d.isMatch = true ∧ d.name = name ∧ info.shift = d.shift := by
  have hf := List.mem_of_find?_eq_some hfeature
  have hfname : f.name = name := by
    have heq := List.find?_some hfeature
    exact (of_decide_eq_true heq).symm
  have hmem : name ∈ imports.map DicImport.name := by
    rw [h.flagged.names, List.filter_filter, ← hfname]
    apply List.mem_map_of_mem
    rw [List.mem_filter, hmatch, hfname]
    exact ⟨hf, by simp [hname]⟩
  obtain ⟨d, hd, rfl⟩ := List.mem_map.mp hmem
  have hsorted := h.mem_sorted.mpr (.inr hd)
  constructor
  · obtain ⟨d', hd', hdata', hname', hfinal, -⟩ :=
      h.exists_final hsorted (h.flagged.isMatch d hd).isData hname hinfo
    refine ⟨d', hd', ?_, hname', hfinal⟩
    -- no field has the name of a feature
    by_contra hnot
    rw [Bool.not_eq_true] at hnot
    obtain ⟨d₀, hd₀, hresult⟩ := exists_of_forall₂_right h.numbered.out hd'
    rw [isMatch_of_kind hresult.kind] at hnot
    obtain ⟨i, fld, hi, hfield, -⟩ :=
      SpecCompiler.mem_importFields h.built (h.mem_importFields hd₀ hnot)
    apply hnames.2 f hf
    rw [← h.built.names, hfname, ← hname', hresult.name, hfield]
    exact List.mem_map_of_mem (List.mem_of_getElem? hi)
  · obtain ⟨info₁, hinfo₁, d₁, hd₁, hname₁, hshift₁⟩ := h.flagged.shift d hd
    obtain ⟨info₀, hinfo₀, heq⟩ := h.numbered.info d.name info hinfo
    rw [hinfo₁] at hinfo₀
    cases hinfo₀
    obtain ⟨d', hd', hresult⟩ := exists_of_forall₂_left h.numbered.out (h.mem_sorted.mpr (.inr hd₁))
    refine ⟨d', hd', ?_, hresult.name.trans hname₁, ?_⟩
    · rw [isMatch_of_kind hresult.kind]
      exact h.isMatch_imports hd₁
    · rw [hresult.shift, ← hshift₁, heq]

/-- A field with values of its own that a feature takes the length of has a column in the entry. -/
theorem length {f : FeatureBuilder} (hf : f ∈ bldr.features) {ref : SpecName} (href : ref ∈ f.fields)
    {fld : Field} (hfld : fieldByName dic.fields ref = some fld)
    (htype : fld.fieldType = .String ∨ fld.fieldType = .Int) : 0 ≤ fld.dicIndex := by
  have hname : ref = fld.name := by
    have heq := List.find?_some hfld
    exact of_decide_eq_true heq
  obtain ⟨i, hi⟩ := List.mem_iff_getElem?.mp (List.mem_of_find?_eq_some hfld)
  have hlt : i < st.fields.length := by
    rw [← length_of_shape h.numbered.shape]
    exact (List.getElem?_eq_some_iff.mp hi).1
  have hindex : (dicIndices dic)[i]? = some fld.dicIndex := by
    rw [dicIndices, List.getElem?_map, hi]
    rfl
  by_cases hplace : DataPlace g.computeByName fields i
  · exfalso
    obtain ⟨fld₀, hi₀, hunnamed⟩ := hplace
    have hshape := congrArg (·[i]?) h.numbered.shape
    simp only [List.getElem?_map, hi, h.getElem?_user hi₀, Option.map_some, Option.some.injEq]
      at hshape
    have hname₀ : fld.name = fld₀.name := congrArg (·.2.1) hshape
    have htype₀ : fld.fieldType = fld₀.fieldType := congrArg (·.2.2.2) hshape
    rw [← hname₀, ← hname] at hunnamed
    apply hunnamed
    apply (h.referred f hf).field ref href fld₀
    · have hget : (bldr.fields.map FieldBuilder.name)[i]? = some ref := by
        rw [← h.built.names, List.getElem?_map, hi₀, hname, hname₀]
        rfl
      have hfields : fields.map Field.name = bldr.fields.map FieldBuilder.name ++ [] := by
        rw [List.append_nil]
        exact h.built.names
      have hplace := fieldPlace_of_nodup h.names hfields hget
      rw [fieldByName_eq, hplace]
      exact hi₀
    · rw [← htype₀]
      exact htype
  · obtain ⟨k, -, hk⟩ := (h.index hlt).2 hplace
    rw [hindex] at hk
    rw [Option.some.inj hk]
    exact Int.natCast_nonneg k

end DicMade

end SpecCompiler

end Jumanpp.Core.Spec
