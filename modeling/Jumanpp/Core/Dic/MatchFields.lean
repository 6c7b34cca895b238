import Mathlib
import Jumanpp.Core.Dic.ListImportReads
import Jumanpp.Util.CsvReader

/-!
# The match features of a dictionary row

A match feature owns one bit of a column of flags.  Strings are compared by their pointers; a string that
its storage does not have has the pointer -1.
-/

namespace Jumanpp.Core.Dic

open Jumanpp.Lib Jumanpp.Util Jumanpp.Util.Csv

abbrev Row := List (List UInt8)

def comma : UInt8 := 44

def doubleQuote : UInt8 := 34

/-- The strings of a storage with their pointers. -/
abbrev Mapping := List (StdString × Int32)

/-- A referenced String field; `field` is `position - 1`. -/
structure StringColumn where
  mapping : Mapping
  field : Nat

/-- `csv.field(idx)`; `computeStats` has checked that every row has the columns of the fields. -/
def StringColumn.string (column : StringColumn) (csv : Row) : List UInt8 :=
  csv.getD column.field []

def StringColumn.valueOf (column : StringColumn) (sp : List UInt8) : Int32 :=
  valueAt column.mapping sp

/-! ## Importing -/

namespace StringStorage

/-- `StringFieldImporter::importFieldValue`. -/
def importString (ignore : List UInt8) (storage : StringStorage) (sp : List UInt8) :
    Bool × StringStorage :=
  if ignore = sp ∨ sp = [] then (true, storage) else storage.increaseFieldValueCount sp

end StringStorage

/-- `StringFieldImporter::fieldPointer`. -/
def fieldPointer (mapping : Mapping) (ignore sp : List UInt8) : Int32 :=
  if sp = [] ∨ ignore = sp then 0 else valueAt mapping sp

/-! ## The features -/

/-- The lines of a match feature, as the compiler leaves them in `data`. -/
structure MatchDescriptor where
  target : Nat
  shift : Nat
  data : List (List UInt8)

/-- `data_` is a set of tuples of pointers. -/
structure MatchFieldTupleDicFeatureImpl where
  columns : List StringColumn
  target : Nat
  shift : Nat
  data : List (List Int32)

structure MatchListDicFeatureImpl where
  mapping : Mapping
  fieldIdx : Nat
  target : Nat
  shift : Nat
  dataSep : UInt8
  kvSep : List UInt8
  data : List Int32

inductive DicFeature
  | ImportField (target : Nat) (fieldPointer : Row → Int32)
  | MatchList (impl : MatchListDicFeatureImpl)
  | MatchFieldTuple (impl : MatchFieldTupleDicFeatureImpl)

/-- The fields of one line of `data`. -/
def parseLine (s : List UInt8) : Option Row :=
  let line := (CsvReader.initFromMemory comma doubleQuote s).nextLine
  if line.1 then some line.2.fields else none

namespace MatchFieldTupleDicFeatureImpl

/-- The pointers of a line; `none` if a value has not been imported. -/
def lineFeatures : List StringColumn → Row → Option (List Int32)
  | column :: columns, v :: values =>
      let idx := column.valueOf v
      if idx = -1 then none else (lineFeatures columns values).map (idx :: ·)
  | _, _ => some []

/-- The loop over the lines.  A line whose values are not all known is an error or is left out. -/
def initializeData (errorOnAbsentValues : Bool) (columns : List StringColumn) :
    List (List UInt8) → Option (List (List Int32))
  | [] => some []
  | s :: rest => do
      let values ← parseLine s
      if values.length ≠ columns.length then none
      else
        match lineFeatures columns values with
        | some features => do
            let data ← initializeData errorOnAbsentValues columns rest
            some (features :: data)
        | none => if errorOnAbsentValues then none else initializeData errorOnAbsentValues columns rest

/-- `initialize`; nothing sets `errorOnAbsentValues`. -/
def initializeFrom (columns : List StringColumn) (desc : MatchDescriptor) :
    Option MatchFieldTupleDicFeatureImpl :=
  (initializeData false columns desc.data).map fun data => ⟨columns, desc.target, desc.shift, data⟩

variable (impl : MatchFieldTupleDicFeatureImpl)

def features (csv : Row) : List Int32 :=
  impl.columns.map fun column => column.valueOf (column.string csv)

def contains (csv : Row) : Bool :=
  decide (impl.features csv ∈ impl.data)

end MatchFieldTupleDicFeatureImpl

namespace MatchListDicFeatureImpl

variable (impl : MatchListDicFeatureImpl)

/-- The part of a value before its separator. -/
def keyOf (kvSep v : List UInt8) : List UInt8 :=
  if kvSep = [] then v else ((splitFirst kvSep v).map Prod.fst).getD v

/-- `initialize`: the list separator must have exactly one byte, and unknown keys are left out. -/
def initializeFrom (mapping : Mapping) (fieldIdx : Nat) (listSeparator kvSep : List UInt8)
    (desc : MatchDescriptor) : Option MatchListDicFeatureImpl :=
  match listSeparator with
  | [sep] =>
      let pointers := desc.data.map fun v => valueAt mapping (keyOf kvSep v)
      some ⟨mapping, fieldIdx, desc.target, desc.shift, sep, kvSep, pointers.filter (· ≠ -1)⟩
  | _ => none

def contains (csv : Row) : Bool :=
  let line := (CsvReader.initFromMemory impl.dataSep doubleQuote (csv.getD impl.fieldIdx [])).nextLine
  line.1 && line.2.fields.any fun v =>
    let idx := valueAt impl.mapping (keyOf impl.kvSep v)
    idx ≠ -1 && decide (idx ∈ impl.data)

end MatchListDicFeatureImpl

/-- The integers of an entry. -/
abbrev FeatureData := List (BitVec 32)

/-- `featureData.at(target) |= (1 << shift)`. -/
def setBit (target shift : Nat) (featureData : FeatureData) : FeatureData :=
  featureData.modify target fun v => v ||| (1#32 <<< shift)

/-- Whether a bit is set, as the primitive feature reads it. -/
def bitAt (featureData : FeatureData) (target shift : Nat) : Bool :=
  (featureData.getD target 0).getLsbD shift

namespace DicFeature

def apply (featureData : FeatureData) (csv : Row) : DicFeature → FeatureData
  | ImportField target fieldPointer => featureData.set target (fieldPointer csv).toBitVec
  | MatchList impl => if impl.contains csv then setBit impl.target impl.shift featureData else featureData
  | MatchFieldTuple impl =>
      if impl.contains csv then setBit impl.target impl.shift featureData else featureData

/-- The bit that a match feature owns. -/
def place : DicFeature → Option (Nat × Nat)
  | ImportField _ _ => none
  | MatchList impl => some (impl.target, impl.shift)
  | MatchFieldTuple impl => some (impl.target, impl.shift)

def target : DicFeature → Nat
  | ImportField target _ => target
  | MatchList impl => impl.target
  | MatchFieldTuple impl => impl.target

def test (csv : Row) : DicFeature → Bool
  | ImportField _ _ => false
  | MatchList impl => impl.contains csv
  | MatchFieldTuple impl => impl.contains csv

/-- The features own no bit together. -/
def Apart (f g : DicFeature) : Prop :=
  f.place = none ∨ f.place ≠ g.place

end DicFeature

/-- The features of a dictionary, as the compiler numbers them: a bit has one owner, and the column of a
field has no flags. -/
structure FeatureTable where
  numDicFeatures : Nat
  features : List DicFeature
  distinct : features.Pairwise DicFeature.Apart
  separate : ∀ f ∈ features, f.place = none → ∀ g ∈ features, g.place ≠ none → f.target ≠ g.target
  target_lt : ∀ f ∈ features, f.target < numDicFeatures
  shift_lt : ∀ f ∈ features, ∀ p, f.place = some p → p.2 < 32

/-- `EntryTableBuilder::computeFeatures` with the features in some order. -/
def computeFeatures (numDicFeatures : Nat) (features : List DicFeature) (csv : Row) : FeatureData :=
  features.foldl (fun data f => f.apply data csv) (List.replicate numDicFeatures 0)

/-! ## Bits -/

@[simp] theorem length_setBit (target shift : Nat) (data : FeatureData) :
    (setBit target shift data).length = data.length :=
  List.length_modify _ _ _

theorem bitAt_setBit {target shift : Nat} {data : FeatureData} (htarget : target < data.length)
    (hshift : shift < 32) (target' shift' : Nat) :
    bitAt (setBit target shift data) target' shift' =
      (bitAt data target' shift' || decide ((target, shift) = (target', shift'))) := by
  unfold bitAt setBit
  rw [List.getD_eq_getElem?_getD, List.getD_eq_getElem?_getD, List.getElem?_modify]
  by_cases heq : target = target'
  · subst heq
    rw [List.getElem?_eq_getElem htarget]
    simp only [if_pos, Option.getD_some, ← BitVec.twoPow_eq, Prod.mk.injEq, true_and]
    simp [hshift]
  · simp [heq]

namespace DicFeature

instance : Std.Symm Apart where
  symm f g h := by
    by_cases hg : g.place = none
    · exact .inl hg
    · refine .inr fun hsame => ?_
      rcases h with h | h
      · exact hg (hsame.trans h)
      · exact h hsame.symm

theorem length_apply (f : DicFeature) (data : FeatureData) (csv : Row) :
    (f.apply data csv).length = data.length := by
  cases f with
  | ImportField target fieldPointer => exact List.length_set
  | MatchList impl =>
      simp only [apply]
      split
      · exact length_setBit _ _ _
      · rfl
  | MatchFieldTuple impl =>
      simp only [apply]
      split
      · exact length_setBit _ _ _
      · rfl

theorem bitAt_ite_setBit {target shift : Nat} {data : FeatureData} (htarget : target < data.length)
    (hshift : shift < 32) (b : Bool) (target' shift' : Nat) :
    bitAt (if b then setBit target shift data else data) target' shift' =
      (bitAt data target' shift' || (decide (some (target, shift) = some (target', shift')) && b)) := by
  cases b with
  | false => simp
  | true => simp [bitAt_setBit htarget hshift]

end DicFeature

namespace FeatureTable

variable (table : FeatureTable) {f : DicFeature} {data : FeatureData}

/-- What one feature does to a bit of the match features: only its owner can set it. -/
theorem bitAt_apply (hf : f ∈ table.features) (hlength : data.length = table.numDicFeatures)
    {owner : DicFeature} (howner : owner ∈ table.features) {target shift : Nat}
    (hplace : owner.place = some (target, shift)) (csv : Row) :
    bitAt (f.apply data csv) target shift =
      (bitAt data target shift || (decide (f.place = some (target, shift)) && f.test csv)) := by
  have hlt : f.target < data.length := hlength ▸ table.target_lt f hf
  have hshift := table.shift_lt f hf
  cases f with
  | MatchList impl =>
      exact DicFeature.bitAt_ite_setBit hlt (hshift _ rfl) (impl.contains csv) target shift
  | MatchFieldTuple impl =>
      exact DicFeature.bitAt_ite_setBit hlt (hshift _ rfl) (impl.contains csv) target shift
  | ImportField column fieldPointer =>
      have hne : column ≠ target := by
        have hseparate := table.separate _ hf rfl owner howner (by rw [hplace]; exact Option.some_ne_none _)
        have htarget : owner.target = target := by
          cases owner with
          | ImportField _ _ => cases hplace
          | MatchList impl => exact congrArg Prod.fst (Option.some.inj hplace)
          | MatchFieldTuple impl => exact congrArg Prod.fst (Option.some.inj hplace)
        exact htarget ▸ hseparate
      show bitAt (data.set column _) target shift = _
      unfold bitAt
      rw [List.getD_eq_getElem?_getD, List.getElem?_set_ne hne, ← List.getD_eq_getElem?_getD]
      exact (Bool.or_false _).symm

/-- Applying a feature leaves the bits of all others. -/
theorem bitAt_apply_of_ne (hf : f ∈ table.features) (hlength : data.length = table.numDicFeatures)
    {owner : DicFeature} (howner : owner ∈ table.features) {target shift : Nat}
    (hplace : owner.place = some (target, shift)) (hne : f ≠ owner) (csv : Row) :
    bitAt (f.apply data csv) target shift = bitAt data target shift := by
  have hother : f.place ≠ some (target, shift) := by
    intro heq
    rcases table.distinct.forall hf howner hne with h | h
    · rw [heq] at h
      cases h
    · exact h (heq.trans hplace.symm)
  rw [table.bitAt_apply hf hlength howner hplace, decide_eq_false hother, Bool.false_and, Bool.or_false]

/-- The features set a bit if and only if its owner does. -/
theorem bitAt_foldl {order : List DicFeature} (horder : order ⊆ table.features)
    (hlength : data.length = table.numDicFeatures) {owner : DicFeature}
    (howner : owner ∈ table.features) {target shift : Nat}
    (hplace : owner.place = some (target, shift)) (csv : Row) :
    bitAt (order.foldl (fun data f => f.apply data csv) data) target shift =
      (bitAt data target shift ||
        order.any fun f => decide (f.place = some (target, shift)) && f.test csv) := by
  induction order generalizing data with
  | nil => exact (Bool.or_false _).symm
  | cons f order ih =>
      obtain ⟨hf, hrest⟩ := List.cons_subset.mp horder
      rw [List.foldl_cons, ih hrest ((f.length_apply data csv).trans hlength),
        table.bitAt_apply hf hlength howner hplace, List.any_cons, Bool.or_assoc]

/-- In whichever order the features are applied. -/
theorem bitAt_computeFeatures {order : List DicFeature} (horder : order.Perm table.features)
    {owner : DicFeature} (howner : owner ∈ table.features) {target shift : Nat}
    (hplace : owner.place = some (target, shift)) (csv : Row) :
    bitAt (computeFeatures table.numDicFeatures order csv) target shift = owner.test csv := by
  unfold computeFeatures
  rw [table.bitAt_foldl horder.subset List.length_replicate howner hplace]
  have hzero : bitAt (List.replicate table.numDicFeatures 0) target shift = false := by
    unfold bitAt
    rw [List.getD_eq_getElem?_getD, List.getElem?_replicate]
    split <;> simp
  rw [hzero, Bool.false_or, Bool.eq_iff_iff, List.any_eq_true]
  constructor
  · rintro ⟨f, hf, htest⟩
    obtain ⟨hsame, htest⟩ := Bool.and_eq_true_iff.mp htest
    by_contra hnot
    have hne : f ≠ owner := fun heq => hnot (heq ▸ htest)
    rcases table.distinct.forall (horder.subset hf) howner hne with h | h
    · rw [of_decide_eq_true hsame] at h
      cases h
    · exact h ((of_decide_eq_true hsame).trans hplace.symm)
  · intro htest
    exact ⟨owner, horder.mem_iff.mpr howner, Bool.and_eq_true_iff.mpr ⟨decide_eq_true hplace, htest⟩⟩

end FeatureTable

/-- A storage whose pointers are all different, and none of them -1. -/
structure StringColumn.Sound (column : StringColumn) : Prop where
  nodup : (column.mapping.map (·.2)).Nodup
  ne : ∀ entry ∈ column.mapping, entry.2 ≠ -1

/-! ## Lines -/

namespace MatchFieldTupleDicFeatureImpl

/-- The lines of a feature, field by field. -/
def linesOf (desc : MatchDescriptor) : List Row :=
  desc.data.filterMap parseLine

/-- The strings of a row in the referenced columns. -/
def stringsOf (columns : List StringColumn) (csv : Row) : Row :=
  columns.map fun column => column.string csv

/-- The pointers of as many strings. -/
def pointersOf (columns : List StringColumn) (values : Row) : List Int32 :=
  List.zipWith StringColumn.valueOf columns values

/-- No value of a line has been skipped by the importers. -/
def Known (columns : List StringColumn) (values : Row) : Prop :=
  ∀ idx ∈ pointersOf columns values, idx ≠ -1

instance (columns : List StringColumn) (values : Row) : Decidable (Known columns values) :=
  inferInstanceAs (Decidable (∀ idx ∈ pointersOf columns values, idx ≠ -1))

theorem lineFeatures_eq (columns : List StringColumn) (values : Row) :
    lineFeatures columns values =
      if Known columns values then some (pointersOf columns values) else none := by
  induction columns generalizing values with
  | nil => cases values <;> simp [lineFeatures, pointersOf, Known]
  | cons column columns ih =>
      cases values with
      | nil => simp [lineFeatures, pointersOf, Known]
      | cons v values =>
          have hknown : Known (column :: columns) (v :: values) ↔
              column.valueOf v ≠ -1 ∧ Known columns values := List.forall_mem_cons
          unfold lineFeatures
          by_cases hidx : column.valueOf v = -1
          · rw [if_pos hidx, if_neg fun h => (hknown.mp h).1 hidx]
          · rw [if_neg hidx, ih]
            by_cases hrest : Known columns values
            · rw [if_pos hrest, if_pos (hknown.mpr ⟨hidx, hrest⟩)]
              rfl
            · rw [if_neg hrest, if_neg fun h => hrest (hknown.mp h).2]
              rfl

/-- What `initialize` does with one line. -/
theorem initializeData_cons {columns : List StringColumn} {s : List UInt8} {data : List (List UInt8)}
    {result : List (List Int32)} (h : initializeData false columns (s :: data) = some result) :
    ∃ values, parseLine s = some values ∧ values.length = columns.length ∧
      ((Known columns values ∧ ∃ rest, initializeData false columns data = some rest ∧
          result = pointersOf columns values :: rest) ∨
        (¬ Known columns values ∧ initializeData false columns data = some result)) := by
  unfold initializeData at h
  obtain ⟨values, hvalues, h⟩ := Option.bind_eq_some_iff.mp h
  refine ⟨values, hvalues, ?_⟩
  by_cases hlength : values.length = columns.length
  · rw [if_neg (not_not.mpr hlength), lineFeatures_eq] at h
    refine ⟨hlength, ?_⟩
    by_cases hknown : Known columns values
    · rw [if_pos hknown] at h
      obtain ⟨rest, hrest, h⟩ := Option.bind_eq_some_iff.mp h
      exact .inl ⟨hknown, rest, hrest, (Option.some.inj h).symm⟩
    · rw [if_neg hknown] at h
      exact .inr ⟨hknown, h⟩
  · rw [if_pos hlength] at h
    cases h

/-- The tuples that a feature has been given: those of its lines whose values are all known. -/
theorem mem_initializeData {columns : List StringColumn} {data : List (List UInt8)}
    {result : List (List Int32)} (h : initializeData false columns data = some result)
    (tuple : List Int32) :
    tuple ∈ result ↔ ∃ values ∈ data.filterMap parseLine,
      Known columns values ∧ pointersOf columns values = tuple := by
  induction data generalizing result with
  | nil =>
      cases h
      simp
  | cons s data ih =>
      obtain ⟨values, hvalues, -, hcase⟩ := initializeData_cons h
      rw [List.filterMap_cons_some hvalues]
      simp only [List.mem_cons, exists_eq_or_imp]
      rcases hcase with ⟨hknown, rest, hrest, rfl⟩ | ⟨hknown, hrest⟩
      · rw [List.mem_cons, ih hrest]
        simp only [hknown, true_and]
        exact or_congr_left eq_comm
      · rw [ih hrest]
        simp only [hknown, false_and, false_or]

theorem lines_length {columns : List StringColumn} {data : List (List UInt8)}
    {result : List (List Int32)} (h : initializeData false columns data = some result) :
    ∀ values ∈ data.filterMap parseLine, values.length = columns.length := by
  induction data generalizing result with
  | nil => simp
  | cons s data ih =>
      obtain ⟨values, hvalues, hlength, hcase⟩ := initializeData_cons h
      rw [List.filterMap_cons_some hvalues, List.forall_mem_cons]
      refine ⟨hlength, ?_⟩
      rcases hcase with ⟨-, rest, hrest, -⟩ | ⟨-, hrest⟩
      · exact ih hrest
      · exact ih hrest

theorem pointersOf_stringsOf (columns : List StringColumn) (csv : Row) :
    pointersOf columns (stringsOf columns csv) = columns.map fun column => column.valueOf (column.string csv) := by
  unfold pointersOf stringsOf
  rw [List.zipWith_map_right, List.zipWith_self]

theorem contains_iff {columns : List StringColumn} {desc : MatchDescriptor}
    {impl : MatchFieldTupleDicFeatureImpl} (h : initializeFrom columns desc = some impl) (csv : Row) :
    impl.contains csv = true ↔ ∃ values ∈ linesOf desc, Known columns values ∧
      pointersOf columns values = pointersOf columns (stringsOf columns csv) := by
  obtain ⟨data, hdata, rfl⟩ := Option.map_eq_some_iff.mp h
  unfold contains features
  rw [decide_eq_true_iff, mem_initializeData hdata, pointersOf_stringsOf]
  rfl

/-- When the lines of a feature decide about a row: a line that equals the row has no value that the
importers have skipped, and a line with the pointers of the row comes with one that equals it. -/
structure Matchable (columns : List StringColumn) (lines : List Row) (csv : Row) : Prop where
  known : stringsOf columns csv ∈ lines → Known columns (stringsOf columns csv)
  distinct : ∀ values ∈ lines, Known columns values →
    pointersOf columns values = pointersOf columns (stringsOf columns csv) → stringsOf columns csv ∈ lines

theorem contains_iff_mem_iff {columns : List StringColumn} {desc : MatchDescriptor}
    {impl : MatchFieldTupleDicFeatureImpl} (h : initializeFrom columns desc = some impl) (csv : Row) :
    (impl.contains csv = true ↔ stringsOf columns csv ∈ linesOf desc) ↔
      Matchable columns (linesOf desc) csv := by
  rw [contains_iff h]
  constructor
  · intro hiff
    constructor
    · intro hmem
      obtain ⟨values, -, hknown, heq⟩ := hiff.mpr hmem
      unfold Known at hknown ⊢
      rw [← heq]
      exact hknown
    · intro values hvalues hknown heq
      exact hiff.mp ⟨values, hvalues, hknown, heq⟩
  · intro hmatchable
    constructor
    · rintro ⟨values, hvalues, hknown, heq⟩
      exact hmatchable.distinct values hvalues hknown heq
    · intro hmem
      exact ⟨_, hmem, hmatchable.known hmem, rfl⟩

/-! ## With the pointers of a storage -/

theorem valueAt_ne_iff {mapping : Mapping} (hne : ∀ entry ∈ mapping, entry.2 ≠ -1)
    {sp : List UInt8} : valueAt mapping sp ≠ -1 ↔ sp ∈ mapping.map (·.1.elems) := by
  constructor
  · intro hvalue
    apply find_ne_none_iff.mp
    intro hnone
    apply hvalue
    rw [valueAt, hnone]
    rfl
  · intro hmem
    obtain ⟨entry, hentry, -, hvalue⟩ := exists_entry hmem
    rw [← hvalue]
    exact hne entry hentry

theorem pointersOf_inj {columns : List StringColumn} (hsound : ∀ column ∈ columns, column.Sound)
    {values values' : Row} (hlength : values.length = columns.length)
    (hlength' : values'.length = columns.length) (hknown : Known columns values)
    (heq : pointersOf columns values = pointersOf columns values') : values = values' := by
  induction columns generalizing values values' with
  | nil =>
      rw [List.length_eq_zero_iff.mp hlength, List.length_eq_zero_iff.mp hlength']
  | cons column columns ih =>
      obtain ⟨hcolumn, hrest⟩ := List.forall_mem_cons.mp hsound
      obtain ⟨v, values, rfl⟩ := List.exists_cons_of_length_eq_add_one hlength
      obtain ⟨v', values', rfl⟩ := List.exists_cons_of_length_eq_add_one hlength'
      obtain ⟨hv, hvalues⟩ := List.forall_mem_cons.mp hknown
      obtain ⟨hvalue, htail⟩ := List.cons.inj heq
      have hkey := (valueAt_ne_iff hcolumn.ne).mp hv
      have hkey' := (valueAt_ne_iff hcolumn.ne).mp (hvalue ▸ hv)
      rw [valueAt_injOn hcolumn.nodup hkey hkey' hvalue,
        ih hrest (Nat.succ.inj hlength) (Nat.succ.inj hlength') hvalues htail]

/-- With such storages the only rows that go wrong are those that equal a line with a string which has
not been imported. -/
theorem matchable_iff_stored {columns : List StringColumn}
    (hsound : ∀ column ∈ columns, column.Sound) {lines : List Row}
    (hlength : ∀ values ∈ lines, values.length = columns.length) (csv : Row) :
    Matchable columns lines csv ↔ (stringsOf columns csv ∈ lines →
      ∀ column ∈ columns, column.string csv ∈ column.mapping.map (·.1.elems)) := by
  have hknown : Known columns (stringsOf columns csv) ↔
      ∀ column ∈ columns, column.string csv ∈ column.mapping.map (·.1.elems) := by
    unfold Known
    rw [pointersOf_stringsOf, List.forall_mem_map]
    exact forall₂_congr fun column hcolumn => valueAt_ne_iff (hsound column hcolumn).ne
  constructor
  · intro hmatchable hmem
    exact hknown.mp (hmatchable.known hmem)
  · intro hstored
    refine ⟨fun hmem => hknown.mpr (hstored hmem), ?_⟩
    intro values hvalues hvaluesKnown heq
    have hlengthRow : (stringsOf columns csv).length = columns.length := List.length_map _
    rw [← pointersOf_inj hsound (hlength values hvalues) hlengthRow hvaluesKnown heq]
    exact hvalues

end MatchFieldTupleDicFeatureImpl

/-! ## With the strings of the rows -/

namespace StringStorage

variable {storage : StringStorage} {forSort : List (StdString × Int32)}

theorem Fits.ne_absent (h : storage.Fits forSort) :
    ∀ entry ∈ (storage.makeStorage forSort).1, entry.2 ≠ -1 := by
  intro entry hentry
  rw [stored_eq] at hentry
  obtain ⟨position, hposition, rfl⟩ := List.mem_map.mp hentry
  have hpointer := toInt_pointerOf (h position hposition)
  intro hneg
  change pointerOf storage.alignmentPower position.1 = -1 at hneg
  rw [hneg] at hpointer
  have hone : (-1 : Int32).toInt = -1 := by decide
  have hnonneg := Int.natCast_nonneg (position.1 >>> storage.alignmentPower)
  rw [← hpointer, hone] at hnonneg
  exact absurd hnonneg (by decide)

/-- What the pointers of a storage with less than 31 bits of positions are. -/
theorem Fits.sound (h : storage.Fits forSort) (field : Nat) :
    (StringColumn.mk (storage.makeStorage forSort).1 field).Sound :=
  ⟨h.nodup_values, h.ne_absent⟩

/-- An importer never stores its own empty value or the empty string. -/
theorem mem_keys_importString {ignore sp key : List UInt8} :
    key ∈ (storage.importString ignore sp).2.keys ↔
      key ∈ storage.keys ∨ (key = sp ∧ sp.length ≤ charBufferPage) ∧ sp ≠ ignore ∧ sp ≠ [] := by
  unfold importString
  by_cases hskip : ignore = sp ∨ sp = []
  · rw [if_pos hskip]
    constructor
    · exact .inl
    · rintro (hkey | ⟨-, hne, hempty⟩)
      · exact hkey
      · rcases hskip with rfl | rfl
        · exact absurd rfl hne
        · exact absurd rfl hempty
  · rw [if_neg hskip, mem_keys_increaseFieldValueCount]
    obtain ⟨hne, hempty⟩ := not_or.mp hskip
    exact or_congr_right (and_iff_left ⟨fun heq => hne heq.symm, hempty⟩).symm

/-- The strings of a column, after all rows have been imported. -/
theorem mem_keys_importRows {ignore key : List UInt8} (strings : List (List UInt8)) :
    key ∈ (strings.foldl (fun storage sp => (storage.importString ignore sp).2) storage).keys ↔
      key ∈ storage.keys ∨
        (key ∈ strings ∧ key.length ≤ charBufferPage) ∧ key ≠ ignore ∧ key ≠ [] := by
  induction strings generalizing storage with
  | nil => simp
  | cons sp strings ih =>
      rw [List.foldl_cons, ih, mem_keys_importString, List.mem_cons]
      constructor
      · rintro ((hkey | ⟨⟨rfl, hpage⟩, hne⟩) | ⟨⟨hmem, hpage⟩, hne⟩)
        · exact .inl hkey
        · exact .inr ⟨⟨.inl rfl, hpage⟩, hne⟩
        · exact .inr ⟨⟨.inr hmem, hpage⟩, hne⟩
      · rintro (hkey | ⟨⟨rfl | hmem, hpage⟩, hne⟩)
        · exact .inl (.inl hkey)
        · exact .inl (.inr ⟨⟨rfl, hpage⟩, hne⟩)
        · exact .inr ⟨⟨hmem, hpage⟩, hne⟩

end StringStorage

end Jumanpp.Core.Dic
