import Jumanpp.Core.Spec.FilledFeatures
import Jumanpp.Core.Spec.TrainSpec
import Jumanpp.Core.Training.Comparison
import Jumanpp.Core.Training.FullExample
import Jumanpp.Util.MurmurHash

/-!
# Unknown words of a training example

A word that has no node in the lattice gets one of its own.  Its data are written by the numbers that the
training fields have in the dictionary; whoever looks for the node again, or compares it with another one,
reads by the numbers that the fields have in the definition.
-/

namespace Jumanpp.Core.Training

open Jumanpp.Lib Jumanpp.Core.Spec.SpecCompiler

/-- The hash of the surface as an `i32`.  A surface is a part of an input, and no input is so long that
its hash is not returned. -/
def surfaceHash (surface : List UInt8) : Int :=
  match Util.MurmurHash.hashUnkString (surface.length / 16 + 1) surface with
  | some hash => hash.toInt32.toInt
  | none => -1

theorem surfaceHash_neg (surface : List UInt8) : surfaceHash surface < 0 := by
  unfold surfaceHash
  split
  · next hash hhash => exact Int32.lt_iff_toInt_lt.mp (Util.MurmurHash.hashUnkString_negative hhash)
  · decide

/-- The node's content through an index that is not checked; `none` is outside of it. -/
def readAt (content : List Int) (idx : Int) : Option Int :=
  if 0 ≤ idx then content[idx.toNat]? else none

def writeAt (content : List Int) (idx value : Int) : Option (List Int) :=
  if 0 ≤ idx ∧ idx < content.length then some (content.set idx.toNat value) else none

section Model

variable {W : Type}

/-- A value that the dictionary does not have stands as the hash of the surface. -/
def storedValue (contHash nodeVal : Int) : Int := if 0 ≤ nodeVal then nodeVal else contHash

def writeField (contHash : Int) (nodeData : List Int) (p : TrainingField W × Int) : Option (List Int) :=
  writeAt nodeData p.1.dicIdx (storedValue contHash p.2)

/-- The content of the node that `makeUnkTrainingNode` makes; a row of an example has an entry for each
training field. -/
def makeUnkTrainingNode (spec : TrainingSpec W) (numFields : Nat) (node : ExampleNode) :
    Option (List Int) :=
  (spec.fields.zip node.data).foldlM (writeField (surfaceHash node.surface)) (List.replicate numFields 0)

/-- What `findWorstTopNode` reads of a node's data for a field. -/
def comparedValue (topData : List Int) (sf : TrainingField W) : Option Int :=
  readAt topData sf.fieldIdx

variable [Zero W] [DecidableEq W]

/-- The loop over the fields; the inner `false` is a difference. -/
def matchFields (surfaceHash : Int) (latNodeData ndata : List Int) :
    List (TrainingField W) → Option Bool
  | [] => some true
  | trainFld :: fields =>
      if trainFld.weight = 0 then matchFields surfaceHash latNodeData ndata fields
      else do
        let latVal ← readAt latNodeData trainFld.fieldIdx
        if latVal < 0 then
          if latVal ≠ surfaceHash then some false
          else matchFields surfaceHash latNodeData ndata fields
        else do
          let value ← ndata[trainFld.number]?
          if latVal ≠ value then some false
          else matchFields surfaceHash latNodeData ndata fields

def matchUnkNodeData (spec : TrainingSpec W) (latNodeData : List Int) (node : ExampleNode) :
    Option Bool :=
  matchFields (surfaceHash node.surface) latNodeData node.data (spec.fields.take node.data.length)

/-- For every node of an example: all that is written and read is inside of the new node, the node is
found again, and what `findWorstTopNode` reads for a field is the value of that field. -/
def SameNumbering (spec : TrainingSpec W) (numFields : Nat) : Prop :=
  ∀ node : ExampleNode, node.data.length = spec.fields.length →
    ∃ content, makeUnkTrainingNode spec numFields node = some content ∧
      matchUnkNodeData spec content node = some true ∧
      ∀ p ∈ spec.fields.zip node.data,
        comparedValue content p.1 = some (storedValue (surfaceHash node.surface) p.2)

/-- Each training field is stored as a feature, under the number that it has in the definition, and none
is listed twice. -/
structure NumbersCoincide (spec : TrainingSpec W) (numFields : Nat) : Prop where
  same : ∀ f ∈ spec.fields, f.fieldIdx = f.dicIdx
  feature : ∀ f ∈ spec.fields, 0 ≤ f.dicIdx ∧ f.dicIdx < numFields
  once : (spec.fields.map TrainingField.dicIdx).Nodup

end Model

/-! ## Writing -/

theorem readAt_set_self {content : List Int} {idx : Int} (h : 0 ≤ idx ∧ idx < content.length)
    (value : Int) : readAt (content.set idx.toNat value) idx = some value := by
  rw [readAt, if_pos h.1, List.getElem?_set_self]
  omega

theorem readAt_set_of_ne {content : List Int} {idx idx' : Int} (h : 0 ≤ idx) (hne : idx' ≠ idx)
    (value : Int) : readAt (content.set idx.toNat value) idx' = readAt content idx' := by
  unfold readAt
  by_cases h' : 0 ≤ idx'
  · rw [if_pos h', if_pos h', List.getElem?_set_ne]
    omega
  · rw [if_neg h', if_neg h']

theorem readAt_replicate {numFields : Nat} {idx value : Int}
    (h : readAt (List.replicate numFields 0) idx = some value) : value = 0 := by
  unfold readAt at h
  split_ifs at h
  exact List.eq_of_mem_replicate (List.mem_of_getElem? h)

section Writes

variable {W : Type}

/-- What stands at an index after the writes was there before or is the value of a field that has
this index. -/
theorem writes_inside {contHash : Int} {pairs : List (TrainingField W × Int)} {content content' : List Int}
    (h : pairs.foldlM (writeField contHash) content = some content') :
    (∀ p ∈ pairs, 0 ≤ p.1.dicIdx ∧ p.1.dicIdx < content.length) ∧
      ∀ idx, readAt content' idx = readAt content idx ∨
        ∃ p ∈ pairs, p.1.dicIdx = idx ∧ readAt content' idx = some (storedValue contHash p.2) := by
  induction pairs generalizing content with
  | nil =>
      cases h
      exact ⟨by simp, fun idx => .inl rfl⟩
  | cons p pairs ih =>
      rw [List.foldlM_cons] at h
      obtain ⟨content₁, hwrite, hrest⟩ := Option.bind_eq_some_iff.mp h
      unfold writeField writeAt at hwrite
      split_ifs at hwrite with hinside
      cases hwrite
      obtain ⟨hall, hvalues⟩ := ih hrest
      rw [List.length_set] at hall
      refine ⟨?_, fun idx => ?_⟩
      · intro q hq
        obtain rfl | hq := List.mem_cons.mp hq
        · exact hinside
        · exact hall q hq
      · obtain hsame | ⟨q, hq, hidx, hvalue⟩ := hvalues idx
        · by_cases hp : idx = p.1.dicIdx
          · refine .inr ⟨p, List.mem_cons_self .., hp.symm, ?_⟩
            rw [hsame, hp, readAt_set_self hinside]
          · left
            rw [hsame, readAt_set_of_ne hinside.1 hp]
        · exact .inr ⟨q, List.mem_cons_of_mem _ hq, hidx, hvalue⟩

/-- Writes to different indices inside of the content all stay. -/
theorem writes_distinct (contHash : Int) {pairs : List (TrainingField W × Int)} {content : List Int}
    (hinside : ∀ p ∈ pairs, 0 ≤ p.1.dicIdx ∧ p.1.dicIdx < content.length)
    (honce : (pairs.map fun p => p.1.dicIdx).Nodup) :
    ∃ content', pairs.foldlM (writeField contHash) content = some content' ∧
      (∀ idx, (∀ p ∈ pairs, p.1.dicIdx ≠ idx) → readAt content' idx = readAt content idx) ∧
      ∀ p ∈ pairs, readAt content' p.1.dicIdx = some (storedValue contHash p.2) := by
  induction pairs generalizing content with
  | nil => exact ⟨content, rfl, fun _ _ => rfl, by simp⟩
  | cons p pairs ih =>
      have hp := hinside p (List.mem_cons_self ..)
      rw [List.map_cons, List.nodup_cons] at honce
      have hrest : ∀ q ∈ pairs, 0 ≤ q.1.dicIdx ∧
          q.1.dicIdx < (content.set p.1.dicIdx.toNat (storedValue contHash p.2)).length := by
        intro q hq
        rw [List.length_set]
        exact hinside q (List.mem_cons_of_mem _ hq)
      obtain ⟨content', hwrites, hframe, hvalues⟩ := ih hrest honce.2
      refine ⟨content', ?_, ?_, ?_⟩
      · rw [List.foldlM_cons, writeField, writeAt, if_pos hp]
        exact hwrites
      · intro idx hidx
        rw [hframe idx fun q hq => hidx q (List.mem_cons_of_mem _ hq)]
        exact readAt_set_of_ne hp.1 (hidx p (List.mem_cons_self ..)).symm _
      · intro q hq
        obtain rfl | hq := List.mem_cons.mp hq
        · rw [hframe, readAt_set_self hp]
          intro r hr heq
          exact honce.1 (List.mem_map.mpr ⟨r, hr, heq⟩)
        · exact hvalues q hq

end Writes

/-! ## Reading -/

section Numbering

variable {W : Type}

theorem mem_zip_iff {fields : List (TrainingField W)} {data : List Int} {p : TrainingField W × Int} :
    p ∈ fields.zip data ↔ ∃ i : Nat, fields[i]? = some p.1 ∧ data[i]? = some p.2 := by
  rw [List.mem_iff_getElem?]
  simp only [List.getElem?_zip_eq_some]

/-- A node whose field `i` differs from all others. -/
def nodeWith (n i : Nat) : ExampleNode :=
  ⟨[], (List.range n).map fun k => if k = i then 1 else 2, 0, 0⟩

theorem length_nodeWith (n i : Nat) : (nodeWith n i).data.length = n := by
  rw [nodeWith, List.length_map, List.length_range]

theorem data_nodeWith {n k : Nat} (h : k < n) (i : Nat) :
    (nodeWith n i).data[k]? = some (if k = i then 1 else 2) := by
  rw [nodeWith, List.getElem?_map, List.getElem?_range h]
  rfl

theorem storedValue_nodeWith (contHash : Int) (k i : Nat) :
    storedValue contHash (if k = i then 1 else 2) = if k = i then 1 else 2 := by
  rw [storedValue, if_pos]
  split_ifs
  · exact Int.one_nonneg
  · exact Int.natCast_nonneg 2

variable [Zero W] [DecidableEq W]

theorem matchFields_eq_true {hash : Int} (hneg : hash < 0) {latNodeData ndata : List Int}
    {fields : List (TrainingField W)}
    (h : ∀ f ∈ fields, ∃ v, ndata[f.number]? = some v ∧
      readAt latNodeData f.fieldIdx = some (storedValue hash v)) :
    matchFields hash latNodeData ndata fields = some true := by
  induction fields with
  | nil => rfl
  | cons f fields ih =>
      have hrest := ih fun g hg => h g (List.mem_cons_of_mem _ hg)
      obtain ⟨v, hv, hread⟩ := h f (List.mem_cons_self ..)
      rw [matchFields]
      by_cases hweight : f.weight = 0
      · rw [if_pos hweight]
        exact hrest
      · rw [if_neg hweight, hread]
        show (if storedValue hash v < 0 then _ else _) = some true
        by_cases hknown : 0 ≤ v
        · have hstored : storedValue hash v = v := if_pos hknown
          rw [hstored, if_neg (Int.not_lt.mpr hknown), hv]
          show (if v ≠ v then _ else _) = some true
          rw [if_neg (not_not.mpr rfl)]
          exact hrest
        · have hstored : storedValue hash v = hash := if_neg hknown
          rw [hstored, if_pos hneg, if_neg (not_not.mpr rfl)]
          exact hrest

variable {spec : TrainingSpec W} {numFields : Nat}

theorem sameNumbering_of_coincide (h : NumbersCoincide spec numFields) :
    SameNumbering spec numFields := by
  intro node hlen
  have hfield : ∀ p ∈ spec.fields.zip node.data, p.1 ∈ spec.fields := fun p hp =>
    (List.of_mem_zip hp).1
  have honce : ((spec.fields.zip node.data).map fun p => p.1.dicIdx).Nodup := by
    have hmap : ((spec.fields.zip node.data).map fun p => p.1.dicIdx) =
        spec.fields.map TrainingField.dicIdx := by
      conv_rhs => rw [← List.map_fst_zip (Nat.le_of_eq hlen.symm), List.map_map]
      rfl
    rw [hmap]
    exact h.once
  have hinside : ∀ p ∈ spec.fields.zip node.data, 0 ≤ p.1.dicIdx ∧
      p.1.dicIdx < (List.replicate numFields (0 : Int)).length := by
    intro p hp
    rw [List.length_replicate]
    exact h.feature p.1 (hfield p hp)
  obtain ⟨content, hmake, -, hvalues⟩ := writes_distinct (surfaceHash node.surface) hinside honce
  have hcompared : ∀ p ∈ spec.fields.zip node.data,
      comparedValue content p.1 = some (storedValue (surfaceHash node.surface) p.2) := by
    intro p hp
    rw [comparedValue, h.same p.1 (hfield p hp)]
    exact hvalues p hp
  refine ⟨content, hmake, ?_, hcompared⟩
  rw [matchUnkNodeData, hlen, List.take_length]
  apply matchFields_eq_true (surfaceHash_neg node.surface)
  intro f hf
  obtain ⟨i, hi⟩ := List.mem_iff_getElem?.mp hf
  have hlt : i < node.data.length := by
    rw [hlen]
    exact (List.getElem?_eq_some_iff.mp hi).1
  have hdata : node.data[i]? = some node.data[i] := List.getElem?_eq_getElem hlt
  refine ⟨node.data[i], ?_, hcompared (f, node.data[i]) (mem_zip_iff.mpr ⟨i, hi, hdata⟩)⟩
  rw [spec.number_eq hi]
  exact hdata

/-- What stands for the field `k` when the field `i` differs from all others. -/
theorem SameNumbering.compared (h : SameNumbering spec numFields) (i : Nat) :
    ∃ content, makeUnkTrainingNode spec numFields (nodeWith spec.fields.length i) = some content ∧
      ∀ k f, spec.fields[k]? = some f →
        readAt content f.fieldIdx = some (if k = i then 1 else 2) := by
  obtain ⟨content, hmake, -, hcompared⟩ := h _ (length_nodeWith spec.fields.length i)
  refine ⟨content, hmake, ?_⟩
  intro k f hf
  have hlt : k < spec.fields.length := (List.getElem?_eq_some_iff.mp hf).1
  have hread := hcompared (f, if k = i then 1 else 2)
    (mem_zip_iff.mpr ⟨k, hf, data_nodeWith hlt i⟩)
  rw [storedValue_nodeWith] at hread
  exact hread

theorem SameNumbering.same (h : SameNumbering spec numFields) {f : TrainingField W}
    (hf : f ∈ spec.fields) : f.fieldIdx = f.dicIdx := by
  obtain ⟨i, hi⟩ := List.mem_iff_getElem?.mp hf
  obtain ⟨content, hmake, hcompared⟩ := h.compared i
  have hread := hcompared i f hi
  rw [if_pos rfl] at hread
  obtain hsame | ⟨p, hp, hidx, hvalue⟩ := (writes_inside hmake).2 f.fieldIdx
  · rw [hread] at hsame
    exact absurd (readAt_replicate hsame.symm) (by decide)
  · obtain ⟨k, hk, hdata⟩ := mem_zip_iff.mp hp
    have hlt : k < spec.fields.length := (List.getElem?_eq_some_iff.mp hk).1
    rw [data_nodeWith hlt i, Option.some.injEq] at hdata
    rw [hread, ← hdata, storedValue_nodeWith, Option.some.injEq] at hvalue
    -- only the field itself has the value that was read
    have hki : k = i := by
      by_contra hne
      rw [if_neg hne] at hvalue
      exact absurd hvalue (by decide)
    rw [hki, hi, Option.some.injEq] at hk
    rw [← hidx, hk]

theorem SameNumbering.feature (h : SameNumbering spec numFields) {f : TrainingField W}
    (hf : f ∈ spec.fields) : 0 ≤ f.dicIdx ∧ f.dicIdx < numFields := by
  obtain ⟨i, hi⟩ := List.mem_iff_getElem?.mp hf
  obtain ⟨content, hmake, -⟩ := h.compared i
  have hlt : i < spec.fields.length := (List.getElem?_eq_some_iff.mp hi).1
  have hinside := (writes_inside hmake).1 (f, if i = i then 1 else 2)
    (mem_zip_iff.mpr ⟨i, hi, data_nodeWith hlt i⟩)
  rw [List.length_replicate] at hinside
  exact hinside

theorem SameNumbering.once (h : SameNumbering spec numFields) :
    (spec.fields.map TrainingField.dicIdx).Nodup := by
  rw [List.nodup_iff_getElem?_ne_getElem?]
  intro i j hij hj heq
  rw [List.length_map] at hj
  have hi : i < spec.fields.length := hij.trans hj
  have hfi : spec.fields[i]? = some spec.fields[i] := List.getElem?_eq_getElem hi
  have hfj : spec.fields[j]? = some spec.fields[j] := List.getElem?_eq_getElem hj
  rw [List.getElem?_map, List.getElem?_map, hfi, hfj] at heq
  have hidx : spec.fields[i].fieldIdx = spec.fields[j].fieldIdx := by
    rw [h.same (List.getElem_mem hi), h.same (List.getElem_mem hj)]
    exact Option.some.inj heq
  obtain ⟨content, -, hcompared⟩ := h.compared i
  have hone := hcompared i _ hfi
  have htwo := hcompared j _ hfj
  rw [hidx, htwo, if_pos rfl, if_neg hij.ne'] at hone
  exact absurd hone (by decide)

/-- The three numberings are one just when the training fields have the same numbers in the definition
and in the dictionary. -/
theorem sameNumbering_iff (spec : TrainingSpec W) (numFields : Nat) :
    SameNumbering spec numFields ↔ NumbersCoincide spec numFields :=
  ⟨fun h => ⟨fun _ hf => h.same hf, fun _ hf => h.feature hf, h.once⟩, sameNumbering_of_coincide⟩

end Numbering

/-! ## A definition whose first field is not a feature -/

section DataFirst

open Jumanpp.Core.Spec

def dataFirst : ModelSpecBuilder where
  fields := [⟨[108], .String, false⟩, ⟨[115], .String, true⟩]
  features := []
  ngrams := [.unigram [[115]]]
  unks := []

theorem nodup_surface_name : ([[115]] : List SpecName).Nodup := List.nodup_singleton _

def dataFirstFields : List Field :=
  [⟨0, invalidInt, [108], false, .String⟩, ⟨1, invalidInt, [115], true, .String⟩]

def dataFirstGathered : Gathered :=
  ⟨⟨[([115], { number := 0 })], nodup_surface_name⟩, ⟨[([0], ⟨0, 1⟩)], List.nodup_singleton _⟩⟩

def dataFirstImports : List DicImport :=
  [⟨0, 0, invalidInt, [108], .ImportAsData, [0]⟩, ⟨1, 1, invalidInt, [115], .ImportAsFeature, [1]⟩]

def dataFirstCompiled : CompiledSpec where
  dic := {
    dictionary := [⟨0, 0, invalidInt, [115], .ImportAsFeature, [1]⟩,
      ⟨1, 0, invalidInt, [108], .ImportAsData, [0]⟩]
    fields := [⟨0, -1, [108], false, .String⟩, ⟨1, 0, [115], true, .String⟩]
    computeByName := ⟨[([115], { number := 0, dicFinalNumber := 0 })], nodup_surface_name⟩
    numDicData := 1
    numDicFeatures := 1 }
  filled := {
    primitive := [⟨0, [115], .Copy, [0]⟩]
    computation := [⟨[115], 0, 0, [], []⟩]
    numPlaceholders := 0 }
  patterns := ⟨[⟨0, 1, [0]⟩], [⟨0, [0]⟩], 1⟩

theorem dataFirst_dic :
    makeDicFeatures dataFirst.features dataFirstGathered dataFirstFields =
      some dataFirstCompiled.dic := by
  have hsorted : sortByKey (fun d : DicImport => kindValue d.kind) dataFirstImports =
      [⟨1, 1, invalidInt, [115], .ImportAsFeature, [1]⟩,
        ⟨0, 0, invalidInt, [108], .ImportAsData, [0]⟩] := by
    have hle : ¬ kindValue .ImportAsData ≤ kindValue .ImportAsFeature := by decide
    simp [sortByKey, dataFirstImports, List.mergeSort, List.MergeSort.Internal.splitInTwo, hle]
  unfold makeDicFeatures
  show Option.bind (List.foldlM numberData _
    (sortByKey (fun d : DicImport => kindValue d.kind) dataFirstImports)) _ = _
  rw [hsorted]
  rfl

theorem build_dataFirst :
    dataFirst.build 16 (MapOrder.inserted _ _) (MapOrder.inserted _ _) = some dataFirstCompiled := by
  have hsort : dataFirst.sortNgrams = dataFirst := by
    unfold ModelSpecBuilder.sortNgrams dataFirst
    rw [sortByKey_singleton]
  rw [ModelSpecBuilder.build, if_pos (by decide), hsort]
  unfold SpecCompiler.build
  refine Option.bind_eq_some_iff.mpr ⟨dataFirstFields, rfl, ?_⟩
  refine Option.bind_eq_some_iff.mpr ⟨dataFirstGathered, rfl, ?_⟩
  refine Option.bind_eq_some_iff.mpr ⟨dataFirstCompiled.patterns, ?_, ?_⟩
  · have hgroup : groupPatternFeatures ⟨[([0], ⟨0, 1⟩)], List.nodup_singleton _⟩ [([0], ⟨0, 1⟩)] =
        ⟨[([0], ⟨0, 1⟩)], List.nodup_singleton _⟩ := by
      rw [groupPatternFeatures, sortByKey_singleton]
      rfl
    rw [compilePatterns, if_pos (by decide)]
    dsimp only [MapOrder.inserted, dataFirstGathered]
    rw [hgroup]
    rfl
  · exact Option.bind_eq_some_iff.mpr ⟨dataFirstCompiled.dic, dataFirst_dic, rfl⟩

/-- The surface is the second field and the first feature, so its value is looked for where no feature
is. -/
theorem dataFirst_numbers_differ :
    ∃ spec : TrainingSpec Int,
      ((dataFirst.build 16 (MapOrder.inserted _ _) (MapOrder.inserted _ _)).bind fun r =>
        createTrainSpec [([115], (1 : Int))] r.dic) = some spec ∧
      ¬ SameNumbering spec dataFirstCompiled.dic.numDicFeatures := by
  rw [build_dataFirst]
  refine ⟨⟨0, [⟨0, 1, 0, 1⟩], rfl, Nat.zero_lt_one⟩, rfl, ?_⟩
  intro h
  have hsame := h.same (List.mem_singleton_self _)
  exact absurd hsame (by decide)

end DataFirst

end Jumanpp.Core.Training
