import Jumanpp.Core.Spec.DicFeatures

/-!
# The training setup of a definition

The fields of the training table, each with its numbers in the definition and in the dictionary.  A field
that has a weight must be one that some feature refers to; one without a weight need not.
-/

namespace Jumanpp.Core.Spec.SpecCompiler

variable {W : Type}

structure TrainingField (W : Type) where
  number : Nat
  fieldIdx : Int
  dicIdx : Int
  weight : W

/-- The fields stand in the order of their numbers. -/
structure TrainingSpec (W : Type) where
  surfaceIdx : Nat
  fields : List (TrainingField W)
  numbered : fields.map TrainingField.number = List.range fields.length
  surface_lt : surfaceIdx < fields.length

theorem TrainingSpec.number_eq (spec : TrainingSpec W) {i : Nat} {f : TrainingField W}
    (h : spec.fields[i]? = some f) : f.number = i := by
  have hnumber : (spec.fields.map TrainingField.number)[i]? = some f.number := by
    rw [List.getElem?_map, h]
    rfl
  rw [spec.numbered] at hnumber
  obtain ⟨hi, hget⟩ := List.getElem?_eq_some_iff.mp hnumber
  rw [List.getElem_range] at hget
  exact hget.symm

/-- What the loop over the fields to train has made so far; the last trie field is the surface. -/
structure TrainState (W : Type) where
  fields : List (TrainingField W)
  surfaceIdx : Option Nat
  numbered : fields.map TrainingField.number = List.range fields.length
  surface_lt : ∀ i, surfaceIdx = some i → i < fields.length

theorem not_surface_empty (i : Nat) (h : (none : Option Nat) = some i) :
    i < ([] : List (TrainingField W)).length := by
  cases h

def TrainState.empty : TrainState W := ⟨[], none, List.map_nil, not_surface_empty⟩

theorem numbered_concat {fields : List (TrainingField W)}
    (h : fields.map TrainingField.number = List.range fields.length) (fieldIdx dicIdx : Int) (weight : W) :
    (fields ++ [(⟨fields.length, fieldIdx, dicIdx, weight⟩ : TrainingField W)]).map
        TrainingField.number =
      List.range (fields ++ [(⟨fields.length, fieldIdx, dicIdx, weight⟩ : TrainingField W)]).length := by
  rw [List.map_append, h, List.length_append, List.length_singleton, List.range_succ]
  rfl

theorem surface_lt_concat {fields : List (TrainingField W)} {surfaceIdx : Option Nat}
    (h : ∀ i, surfaceIdx = some i → i < fields.length) (f : TrainingField W) (isTrieKey : Bool) (i : Nat)
    (hi : (if isTrieKey then some fields.length else surfaceIdx) = some i) :
    i < (fields ++ [f]).length := by
  rw [List.length_append, List.length_singleton]
  split_ifs at hi with htrie
  · cases hi
    exact Nat.lt_succ_self _
  · exact (h i hi).trans (Nat.lt_succ_self _)

variable [Zero W] [DecidableEq W]

def trainField (computeByName : ComputeMap) (fields : List Field) (s : TrainState W)
    (f : SpecName × W) : Option (TrainState W) := do
  if f.2 ≠ 0 ∧ f.1 ∉ computeByName.keys then none
  else
    let fld ← fieldByName fields f.1
    some {
      fields := s.fields ++ [⟨s.fields.length, fld.specIndex, fld.dicIndex, f.2⟩]
      surfaceIdx := if fld.isTrieKey then some s.fields.length else s.surfaceIdx
      numbered := numbered_concat s.numbered _ _ _
      surface_lt := surface_lt_concat s.surface_lt _ _ }

/-- `createTrainSpec` of a definition with a training setup, without its aliases. -/
def createTrainSpec (tr : List (SpecName × W)) (dic : DicNumbers) : Option (TrainingSpec W) := do
  let s ← tr.foldlM (trainField dic.computeByName dic.fields) TrainState.empty
  match h : s.surfaceIdx with
  | none => none
  | some surfaceIdx => some ⟨surfaceIdx, s.fields, s.numbered, s.surface_lt surfaceIdx h⟩

end Jumanpp.Core.Spec.SpecCompiler
