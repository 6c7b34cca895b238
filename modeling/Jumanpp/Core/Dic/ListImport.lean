import Jumanpp.Core.Dic.EntryRoundTrip
import Jumanpp.Core.Dic.StringStorageReads
import Jumanpp.Lib.Splitting
import Jumanpp.Util.CharBuffer
import Mathlib.Data.List.Sort

/-!
# The importer of list fields

The keys of a list field are registered in a first pass over the dictionary.  When the strings have been
stored, a second pass writes each list as the number of its keys and the differences of their sorted
pointers.
-/

namespace Jumanpp.Core.Dic

open Jumanpp.Lib Jumanpp.Util

/-- `' '`. -/
def space : UInt8 := 32

/-! ## The importer -/

/-- The loop over the keys of a list, which both passes have; `body` is what is done with a key. -/
def forKeys {σ : Type} (body : σ → List UInt8 → σ) (s : σ) (sp : List UInt8) : σ :=
  match sp with
  | [] => s
  | c :: sp =>
      let key := (c :: sp).takeWhile (· ≠ space)
      match _h : (c :: sp).dropWhile (· ≠ space) with
      | [] => body s key
      | _ :: rest => forKeys body (body s key) rest
termination_by sp.length
decreasing_by
  have hlength := (List.dropWhile_sublist (l := c :: sp) (· ≠ space)).length_le
  simp only [_h, List.length_cons] at hlength ⊢
  omega

namespace StringStorage

/-- `mapping_[sp] += 1`. -/
def countOne (sp : List UInt8) (entry : StdString × Int32) : StdString × Int32 :=
  if entry.1.elems = sp then (entry.1, entry.2 + 1) else entry

theorem keys_countOne (mapping : List (StdString × Int32)) (sp : List UInt8) :
    (mapping.map (countOne sp)).map (·.1.elems) = mapping.map (·.1.elems) := by
  rw [List.map_map]
  apply List.map_congr_left
  intro entry _
  show (countOne sp entry).1.elems = entry.1.elems
  unfold countOne
  split_ifs
  · rfl
  · rfl

theorem nodup_countOne {mapping : List (StdString × Int32)}
    (h : (mapping.map (·.1.elems)).Nodup) (sp : List UInt8) :
    ((mapping.map (countOne sp)).map (·.1.elems)).Nodup := by
  rw [keys_countOne]
  exact h

theorem length_of_import {sp : List UInt8} (h : sp.length ≤ charBufferPage) :
    sp.length < 2 ^ 64 := by
  have hpage : charBufferPage < 2 ^ 64 := by decide
  omega

theorem nodup_append_key {mapping : List (StdString × Int32)} (h : (mapping.map (·.1.elems)).Nodup)
    (key : StdString) (hkey : key.elems ∉ mapping.map fun entry => entry.1.elems) :
    ((mapping ++ [(key, (1 : Int32))]).map fun entry => entry.1.elems).Nodup := by
  rw [List.map_append, List.nodup_append]
  refine ⟨h, by simp, ?_⟩
  intro a ha b hb heq
  rw [List.map_singleton, List.mem_singleton] at hb
  exact hkey (hb ▸ heq ▸ ha)

/-- A new string has to fit on a page of `contents_`. -/
def increaseFieldValueCount (storage : StringStorage) (sp : List UInt8) : Bool × StringStorage :=
  if hknown : sp ∈ storage.mapping.map (·.1.elems) then
    (true, { storage with
      mapping := storage.mapping.map (countOne sp)
      mapping_nodup := nodup_countOne storage.mapping_nodup sp })
  else if hpage : sp.length ≤ charBufferPage then
    (true, { storage with
      mapping := storage.mapping ++ [(⟨sp, length_of_import hpage⟩, 1)]
      mapping_nodup := nodup_append_key storage.mapping_nodup ⟨sp, length_of_import hpage⟩ hknown })
  else (false, storage)

/-- `StringListFieldImporter::importFieldValue`.  Whether a key could be counted is not looked at. -/
def importFieldValue (ignore : List UInt8) (storage : StringStorage) (sp : List UInt8) :
    Bool × StringStorage :=
  if ignore = sp then (true, storage)
  else (true, forKeys (fun storage key => (storage.increaseFieldValueCount key).2) storage sp)

/-- The strings that have been counted. -/
def keys (storage : StringStorage) : List (List UInt8) :=
  storage.mapping.map (·.1.elems)

end StringStorage

/-- `mapping_.find(sp)`. -/
def find (mapping : List (StdString × Int32)) (sp : List UInt8) : Option Int32 :=
  (mapping.find? (·.1.elems = sp)).map (·.2)

/-- `StringStorage::valueOf`. -/
def valueAt (mapping : List (StdString × Int32)) (sp : List UInt8) : Int32 :=
  (find mapping sp).getD (-1)

/-- The loop that leaves differences: `values[i]` for the last `i` first. -/
def deltaLoop : Nat → List Int32 → List Int32
  | 0, values => values
  | i + 1, values => deltaLoop i (values.set (i + 1) (values.getD (i + 1) 0 - values.getD i 0))

/-- The sorted values, as `std::sort` leaves them. -/
def sorted (values : List Int32) : List Int32 :=
  values.mergeSort fun a b => decide (a ≤ b)

/-- A difference that is negative is extended with its sign. -/
def writePtrsAsDeltas (values : List Int32) (buffer : List UInt8) : List UInt8 :=
  let values := sorted values
  let values := deltaLoop (Int32.ofNat values.length - 1).toInt.toNat values
  buffer ++ (writeVarint (UInt64.ofNat values.length) ++
    values.flatMap fun v => writeVarint v.toInt64.toUInt64)

/-- `StringListFieldImporter` after the first pass.  The zero is put at the begin of the buffer by
`injectFieldBuffer`. -/
structure StringListFieldImporter where
  mapping : List (StdString × Int32)
  ignore : List UInt8
  buffer : List UInt8
  injected : writeVarint 0 <+: buffer

namespace StringListFieldImporter

theorem injected_writePtrsAsDeltas (values : List Int32) {buffer : List UInt8}
    (h : writeVarint 0 <+: buffer) : writeVarint 0 <+: writePtrsAsDeltas values buffer :=
  h.trans (List.prefix_append _ _)

/-- The values that are written for a text. -/
def values (imp : StringListFieldImporter) (sp : List UInt8) : List Int32 :=
  forKeys (fun values key => values ++ [valueAt imp.mapping key]) [] sp

def fieldPointer (imp : StringListFieldImporter) (sp : List UInt8) :
    Int32 × StringListFieldImporter :=
  if imp.ignore = sp ∨ sp = [] then (0, imp)
  else
    (Int32.ofNat imp.buffer.length,
      { imp with
        buffer := writePtrsAsDeltas (imp.values sp) imp.buffer
        injected := injected_writePtrsAsDeltas (imp.values sp) imp.injected })

end StringListFieldImporter

/-! ## Reading a list -/

/-- `IntStorageReader::listAt`.  There is nothing before the data. -/
def listAt (data : List UInt8) (ptr : Int32) : Option IntListTraversal :=
  if ptr.toInt < 0 then none
  else
    match readVarint64 (data.drop ptr.toInt.toNat) with
    | (none, _) => some ⟨-1, 0, [], 0⟩
    | (some size, rest) =>
        some ⟨size.toUInt32.toInt32.toInt, 0, rest, (data.drop ptr.toInt.toNat).length⟩

namespace IntListTraversal

/-- The sum wraps around. -/
def readOneCumulative (t : IntListTraversal) (result : Int32) : Option Int32 × IntListTraversal :=
  let (diff, t) := t.readOne
  (diff.map (result + ·), t)

/-- Calling `readOneCumulative` as long as it succeeds yields exactly these values. -/
def Decodes : IntListTraversal → Int32 → List Int32 → Prop
  | t, result, [] => (t.readOneCumulative result).1 = none
  | t, result, v :: values =>
      (t.readOneCumulative result).1 = some v ∧ (t.readOneCumulative result).2.Decodes v values

end IntListTraversal

/-- The list at a pointer. -/
def DecodesTo (data : List UInt8) (ptr : Int32) (values : List Int32) : Prop :=
  ∃ t, listAt data ptr = some t ∧ t.Decodes 0 values

/-! ## The items of a field

The declared separator ends each item, as in the importer of key-value lists. -/

/-- None for the value that is declared as the empty one. -/
def itemsOf (separator ignore text : List UInt8) : List (List UInt8) :=
  if ignore = text then [] else pieces separator text

/-- The pointer decodes to the sorted pointers of exactly the items, whatever is written behind. -/
def StringListFieldImporter.WritesItems (imp : StringListFieldImporter)
    (separator text later : List UInt8) : Prop :=
  ∃ ptrs, (itemsOf separator imp.ignore text).mapM (find imp.mapping) = some ptrs ∧
    DecodesTo ((imp.fieldPointer text).2.buffer ++ later) (imp.fieldPointer text).1 (sorted ptrs)

/-! ## Sorting -/

theorem perm_sorted (values : List Int32) : (sorted values).Perm values :=
  List.mergeSort_perm values _

theorem pairwise_sorted (values : List Int32) : (sorted values).Pairwise (· ≤ ·) := by
  have htrans : ∀ a b c : Int32, decide (a ≤ b) = true → decide (b ≤ c) = true →
      decide (a ≤ c) = true := by
    intro a b c hab hbc
    exact decide_eq_true (Int32.le_trans (of_decide_eq_true hab) (of_decide_eq_true hbc))
  have htotal : ∀ a b : Int32, (decide (a ≤ b) || decide (b ≤ a)) = true := by
    intro a b
    have h := Int32.le_total a b
    simpa using h
  have hpairwise := List.pairwise_mergeSort htrans htotal values
  exact hpairwise.imp fun h => of_decide_eq_true h

/-- The sorted list says which values there are and how often. -/
theorem sorted_eq_iff {a b : List Int32} : sorted a = sorted b ↔ a.Perm b := by
  constructor
  · intro h
    exact (perm_sorted a).symm.trans (h ▸ perm_sorted b)
  · intro h
    have hperm : (sorted a).Perm (sorted b) := (perm_sorted a).trans (h.trans (perm_sorted b).symm)
    apply hperm.eq_of_pairwise _ (pairwise_sorted a) (pairwise_sorted b)
    intro x y _ _ hxy hyx
    exact Int32.le_antisymm hxy hyx

theorem length_sorted (values : List Int32) : (sorted values).length = values.length :=
  (perm_sorted values).length_eq

/-! ## Differences -/

/-- The differences to the value before. -/
def deltas (last : Int32) : List Int32 → List Int32
  | [] => []
  | v :: values => (v - last) :: deltas v values

theorem length_deltas (last : Int32) (values : List Int32) :
    (deltas last values).length = values.length := by
  induction values generalizing last with
  | nil => rfl
  | cons v values ih => rw [deltas, List.length_cons, List.length_cons, ih]

theorem length_deltaLoop (i : Nat) (values : List Int32) :
    (deltaLoop i values).length = values.length := by
  induction i generalizing values with
  | zero => rfl
  | succ i ih => rw [deltaLoop, ih, List.length_set]

/-- The loop goes down, so that it never reads a difference. -/
theorem getElem?_deltaLoop (i : Nat) (values : List Int32) (hi : i < values.length) (j : Nat) :
    (deltaLoop i values)[j]? =
      if 1 ≤ j ∧ j ≤ i then some (values.getD j 0 - values.getD (j - 1) 0) else values[j]? := by
  induction i generalizing values with
  | zero =>
      rw [if_neg (by omega)]
      rfl
  | succ i ih =>
      rw [deltaLoop, ih _ (by rw [List.length_set]; omega)]
      by_cases hj : 1 ≤ j ∧ j ≤ i
      · rw [if_pos hj, if_pos (by omega)]
        simp only [List.getD_eq_getElem?_getD]
        rw [List.getElem?_set_ne (by omega), List.getElem?_set_ne (by omega)]
      · rw [if_neg hj]
        by_cases hlast : j = i + 1
        · subst hlast
          rw [if_pos (by omega), List.getElem?_set_self hi]
          rfl
        · rw [if_neg (by omega), List.getElem?_set_ne (by omega)]

theorem getElem?_deltas (values : List Int32) (last : Int32) (j : Nat) (hj : 1 ≤ j)
    (hlt : j < values.length) :
    (deltas last values)[j]? = some (values.getD j 0 - values.getD (j - 1) 0) := by
  induction values generalizing last j with
  | nil => cases hlt
  | cons v values ih =>
      cases j with
      | zero => omega
      | succ j =>
          rw [deltas, List.getElem?_cons_succ]
          cases j with
          | zero =>
              cases values with
              | nil => simp at hlt
              | cons w values => rfl
          | succ j =>
              rw [ih v (j + 1) (by omega) (by simpa using hlt)]
              rfl

theorem deltaLoop_eq_deltas (values : List Int32) :
    deltaLoop (values.length - 1) values = deltas 0 values := by
  cases values with
  | nil => rfl
  | cons v values =>
      apply List.ext_getElem?
      intro j
      have hlength : (deltas 0 (v :: values)).length = (v :: values).length := length_deltas _ _
      rw [getElem?_deltaLoop _ _ (by simp)]
      by_cases hj : 1 ≤ j ∧ j ≤ (v :: values).length - 1
      · have hlt : j < (v :: values).length := by
          rw [List.length_cons] at hj ⊢
          omega
        rw [if_pos hj, getElem?_deltas _ _ _ hj.1 hlt]
      · rw [if_neg hj]
        cases j with
        | zero => simp [deltas]
        | succ j =>
            rw [List.getElem?_eq_none (by rw [List.length_cons] at hj ⊢; omega),
              List.getElem?_eq_none (by rw [hlength, List.length_cons]; rw [List.length_cons] at hj; omega)]

end Jumanpp.Core.Dic
