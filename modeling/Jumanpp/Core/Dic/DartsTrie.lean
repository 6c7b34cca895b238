import Jumanpp.Core.Analysis.LatticeTypes

/-!
# The double-array trie and the entries behind it

A node of the trie is an index into the array of units.  One traversal steps from node to node by the
bytes of a code point.
-/

namespace Jumanpp.Core.Dic

open Jumanpp.Core.Analysis

abbrev DoubleArrayUnit := UInt32

namespace DoubleArrayUnit

variable (unit : DoubleArrayUnit)

def has_leaf : Bool := (unit >>> 8) &&& 1 == 1

def value : Nat := (unit &&& 0x7fffffff).toNat

def label : UInt32 := unit &&& 0x800000ff

def offset : UInt32 := (unit >>> 10) <<< ((unit &&& 0x200) >>> 6)

end DoubleArrayUnit

inductive TraverseStatus
  | Ok
  | NoLeaf
  | NoNode
deriving DecidableEq

/-- The index of a dictionary: the units of its trie, the lists of entry pointers by the values of
the trie, and the feature values of an entry (nothing when they can not be read). -/
structure DictionaryEntries where
  array : Array UInt32
  entryPtrs : Nat → List EntryPtr
  fillBuffer : EntryPtr → Option (List Int)

namespace DictionaryEntries

variable (dic : DictionaryEntries)

def unitAt (id : UInt32) : DoubleArrayUnit :=
  dic.array.getD id.toNat 0

/-- The loop of `traverse`: the last node reached, and the bytes that have not been read. -/
def traverseKey : List UInt8 → UInt32 → UInt32 × List UInt8
  | [], node_pos => (node_pos, [])
  | c :: key, node_pos =>
      let id := node_pos ^^^ (dic.unitAt node_pos).offset ^^^ c.toUInt32
      if (dic.unitAt id).label ≠ c.toUInt32 then (node_pos, c :: key)
      else traverseKey key id

/-- What `traverse` returns at a node: the value of its leaf. -/
def leafValue (node_pos : UInt32) : Option Nat :=
  let unit := dic.unitAt node_pos
  if unit.has_leaf then some (dic.unitAt (node_pos ^^^ unit.offset)).value else none

end DictionaryEntries

/-- `value_` is not initialized by the source, and not read before the first leaf. -/
structure DoubleArrayTraversal where
  node_pos : UInt32
  key_pos : Nat
  value : Nat
deriving DecidableEq

namespace DoubleArrayTraversal

variable (dic : DictionaryEntries) (trav : DoubleArrayTraversal)

def step (data : List UInt8) : TraverseStatus × DoubleArrayTraversal :=
  let (node_pos, unread) := dic.traverseKey data trav.node_pos
  let trav := { trav with node_pos := node_pos, key_pos := data.length - unread.length }
  if unread ≠ [] then (.NoNode, trav)
  else
    match dic.leafValue node_pos with
    | none => (.NoLeaf, trav)
    | some value => (.Ok, { trav with value := value })

end DoubleArrayTraversal

def doubleArrayTraversal : DoubleArrayTraversal := ⟨0, 0, 0⟩

namespace DictionaryEntries

variable (dic : DictionaryEntries)

/-- The entries of the leaf that a traversal has come to. -/
def entryTraversal (trav : DoubleArrayTraversal) : List EntryPtr :=
  dic.entryPtrs trav.value

/-- The entries that the index has for a key. -/
def entriesOf (key : List UInt8) : List EntryPtr :=
  let (node_pos, unread) := dic.traverseKey key 0
  if unread ≠ [] then []
  else
    match dic.leafValue node_pos with
    | none => []
    | some value => dic.entryPtrs value

variable {dic}

/-- The bytes of a key can be read in pieces. -/
theorem traverseKey_append (key rest : List UInt8) (node_pos : UInt32) :
    dic.traverseKey (key ++ rest) node_pos =
      if (dic.traverseKey key node_pos).2 = [] then
        dic.traverseKey rest (dic.traverseKey key node_pos).1
      else ((dic.traverseKey key node_pos).1, (dic.traverseKey key node_pos).2 ++ rest) := by
  induction key generalizing node_pos with
  | nil => rfl
  | cons c key ih =>
      rw [List.cons_append]
      simp only [traverseKey]
      split
      · rw [if_neg (List.cons_ne_nil c key)]
        rfl
      · exact ih _

end DictionaryEntries

/-! ## Where a traversal stands -/

variable {dic : DictionaryEntries} {key data : List UInt8} {trav : DoubleArrayTraversal}

/-- The status of a traversal that has come to a node. -/
def statusAt (dic : DictionaryEntries) (node_pos : UInt32) : TraverseStatus :=
  match dic.leafValue node_pos with
  | none => .NoLeaf
  | some _ => .Ok

/-- Some bytes lead to a node of the trie. -/
def Viable (dic : DictionaryEntries) (key : List UInt8) : Prop :=
  (dic.traverseKey key 0).2 = []

theorem Viable.of_append (h : Viable dic (key ++ data)) : Viable dic key := by
  unfold Viable at h ⊢
  by_contra hne
  rw [DictionaryEntries.traverseKey_append, if_neg hne] at h
  exact hne (List.append_eq_nil_iff.mp h).1

theorem viable_of_mem_entriesOf {entry : EntryPtr} (h : entry ∈ dic.entriesOf key) :
    Viable dic key := by
  by_contra hne
  unfold Viable at hne
  simp only [DictionaryEntries.entriesOf, ne_eq, hne, not_false_eq_true, ↓reduceIte,
    List.not_mem_nil] at h

/-- The traversal has come to the node of a key. -/
def Stands (dic : DictionaryEntries) (key : List UInt8) (trav : DoubleArrayTraversal) : Prop :=
  dic.traverseKey key 0 = (trav.node_pos, [])

theorem Stands.viable (h : Stands dic key trav) : Viable dic key :=
  congrArg Prod.snd h

theorem stands_root : Stands dic [] doubleArrayTraversal := rfl

theorem Stands.traverse (h : Stands dic key trav) :
    dic.traverseKey (key ++ data) 0 = dic.traverseKey data trav.node_pos := by
  have hviable : (dic.traverseKey key 0).2 = [] := h.viable
  rw [DictionaryEntries.traverseKey_append, if_pos hviable, h]

/-- After a step along a key the value is that of the leaf, if there is one. -/
theorem Stands.step (h : Stands dic key trav) (hviable : Viable dic (key ++ data)) :
    Stands dic (key ++ data) (trav.step dic data).2 ∧
      (trav.step dic data).1 = statusAt dic (trav.step dic data).2.node_pos ∧
      ∀ v, dic.leafValue (trav.step dic data).2.node_pos = some v →
        (trav.step dic data).2.value = v := by
  have hread : (dic.traverseKey data trav.node_pos).2 = [] := by
    rw [← h.traverse]
    exact hviable
  have hpair : dic.traverseKey data trav.node_pos =
      ((dic.traverseKey data trav.node_pos).1, []) := Prod.ext rfl hread
  unfold DoubleArrayTraversal.step statusAt Stands
  simp only [hread, ne_eq, not_true_eq_false, ↓reduceIte]
  cases hleaf : dic.leafValue (dic.traverseKey data trav.node_pos).1 with
  | none =>
      refine ⟨h.traverse.trans hpair, by simp only [hleaf], fun v hv => ?_⟩
      simp only [hleaf] at hv
      cases hv
  | some value =>
      refine ⟨h.traverse.trans hpair, by simp only [hleaf], fun v hv => ?_⟩
      simp only [hleaf] at hv
      exact Option.some.inj hv

theorem Stands.step_noNode (h : Stands dic key trav) (hviable : ¬Viable dic (key ++ data)) :
    (trav.step dic data).1 = .NoNode := by
  unfold Viable at hviable
  rw [h.traverse] at hviable
  unfold DoubleArrayTraversal.step
  simp only
  rw [if_pos hviable]

theorem Stands.entriesOf (h : Stands dic key trav)
    (hvalue : ∀ v, dic.leafValue trav.node_pos = some v → trav.value = v) :
    dic.entriesOf key =
      if statusAt dic trav.node_pos = .Ok then dic.entryTraversal trav else [] := by
  unfold DictionaryEntries.entriesOf statusAt DictionaryEntries.entryTraversal
  rw [h]
  simp only [ne_eq, not_true_eq_false, ↓reduceIte]
  cases hleaf : dic.leafValue trav.node_pos with
  | none => simp
  | some value => simp [hvalue value hleaf]

end Jumanpp.Core.Dic
