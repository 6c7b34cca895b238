import Jumanpp.Core.Analysis.DictionaryWords
import Mathlib.Data.Set.Basic

/-!
# Unknown words and the keys of the dictionary

What a maker of unknown words adds is a list of words, each with its flag that no word of the
dictionary begins with it.
-/

namespace Jumanpp.Core.Dic

variable {dic : DictionaryEntries} {key : List UInt8}

/-- The trie has a leaf for a key. -/
def IsKey (dic : DictionaryEntries) (key : List UInt8) : Prop :=
  Viable dic key ∧ statusAt dic (dic.traverseKey key 0).1 = .Ok

/-- The double array is a correct trie of a set of keys: each of its leaves is a key, and each of
its nodes is a prefix of one. -/
structure HasKeys (dic : DictionaryEntries) (keys : Set (List UInt8)) : Prop where
  isKey_iff : ∀ key, IsKey dic key ↔ key ∈ keys
  viable_iff : ∀ key ≠ [], Viable dic key ↔ ∃ rest, key ++ rest ∈ keys

theorem statusAt_cases (dic : DictionaryEntries) (node_pos : UInt32) :
    statusAt dic node_pos = .Ok ∨ statusAt dic node_pos = .NoLeaf := by
  unfold statusAt
  cases dic.leafValue node_pos with
  | none => exact .inr rfl
  | some _ => exact .inl rfl

theorem Stands.isKey_iff {trav : DoubleArrayTraversal} (h : Stands dic key trav) :
    IsKey dic key ↔ statusAt dic trav.node_pos = .Ok := by
  unfold IsKey
  have hnode : (dic.traverseKey key 0).1 = trav.node_pos := congrArg Prod.fst h
  rw [hnode]
  exact and_iff_right h.viable

/-- One step along a key, by the status that it returns. -/
theorem Stands.step_cases {trav : DoubleArrayTraversal} (h : Stands dic key trav)
    (data : List UInt8) :
    (trav.step dic data).1 = .NoNode ∧ ¬Viable dic (key ++ data) ∨
    (trav.step dic data).1 = .NoLeaf ∧ Stands dic (key ++ data) (trav.step dic data).2 ∧
      ¬IsKey dic (key ++ data) ∨
    (trav.step dic data).1 = .Ok ∧ Stands dic (key ++ data) (trav.step dic data).2 ∧
      IsKey dic (key ++ data) := by
  by_cases hviable : Viable dic (key ++ data)
  · obtain ⟨hstands, hstatus, -⟩ := h.step hviable
    obtain hok | hleaf := statusAt_cases dic (trav.step dic data).2.node_pos
    · exact .inr (.inr ⟨hstatus.trans hok, hstands, hstands.isKey_iff.mpr hok⟩)
    · refine .inr (.inl ⟨hstatus.trans hleaf, hstands, fun hkey => ?_⟩)
      rw [hstands.isKey_iff, hleaf] at hkey
      cases hkey
  · exact .inl ⟨h.step_noNode hviable, hviable⟩

/-- A dictionary without words. -/
def noKeys : DictionaryEntries where
  array := #[1]
  entryPtrs := fun _ => []
  fillBuffer := fun _ => none

theorem noKeys_traverse (c : UInt8) (key : List UInt8) :
    noKeys.traverseKey (c :: key) 0 = (0, c :: key) := by
  have hall : ∀ i : Fin 256, (noKeys.unitAt (0 ^^^ (noKeys.unitAt 0).offset ^^^
      (UInt8.ofFin i).toUInt32)).label ≠ (UInt8.ofFin i).toUInt32 := by decide +kernel
  rw [DictionaryEntries.traverseKey]
  exact if_pos (hall c.toFin)

theorem hasKeys_noKeys : HasKeys noKeys ∅ := by
  have hnot : ∀ key ≠ [], ¬Viable noKeys key := by
    intro key hne hviable
    cases key with
    | nil => exact hne rfl
    | cons c key =>
        unfold Viable at hviable
        rw [noKeys_traverse] at hviable
        cases hviable
  constructor
  · intro key
    refine iff_of_false (fun h => ?_) (Set.notMem_empty _)
    cases key with
    | nil => exact absurd h.2 (by decide +kernel)
    | cons c key => exact hnot _ (List.cons_ne_nil _ _) h.1
  · intro key hne
    exact iff_of_false (hnot key hne) fun ⟨_, h⟩ => h

end Jumanpp.Core.Dic

namespace Jumanpp.Core.Analysis

open Jumanpp.Util Jumanpp.Core.Dic

structure UnkWord where
  start : Nat
  end_ : Nat
  notPrefix : Bool
deriving DecidableEq

def UnkWord.span (word : UnkWord) : Nat × Nat := (word.start, word.end_)

/-- The words become nodes and seeds one after another. -/
def Spawned.appendUnks (s : Spawned) (codepoints : List InputCodepoint) (conf : UnkNodeConfig)
    (words : List UnkWord) : Spawned :=
  words.foldl (fun s word => s.appendUnk codepoints conf word.notPrefix word.start word.end_) s

section

variable {codepoints : List InputCodepoint} {conf : UnkNodeConfig} {s : Spawned}

@[simp]
theorem Spawned.appendUnks_nil : s.appendUnks codepoints conf [] = s := rfl

theorem Spawned.appendUnks_append (words words' : List UnkWord) :
    s.appendUnks codepoints conf (words ++ words') =
      (s.appendUnks codepoints conf words).appendUnks codepoints conf words' :=
  List.foldl_append

theorem Spawned.appendUnks_concat (words : List UnkWord) (word : UnkWord) :
    s.appendUnks codepoints conf (words ++ [word]) =
      (s.appendUnks codepoints conf words).appendUnk codepoints conf word.notPrefix word.start
        word.end_ :=
  Spawned.appendUnks_append words [word]

/-- Each word has one seed. -/
theorem Spawned.spans_appendUnks (words : List UnkWord) :
    (s.appendUnks codepoints conf words).seeds.map (fun seed => (seed.codepointStart,
        seed.codepointEnd)) =
      s.seeds.map (fun seed => (seed.codepointStart, seed.codepointEnd)) ++
        words.map UnkWord.span := by
  induction words generalizing s with
  | nil => simp
  | cons word words ih =>
      show ((s.appendUnk codepoints conf word.notPrefix word.start word.end_).appendUnks codepoints
        conf words).seeds.map _ = _
      rw [ih]
      simp [Spawned.appendUnk, Spawned.appendSeed, Spawned.makePtr, UnkWord.span]

/-- Each word has one node, which holds its flag. -/
theorem Spawned.features_appendUnks (words : List UnkWord) :
    (s.appendUnks codepoints conf words).nodes.map ExtraNode.feature =
      s.nodes.map ExtraNode.feature ++ words.map (·.notPrefix.toInt) := by
  induction words generalizing s with
  | nil => simp
  | cons word words ih =>
      show ((s.appendUnk codepoints conf word.notPrefix word.start word.end_).appendUnks codepoints
        conf words).nodes.map _ = _
      rw [ih]
      simp [Spawned.appendUnk, Spawned.appendSeed, Spawned.makePtr]

end

end Jumanpp.Core.Analysis
