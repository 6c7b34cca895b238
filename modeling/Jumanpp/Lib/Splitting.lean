import Mathlib.Data.List.Basic
import Mathlib.Tactic.Common

/-!
# Splitting at a separator

A text is split at the occurrences of a separator from its front on.  Each separator ends a piece, and so
does the end of the text if something stands before it.
-/

namespace Jumanpp.Lib

variable {α : Type} [DecidableEq α]

/-- What stands before the first occurrence of `sep` and what stands behind it. -/
def splitFirst (sep : List α) : List α → Option (List α × List α)
  | [] => none
  | c :: text =>
      if sep <+: c :: text then some ([], (c :: text).drop sep.length)
      else (splitFirst sep text).map fun parts => (c :: parts.1, parts.2)

theorem append_of_splitFirst {sep text before after : List α}
    (h : splitFirst sep text = some (before, after)) : text = before ++ sep ++ after := by
  induction text generalizing before after with
  | nil => cases h
  | cons c text ih =>
      rw [splitFirst] at h
      split_ifs at h with hsep
      · cases h
        obtain ⟨after, hafter⟩ := hsep
        rw [← hafter, List.drop_left]
        rfl
      · obtain ⟨⟨before', after'⟩, hrest, heq⟩ := Option.map_eq_some_iff.mp h
        cases heq
        rw [ih hrest]
        rfl

/-- An empty separator splits nothing. -/
def pieces (sep : List α) (text : List α) : List (List α) :=
  match text with
  | [] => []
  | c :: text =>
      match _h : splitFirst sep (c :: text) with
      | none => [c :: text]
      | some (before, after) => if sep = [] then [c :: text] else before :: pieces sep after
termination_by text.length
decreasing_by
  have hlength := congrArg List.length (append_of_splitFirst _h)
  have hpos := List.length_pos_of_ne_nil ‹¬ sep = []›
  simp only [List.length_append, List.length_cons] at hlength ⊢
  omega

@[simp]
theorem pieces_nil (sep : List α) : pieces sep [] = [] := by
  rw [pieces]

theorem pieces_of_splitFirst {sep text before after : List α} (hsep : sep ≠ [])
    (h : splitFirst sep text = some (before, after)) :
    pieces sep text = before :: pieces sep after := by
  cases text with
  | nil => cases h
  | cons c text =>
      rw [pieces]
      split
      · next hnone =>
          rw [h] at hnone
          cases hnone
      · next hsome =>
          rw [h] at hsome
          cases hsome
          rw [if_neg hsep]

theorem pieces_of_splitFirst_none {sep text : List α} (htext : text ≠ [])
    (h : splitFirst sep text = none) : pieces sep text = [text] := by
  cases text with
  | nil => exact absurd rfl htext
  | cons c text =>
      rw [pieces]
      split
      · rfl
      · next hsome =>
          rw [h] at hsome
          cases hsome

/-- A separator of one element is searched like an element. -/
theorem splitFirst_singleton (s : α) (text : List α) :
    splitFirst [s] text =
      match text.dropWhile (· ≠ s) with
      | [] => none
      | _ :: rest => some (text.takeWhile (· ≠ s), rest) := by
  induction text with
  | nil => rfl
  | cons c text ih =>
      rw [splitFirst]
      by_cases hc : c = s
      · rw [if_pos (by simp [hc])]
        simp [hc]
      · have hnot : ¬ [s] <+: c :: text := by
          intro h
          exact hc (List.cons_prefix_cons.mp h).1.symm
        rw [if_neg hnot, ih]
        simp only [ne_eq, decide_not, List.dropWhile_cons, List.takeWhile_cons, hc, decide_false,
          Bool.not_false, if_true]
        cases text.dropWhile fun x => !decide (x = s) with
        | nil => rfl
        | cons d rest => rfl

theorem splitFirst_of_not_mem {s : α} {text : List α} (h : s ∉ text) :
    splitFirst [s] text = none := by
  cases hsplit : splitFirst [s] text with
  | none => rfl
  | some parts =>
      have htext := append_of_splitFirst hsplit
      refine absurd ?_ h
      rw [htext]
      simp

theorem splitFirst_append_cons {s : α} {before : List α} (h : s ∉ before) (after : List α) :
    splitFirst [s] (before ++ s :: after) = some (before, after) := by
  induction before with
  | nil =>
      rw [List.nil_append, splitFirst, if_pos (by simp)]
      rfl
  | cons c before ih =>
      have hnot : ¬[s] <+: c :: (before ++ s :: after) := by
        intro hprefix
        exact h ((List.cons_prefix_cons.mp hprefix).1 ▸ List.mem_cons_self)
      rw [List.cons_append, splitFirst, if_neg hnot, ih fun hmem => h (List.mem_cons_of_mem c hmem)]
      rfl

end Jumanpp.Lib
