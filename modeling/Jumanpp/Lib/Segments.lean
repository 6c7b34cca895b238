import Mathlib.Data.List.Basic
import Mathlib.Data.List.Count
import Mathlib.Tactic.Common

/-!
# Segments of a list sorted by a key

In a list that is sorted by a numeric key the elements with one key stand in a row.  The row starts
behind all elements with smaller keys.
-/

namespace Jumanpp.Lib

variable {α : Type} (key : α → Nat)

/-- The number of elements with a smaller key. -/
def segmentStart (p : Nat) (l : List α) : Nat :=
  l.countP fun x => decide (key x < p)

def segmentSize (p : Nat) (l : List α) : Nat :=
  l.countP fun x => decide (key x = p)

variable {key} {l : List α} {x : α} {p : Nat}

theorem segmentSize_eq_length_filter :
    segmentSize key p l = (l.filter fun x => decide (key x = p)).length :=
  List.countP_eq_length_filter

theorem segmentStart_zero : segmentStart key 0 l = 0 := by
  unfold segmentStart
  rw [List.countP_eq_zero]
  simp

theorem segmentStart_cons :
    segmentStart key p (x :: l) = segmentStart key p l + if key x < p then 1 else 0 := by
  unfold segmentStart
  rw [List.countP_cons]
  simp only [decide_eq_true_eq]

theorem segmentSize_cons :
    segmentSize key p (x :: l) = segmentSize key p l + if key x = p then 1 else 0 := by
  unfold segmentSize
  rw [List.countP_cons]
  simp only [decide_eq_true_eq]

/-- The segments follow each other. -/
theorem segmentStart_succ :
    segmentStart key (p + 1) l = segmentStart key p l + segmentSize key p l := by
  induction l with
  | nil => rfl
  | cons x l ih =>
      rw [segmentStart_cons, segmentStart_cons, segmentSize_cons, ih]
      split_ifs <;> omega

/-- Behind an element of a sorted list there are no smaller ones. -/
theorem segmentStart_eq_zero (h : ∀ y ∈ l, p ≤ key y) : segmentStart key p l = 0 := by
  unfold segmentStart
  rw [List.countP_eq_zero]
  intro y hy
  simpa using h y hy

theorem segmentSize_eq_zero (h : ∀ y ∈ l, key y ≠ p) : segmentSize key p l = 0 := by
  unfold segmentSize
  rw [List.countP_eq_zero]
  intro y hy
  simpa using h y hy

theorem segment_eq_filter (hsorted : l.Pairwise fun x y => key x ≤ key y) (p : Nat) :
    (l.drop (segmentStart key p l)).take (segmentSize key p l) =
      l.filter fun x => decide (key x = p) := by
  induction l with
  | nil => rfl
  | cons x l ih =>
      obtain ⟨hx, hl⟩ := List.pairwise_cons.mp hsorted
      rw [segmentStart_cons, segmentSize_cons]
      rcases Nat.lt_trichotomy (key x) p with hlt | heq | hgt
      · rw [if_pos hlt, if_neg (Nat.ne_of_lt hlt), List.drop_succ_cons, Nat.add_zero, ih hl,
          List.filter_cons_of_neg (by simpa using Nat.ne_of_lt hlt)]
      · have hzero : segmentStart key p l = 0 :=
          segmentStart_eq_zero fun y hy => heq ▸ hx y hy
        have hrest := ih hl
        rw [hzero, List.drop_zero] at hrest
        rw [if_neg (Nat.not_lt.mpr (Nat.le_of_eq heq.symm)), if_pos heq, hzero,
          List.drop_zero, List.take_succ_cons, hrest, List.filter_cons_of_pos (by simpa using heq)]
      · have hsize : segmentSize key p l = 0 :=
          segmentSize_eq_zero fun y hy => by have := hx y hy; omega
        have hnil : l.filter (fun x => decide (key x = p)) = [] := by
          rw [← List.length_eq_zero_iff, ← segmentSize_eq_length_filter, hsize]
        rw [if_neg (Nat.not_lt.mpr (Nat.le_of_lt hgt)), if_neg (Nat.ne_of_gt hgt), hsize,
          List.take_zero, List.filter_cons_of_neg (by simpa using (Nat.ne_of_gt hgt)), hnil]

/-- An element stands in the segment of its key. -/
theorem segment_index (hsorted : l.Pairwise fun x y => key x ≤ key y) {i : Nat}
    (hi : l[i]? = some x) : segmentStart key (key x) l ≤ i ∧
      i < segmentStart key (key x) l + segmentSize key (key x) l := by
  induction l generalizing i with
  | nil => cases hi
  | cons y l ih =>
      obtain ⟨hy, hl⟩ := List.pairwise_cons.mp hsorted
      rw [segmentStart_cons, segmentSize_cons]
      cases i with
      | zero =>
          obtain rfl : y = x := Option.some.inj hi
          rw [segmentStart_eq_zero hy, if_neg (Nat.lt_irrefl _), if_pos rfl]
          omega
      | succ i =>
          rw [List.getElem?_cons_succ] at hi
          have hle := hy x (List.mem_of_getElem? hi)
          obtain ⟨hstart, hend⟩ := ih hl hi
          by_cases hlt : key y < key x
          · rw [if_pos hlt, if_neg (Nat.ne_of_lt hlt)]
            omega
          · have heq : key y = key x := by omega
            have hzero : segmentStart key (key x) l = 0 :=
              segmentStart_eq_zero fun z hz => heq ▸ hy z hz
            rw [if_neg hlt, if_pos heq]
            omega

end Jumanpp.Lib
