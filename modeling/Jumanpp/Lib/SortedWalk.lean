import Mathlib.Algebra.BigOperators.Group.List.Basic
import Mathlib.Data.Int.Order.Basic
import Mathlib.Data.List.Count
import Mathlib.Data.List.Pairwise
import Mathlib.Order.Defs.LinearOrder
import Mathlib.Tactic.Ring

/-!
# Two sorted lists, walked side by side

Equal heads are paired, the smaller head is left alone otherwise, until one of the lists ends.  What
stays alone is, for each element, the difference of its numbers of occurrences, and what stands
behind the end of the other list is larger than everything that was left alone before.
-/

namespace Jumanpp.Lib

variable {α : Type} [LinearOrder α]

/-- The elements without a partner, `1` for one of the left list and `-1` for one of the right
list, and what is left of the lists when one of them ends. -/
structure Walk (α : Type) where
  alone : List (α × Int)
  left : List α
  right : List α

def walk : List α → List α → Walk α
  | x :: xs, y :: ys =>
    if x = y then walk xs ys
    else if x < y then
      let w := walk xs (y :: ys)
      { w with alone := (x, 1) :: w.alone }
    else
      let w := walk (x :: xs) ys
      { w with alone := (y, -1) :: w.alone }
  | xs, ys => ⟨[], xs, ys⟩
termination_by xs ys => xs.length + ys.length

/-- How many more times `a` occurs on the left. -/
def excess (a : α) (xs ys : List α) : Int :=
  (xs.count a : Int) - ys.count a

/-- The sum of what stands beside `a`. -/
def net (a : α) (alone : List (α × Int)) : Int :=
  (alone.map fun e => if e.1 = a then e.2 else 0).sum

@[simp] theorem net_nil (a : α) : net a [] = 0 := rfl

@[simp] theorem net_cons (a : α) (e : α × Int) (alone : List (α × Int)) :
    net a (e :: alone) = (if e.1 = a then e.2 else 0) + net a alone := by
  simp [net]

theorem net_append (a : α) (l r : List (α × Int)) : net a (l ++ r) = net a l + net a r := by
  simp [net]

theorem net_eq_zero {a : α} {alone : List (α × Int)} (h : ∀ e ∈ alone, e.1 ≠ a) :
    net a alone = 0 := by
  unfold net
  apply List.sum_eq_zero
  intro n hn
  obtain ⟨e, he, rfl⟩ := List.mem_map.mp hn
  exact if_neg (h e he)

theorem net_map (a : α) (n : Int) (l : List α) : net a (l.map fun x => (x, n)) = l.count a * n := by
  induction l with
  | nil => simp
  | cons x l ih =>
      rw [List.map_cons, net_cons, ih, List.count_cons]
      by_cases h : x = a
      · simp [h]; ring
      · simp [h]

theorem excess_cons_cons (a x : α) (xs ys : List α) :
    excess a (x :: xs) (x :: ys) = excess a xs ys := by
  unfold excess
  rw [List.count_cons, List.count_cons]
  omega

theorem excess_cons_left (a x : α) (xs ys : List α) :
    excess a (x :: xs) ys = (if x = a then 1 else 0) + excess a xs ys := by
  unfold excess
  rw [List.count_cons]
  by_cases h : x = a
  · simp [h]; omega
  · simp [h]

theorem excess_cons_right (a y : α) (xs ys : List α) :
    excess a xs (y :: ys) = (if y = a then -1 else 0) + excess a xs ys := by
  unfold excess
  rw [List.count_cons]
  by_cases h : y = a
  · simp [h]; omega
  · simp [h]

/-! ## The walk -/

@[simp] theorem walk_nil_left (ys : List α) : walk [] ys = ⟨[], [], ys⟩ := by
  rw [walk]
  simp

@[simp] theorem walk_nil_right (xs : List α) : walk xs [] = ⟨[], xs, []⟩ := by
  rw [walk]
  simp

theorem walk_pair (x : α) (xs ys : List α) : walk (x :: xs) (x :: ys) = walk xs ys := by
  rw [walk, if_pos rfl]

theorem walk_lt {x y : α} (h : x < y) (xs ys : List α) :
    walk (x :: xs) (y :: ys) =
      { walk xs (y :: ys) with alone := (x, 1) :: (walk xs (y :: ys)).alone } := by
  rw [walk, if_neg h.ne, if_pos h]

theorem walk_gt {x y : α} (h : y < x) (xs ys : List α) :
    walk (x :: xs) (y :: ys) =
      { walk (x :: xs) ys with alone := (y, -1) :: (walk (x :: xs) ys).alone } := by
  rw [walk, if_neg h.ne', if_neg h.not_gt]

/-- What holds where a list ends and is carried on by each of the three steps holds for all
lists. -/
theorem walk_induction {P : List α → List α → Prop} (xs ys : List α)
    (hleft : ∀ ys, P [] ys) (hright : ∀ xs, P xs [])
    (hpair : ∀ x xs ys, P xs ys → P (x :: xs) (x :: ys))
    (hlt : ∀ x xs y ys, x < y → P xs (y :: ys) → P (x :: xs) (y :: ys))
    (hgt : ∀ x xs y ys, y < x → P (x :: xs) ys → P (x :: xs) (y :: ys)) : P xs ys := by
  induction hn : xs.length + ys.length using Nat.strong_induction_on generalizing xs ys with
  | _ n ih =>
      match xs, ys with
      | [], ys => exact hleft ys
      | x :: xs, [] => exact hright _
      | x :: xs, y :: ys =>
          simp only [List.length_cons] at hn
          obtain h | rfl | h := lt_trichotomy x y
          · exact hlt x xs y ys h (ih _ (by simp only [List.length_cons]; omega) _ _ rfl)
          · exact hpair x xs ys (ih _ (by omega) _ _ rfl)
          · exact hgt x xs y ys h (ih _ (by simp only [List.length_cons]; omega) _ _ rfl)

theorem walk_ends (xs ys : List α) : (walk xs ys).left = [] ∨ (walk xs ys).right = [] := by
  induction xs, ys using walk_induction with
  | hleft ys => exact Or.inl (by rw [walk_nil_left])
  | hright xs => exact Or.inr (by rw [walk_nil_right])
  | hpair x xs ys ih => rwa [walk_pair]
  | hlt x xs y ys h ih => rwa [walk_lt h]
  | hgt x xs y ys h ih => rwa [walk_gt h]

theorem walk_suffix (xs ys : List α) : (walk xs ys).left <:+ xs ∧ (walk xs ys).right <:+ ys := by
  induction xs, ys using walk_induction with
  | hleft ys => simp
  | hright xs => simp
  | hpair x xs ys ih =>
      rw [walk_pair]
      exact ⟨ih.1.trans (List.suffix_cons x xs), ih.2.trans (List.suffix_cons x ys)⟩
  | hlt x xs y ys h ih =>
      rw [walk_lt h]
      exact ⟨ih.1.trans (List.suffix_cons x xs), ih.2⟩
  | hgt x xs y ys h ih =>
      rw [walk_gt h]
      exact ⟨ih.1, ih.2.trans (List.suffix_cons y ys)⟩

theorem mem_of_mem_walk_left {xs ys : List α} {x : α} (h : x ∈ (walk xs ys).left) : x ∈ xs :=
  (walk_suffix xs ys).1.mem h

theorem mem_of_mem_walk_right {xs ys : List α} {y : α} (h : y ∈ (walk xs ys).right) : y ∈ ys :=
  (walk_suffix xs ys).2.mem h

/-- Nothing is lost: what is not in a pair is alone or left. -/
theorem walk_excess (a : α) (xs ys : List α) :
    excess a xs ys
      = net a (walk xs ys).alone + excess a (walk xs ys).left (walk xs ys).right := by
  induction xs, ys using walk_induction with
  | hleft ys => simp
  | hright xs => simp
  | hpair x xs ys ih => rw [walk_pair, excess_cons_cons, ih]
  | hlt x xs y ys h ih =>
      rw [walk_lt h, excess_cons_left, ih]
      exact (Int.add_assoc _ _ _).symm
  | hgt x xs y ys h ih =>
      rw [walk_gt h, excess_cons_right, ih]
      exact (Int.add_assoc _ _ _).symm

/-- What stands alone is smaller than some element of the other list. -/
theorem walk_alone_exceeded {xs ys : List α} {e : α × Int} (he : e ∈ (walk xs ys).alone) :
    ∃ z ∈ xs ++ ys, e.1 < z := by
  induction xs, ys using walk_induction with
  | hleft ys => simp at he
  | hright xs => simp at he
  | hpair x xs ys ih =>
      rw [walk_pair] at he
      obtain ⟨z, hz, hlt⟩ := ih he
      exact ⟨z, by simp only [List.mem_append, List.mem_cons] at hz ⊢; tauto, hlt⟩
  | hlt x xs y ys h ih =>
      rw [walk_lt h] at he
      obtain rfl | he := List.mem_cons.mp he
      · exact ⟨y, by simp, h⟩
      · obtain ⟨z, hz, hlt⟩ := ih he
        exact ⟨z, List.mem_cons_of_mem x hz, hlt⟩
  | hgt x xs y ys h ih =>
      rw [walk_gt h] at he
      obtain rfl | he := List.mem_cons.mp he
      · exact ⟨x, by simp, h⟩
      · obtain ⟨z, hz, hlt⟩ := ih he
        exact ⟨z, by simp only [List.mem_append, List.mem_cons] at hz ⊢; tauto, hlt⟩

/-! ## Sorted lists -/

/-- What is left of a list is at least as large as all of the other list. -/
theorem walk_left_ge {xs ys : List α} (hxs : xs.Pairwise (· ≤ ·)) (hys : ys.Pairwise (· ≤ ·)) :
    (∀ x ∈ (walk xs ys).left, ∀ y ∈ ys, y ≤ x) ∧ ∀ y ∈ (walk xs ys).right, ∀ x ∈ xs, x ≤ y := by
  induction xs, ys using walk_induction with
  | hleft ys => simp
  | hright xs => simp
  | hpair x xs ys ih =>
      rw [walk_pair]
      obtain ⟨hx, hxs⟩ := List.pairwise_cons.mp hxs
      obtain ⟨hy, hys⟩ := List.pairwise_cons.mp hys
      obtain ⟨ihl, ihr⟩ := ih hxs hys
      constructor
      · intro l hl z hz
        obtain rfl | hz := List.mem_cons.mp hz
        · exact hx l (mem_of_mem_walk_left hl)
        · exact ihl l hl z hz
      · intro r hr z hz
        obtain rfl | hz := List.mem_cons.mp hz
        · exact hy r (mem_of_mem_walk_right hr)
        · exact ihr r hr z hz
  | hlt x xs y ys h ih =>
      rw [walk_lt h]
      obtain ⟨ihl, ihr⟩ := ih (List.pairwise_cons.mp hxs).2 hys
      refine ⟨ihl, ?_⟩
      intro r hr z hz
      obtain rfl | hz := List.mem_cons.mp hz
      · obtain rfl | hr := List.mem_cons.mp (mem_of_mem_walk_right hr)
        · exact h.le
        · exact h.le.trans ((List.pairwise_cons.mp hys).1 r hr)
      · exact ihr r hr z hz
  | hgt x xs y ys h ih =>
      rw [walk_gt h]
      obtain ⟨ihl, ihr⟩ := ih hxs (List.pairwise_cons.mp hys).2
      refine ⟨?_, ihr⟩
      intro l hl z hz
      obtain rfl | hz := List.mem_cons.mp hz
      · obtain rfl | hl := List.mem_cons.mp (mem_of_mem_walk_left hl)
        · exact h.le
        · exact h.le.trans ((List.pairwise_cons.mp hxs).1 l hl)
      · exact ihl l hl z hz

theorem mem_of_mem_walk_alone {xs ys : List α} {e : α × Int} (he : e ∈ (walk xs ys).alone) :
    e.1 ∈ xs ∨ e.1 ∈ ys := by
  induction xs, ys using walk_induction with
  | hleft ys => simp at he
  | hright xs => simp at he
  | hpair x xs ys ih =>
      rw [walk_pair] at he
      exact (ih he).imp (List.mem_cons_of_mem x) (List.mem_cons_of_mem x)
  | hlt x xs y ys h ih =>
      rw [walk_lt h] at he
      obtain rfl | he := List.mem_cons.mp he
      · exact Or.inl List.mem_cons_self
      · exact (ih he).imp_left (List.mem_cons_of_mem x)
  | hgt x xs y ys h ih =>
      rw [walk_gt h] at he
      obtain rfl | he := List.mem_cons.mp he
      · exact Or.inr List.mem_cons_self
      · exact (ih he).imp_right (List.mem_cons_of_mem y)

theorem lt_of_lt_head {x y : α} {ys : List α} (h : x < y) (hys : (y :: ys).Pairwise (· ≤ ·)) :
    ∀ z ∈ y :: ys, x < z := by
  intro z hz
  obtain rfl | hz := List.mem_cons.mp hz
  · exact h
  · exact h.trans_le ((List.pairwise_cons.mp hys).1 z hz)

theorem le_of_mem_walk_alone {x : α} {xs ys : List α} {e : α × Int}
    (he : e ∈ (walk xs ys).alone) (hxs : ∀ z ∈ xs, x ≤ z) (hys : ∀ z ∈ ys, x ≤ z) : x ≤ e.1 := by
  obtain h | h := mem_of_mem_walk_alone he
  · exact hxs _ h
  · exact hys _ h

/-- The elements that stand alone are met in order. -/
theorem walk_alone_sorted {xs ys : List α} (hxs : xs.Pairwise (· ≤ ·))
    (hys : ys.Pairwise (· ≤ ·)) : (walk xs ys).alone.Pairwise fun d e => d.1 ≤ e.1 := by
  induction xs, ys using walk_induction with
  | hleft ys => simp
  | hright xs => simp
  | hpair x xs ys ih =>
      rw [walk_pair]
      exact ih (List.pairwise_cons.mp hxs).2 (List.pairwise_cons.mp hys).2
  | hlt x xs y ys h ih =>
      rw [walk_lt h]
      obtain ⟨hx, htail⟩ := List.pairwise_cons.mp hxs
      refine List.pairwise_cons.mpr ⟨fun e he => ?_, ih htail hys⟩
      exact le_of_mem_walk_alone he hx fun z hz => (lt_of_lt_head h hys z hz).le
  | hgt x xs y ys h ih =>
      rw [walk_gt h]
      obtain ⟨hy, htail⟩ := List.pairwise_cons.mp hys
      refine List.pairwise_cons.mpr ⟨fun e he => ?_, ih hxs htail⟩
      exact le_of_mem_walk_alone he (fun z hz => (lt_of_lt_head h hxs z hz).le) hy

/-- What stands alone is smaller than all that is left. -/
theorem walk_alone_lt {xs ys : List α} (hxs : xs.Pairwise (· ≤ ·)) (hys : ys.Pairwise (· ≤ ·))
    {e : α × Int} (he : e ∈ (walk xs ys).alone) :
    ∀ z, z ∈ (walk xs ys).left ∨ z ∈ (walk xs ys).right → e.1 < z := by
  induction xs, ys using walk_induction with
  | hleft ys => simp at he
  | hright xs => simp at he
  | hpair x xs ys ih =>
      rw [walk_pair] at he ⊢
      exact ih (List.pairwise_cons.mp hxs).2 (List.pairwise_cons.mp hys).2 he
  | hlt x xs y ys h ih =>
      have htail := (List.pairwise_cons.mp hxs).2
      rw [walk_lt h] at he ⊢
      obtain rfl | he := List.mem_cons.mp he
      · rintro z (hz | hz)
        · exact h.trans_le ((walk_left_ge htail hys).1 z hz y List.mem_cons_self)
        · exact lt_of_lt_head h hys z (mem_of_mem_walk_right hz)
      · exact ih htail hys he
  | hgt x xs y ys h ih =>
      have htail := (List.pairwise_cons.mp hys).2
      rw [walk_gt h] at he ⊢
      obtain rfl | he := List.mem_cons.mp he
      · rintro z (hz | hz)
        · exact lt_of_lt_head h hxs z (mem_of_mem_walk_left hz)
        · exact h.trans_le ((walk_left_ge hxs htail).2 z hz x List.mem_cons_self)
      · exact ih hxs htail he

theorem excess_pos {x : α} {xs ys : List α} (hx : x ∈ xs) (hys : x ∉ ys) : 0 < excess x xs ys := by
  unfold excess
  rw [List.count_eq_zero_of_not_mem hys]
  have hcount := List.count_pos_iff.mpr hx
  omega

theorem excess_neg {y : α} {xs ys : List α} (hxs : y ∉ xs) (hy : y ∈ ys) : excess y xs ys < 0 := by
  unfold excess
  rw [List.count_eq_zero_of_not_mem hxs]
  have hcount := List.count_pos_iff.mpr hy
  omega

/-- Only elements with an excess stand alone. -/
theorem excess_ne_zero_of_alone {xs ys : List α} (hxs : xs.Pairwise (· ≤ ·))
    (hys : ys.Pairwise (· ≤ ·)) {e : α × Int} (he : e ∈ (walk xs ys).alone) :
    excess e.1 xs ys ≠ 0 := by
  induction xs, ys using walk_induction with
  | hleft ys => simp at he
  | hright xs => simp at he
  | hpair x xs ys ih =>
      rw [walk_pair] at he
      rw [excess_cons_cons]
      exact ih (List.pairwise_cons.mp hxs).2 (List.pairwise_cons.mp hys).2 he
  | hlt x xs y ys h ih =>
      by_cases hx : x = e.1
      · have hnot : e.1 ∉ y :: ys := fun hmem => (lt_of_lt_head h hys _ hmem).ne hx
        exact (excess_pos (hx ▸ List.mem_cons_self) hnot).ne'
      · rw [walk_lt h] at he
        obtain rfl | he := List.mem_cons.mp he
        · exact absurd rfl hx
        · rw [excess_cons_left, if_neg hx, Int.zero_add]
          exact ih (List.pairwise_cons.mp hxs).2 hys he
  | hgt x xs y ys h ih =>
      by_cases hy : y = e.1
      · have hnot : e.1 ∉ x :: xs := fun hmem => (lt_of_lt_head h hxs _ hmem).ne hy
        exact (excess_neg hnot (hy ▸ List.mem_cons_self)).ne
      · rw [walk_gt h] at he
        obtain rfl | he := List.mem_cons.mp he
        · exact absurd rfl hy
        · rw [excess_cons_right, if_neg hy, Int.zero_add]
          exact ih hxs (List.pairwise_cons.mp hys).2 he

/-- An element that is left is not among those that stand alone, and all its excess is left. -/
theorem excess_of_left {xs ys : List α} (hxs : xs.Pairwise (· ≤ ·)) (hys : ys.Pairwise (· ≤ ·))
    {z : α} (hz : z ∈ (walk xs ys).left ∨ z ∈ (walk xs ys).right) :
    net z (walk xs ys).alone = 0 ∧
      excess z (walk xs ys).left (walk xs ys).right = excess z xs ys ∧ excess z xs ys ≠ 0 := by
  have hnet : net z (walk xs ys).alone = 0 :=
    net_eq_zero fun e he => (walk_alone_lt hxs hys he z hz).ne
  have hexcess := walk_excess z xs ys
  rw [hnet, Int.zero_add] at hexcess
  refine ⟨hnet, hexcess.symm, ?_⟩
  rw [hexcess]
  obtain hend | hend := walk_ends xs ys
  · rw [hend] at hz ⊢
    obtain hz | hz := hz
    · cases hz
    · exact (excess_neg List.not_mem_nil hz).ne
  · rw [hend] at hz ⊢
    obtain hz | hz := hz
    · exact (excess_pos hz List.not_mem_nil).ne'
    · cases hz

theorem excess_of_not_left {xs ys : List α} {z : α} (hleft : z ∉ (walk xs ys).left)
    (hright : z ∉ (walk xs ys).right) : net z (walk xs ys).alone = excess z xs ys := by
  rw [walk_excess z xs ys]
  unfold excess
  rw [List.count_eq_zero_of_not_mem hleft, List.count_eq_zero_of_not_mem hright]
  simp

theorem le_getLast_of_suffix {l xs : List α} (hxs : xs.Pairwise (· ≤ ·)) (hl : l <:+ xs)
    (hne : l ≠ []) : ∀ z ∈ xs, z ≤ l.getLast hne := by
  obtain ⟨front, rfl⟩ := hl
  obtain ⟨-, hsorted, hfront⟩ := List.pairwise_append.mp hxs
  intro z hz
  obtain hz | hz := List.mem_append.mp hz
  · exact hfront z hz _ (List.getLast_mem hne)
  · exact hsorted.rel_getLast hz

/-- Both lists end together exactly when the largest element occurs equally often in both. -/
theorem walk_ends_together_iff {xs ys : List α} (hxs : xs.Pairwise (· ≤ ·))
    (hys : ys.Pairwise (· ≤ ·)) :
    ((walk xs ys).left = [] ∧ (walk xs ys).right = []) ↔
      ∀ m ∈ xs ++ ys, (∀ z ∈ xs ++ ys, z ≤ m) → xs.count m = ys.count m := by
  constructor
  · rintro ⟨hleft, hright⟩ m - hmax
    have hnet : net m (walk xs ys).alone = 0 := by
      refine net_eq_zero fun e he => ?_
      obtain ⟨z, hz, hlt⟩ := walk_alone_exceeded he
      exact (hlt.trans_le (hmax z hz)).ne
    have hexcess := walk_excess m xs ys
    rw [hnet, hleft, hright] at hexcess
    simp only [excess, List.count_nil] at hexcess
    omega
  · intro h
    have hno : ∀ m, m ∈ (walk xs ys).left ∨ m ∈ (walk xs ys).right →
        ¬ ∀ z ∈ xs ++ ys, z ≤ m := by
      intro m hm hmax
      have hmem : m ∈ xs ++ ys := List.mem_append.mpr
        (hm.imp mem_of_mem_walk_left mem_of_mem_walk_right)
      have hcount := h m hmem hmax
      exact (excess_of_left hxs hys hm).2.2 (by unfold excess; omega)
    constructor
    · by_contra hleft
      have hlast := List.getLast_mem hleft
      refine hno _ (Or.inl hlast) fun z hz => ?_
      obtain hz | hz := List.mem_append.mp hz
      · exact le_getLast_of_suffix hxs (walk_suffix xs ys).1 hleft z hz
      · exact (walk_left_ge hxs hys).1 _ hlast z hz
    · by_contra hright
      have hlast := List.getLast_mem hright
      refine hno _ (Or.inr hlast) fun z hz => ?_
      obtain hz | hz := List.mem_append.mp hz
      · exact (walk_left_ge hxs hys).2 _ hlast z hz
      · exact le_getLast_of_suffix hys (walk_suffix xs ys).2 hright z hz

end Jumanpp.Lib
