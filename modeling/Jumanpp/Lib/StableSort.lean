import Mathlib.Data.List.Basic
import Mathlib.Data.List.Nodup
import Mathlib.Data.List.Sort
import Mathlib.Tactic.Common

/-!
# Stable sorting by a key

When the elements with a property are to stand before all others, each of them stands at a position below
their number.  What a stable sort does for two elements is decided by their keys, and by their order
before if the keys are equal.
-/

namespace Jumanpp.Lib

variable {α : Type}

/-! ## Elements that stand first -/

theorem countP_le_of_lt {p : α → Bool} {l : List α} {m : Nat}
    (h : ∀ i (hi : i < l.length), p l[i] = true → i < m) : l.countP p ≤ m := by
  have hdrop : (l.drop m).countP p = 0 := by
    rw [List.countP_eq_zero]
    intro x hx hp
    obtain ⟨j, hj, rfl⟩ := List.mem_iff_getElem.mp hx
    rw [List.getElem_drop] at hp
    have hlt := h (m + j) (by rw [List.length_drop] at hj; omega) hp
    omega
  have htake := @List.countP_le_length _ p (l.take m)
  have hlength := List.length_take_le m l
  rw [← List.take_append_drop m l, List.countP_append, hdrop]
  omega

/-- The elements with the property come first just if none of them stands behind the first so many. -/
theorem pairwise_iff_lt_countP {p : α → Bool} {l : List α} :
    l.Pairwise (fun x y => p y = true → p x = true) ↔
      ∀ i (hi : i < l.length), p l[i] = true → i < l.countP p := by
  induction l with
  | nil => simp
  | cons x l ih =>
      rw [List.pairwise_cons, ih]
      constructor
      · rintro ⟨hx, hl⟩ i hi hp
        cases i with
        | zero =>
            rw [List.getElem_cons_zero] at hp
            rw [List.countP_cons_of_pos hp]
            omega
        | succ i =>
            rw [List.getElem_cons_succ] at hp
            have hlt := hl i (by simpa using hi) hp
            rw [List.countP_cons_of_pos (hx _ (List.getElem_mem _) hp)]
            omega
      · intro h
        by_cases hx : p x = true
        · rw [List.countP_cons_of_pos hx] at h
          refine ⟨fun _ _ _ => hx, ?_⟩
          intro i hi hp
          have hlt := h (i + 1) (by simpa using hi) (by rwa [List.getElem_cons_succ])
          omega
        · rw [List.countP_cons_of_neg hx] at h
          have hnext : ∀ i (hi : i < l.length), p l[i] = true → i + 1 < l.countP p := by
            intro i hi hp
            exact h (i + 1) (by simpa using hi) (by rwa [List.getElem_cons_succ])
          -- one place is taken by `x`, so that there is no element with the property at all
          have hle := countP_le_of_lt fun i hi hp => Nat.lt_sub_of_add_lt (hnext i hi hp)
          have hnone : ∀ y ∈ l, ¬ p y = true := by
            rw [← List.countP_eq_zero]
            by_contra hpos
            omega
          exact ⟨fun y hy hp => absurd hp (hnone y hy), fun i hi hp => by
            have hlt := hnext i hi hp
            omega⟩

/-! ## The order of two elements -/

theorem not_both_orders {l : List α} (hnodup : l.Nodup) {a b : α} (hab : List.Sublist [a, b] l)
    (hba : List.Sublist [b, a] l) : False := by
  induction l with
  | nil => cases hab
  | cons x l ih =>
      obtain ⟨hx, hl⟩ := List.nodup_cons.mp hnodup
      cases hab with
      | cons _ hab =>
          cases hba with
          | cons _ hba => exact ih hl hab hba
          | cons_cons _ hba => exact hx (hab.subset (by simp))
      | cons_cons _ hab =>
          cases hba with
          | cons _ hba => exact hx (hba.subset (by simp))
          | cons_cons _ hba => exact hx (hab.subset (by simp))

theorem one_of_orders {l : List α} {a b : α} (ha : a ∈ l) (hb : b ∈ l) (hne : a ≠ b) :
    List.Sublist [a, b] l ∨ List.Sublist [b, a] l := by
  induction l with
  | nil => cases ha
  | cons x l ih =>
      rcases List.mem_cons.mp ha with rfl | ha'
      · rcases List.mem_cons.mp hb with rfl | hb'
        · exact absurd rfl hne
        · exact .inl (List.Sublist.cons_cons _ (List.singleton_sublist.mpr hb'))
      · rcases List.mem_cons.mp hb with rfl | hb'
        · exact .inr (List.Sublist.cons_cons _ (List.singleton_sublist.mpr ha'))
        · exact (ih ha' hb').imp (List.Sublist.cons _) (List.Sublist.cons _)

/-! ## Sorting -/

/-- `std::stable_sort` by a key. -/
def sortByKey (key : α → Int) (l : List α) : List α :=
  l.mergeSort fun a b => decide (key a ≤ key b)

variable {key : α → Int} {l : List α}

theorem sortByKey_perm : (sortByKey key l).Perm l :=
  List.mergeSort_perm l _

theorem decide_le_trans (a b c : α) (hab : decide (key a ≤ key b) = true)
    (hbc : decide (key b ≤ key c) = true) : decide (key a ≤ key c) = true :=
  decide_eq_true (Int.le_trans (of_decide_eq_true hab) (of_decide_eq_true hbc))

theorem decide_le_total (a b : α) : (decide (key a ≤ key b) || decide (key b ≤ key a)) = true := by
  simpa using Int.le_total (key a) (key b)

theorem sortByKey_pairwise : (sortByKey key l).Pairwise fun a b => key a ≤ key b :=
  (List.pairwise_mergeSort decide_le_trans decide_le_total l).imp fun h => of_decide_eq_true h

/-- Sorting leaves what is sorted. -/
theorem sortByKey_of_pairwise (h : l.Pairwise fun a b => key a ≤ key b) : sortByKey key l = l :=
  List.mergeSort_of_pairwise (h.imp fun hle => decide_eq_true hle)

theorem le_of_sublist_sortByKey {a b : α} (h : List.Sublist [a, b] (sortByKey key l)) :
    key a ≤ key b :=
  List.pairwise_iff_forall_sublist.mp sortByKey_pairwise h

theorem sublist_sortByKey {a b : α} (hle : key a ≤ key b) (h : List.Sublist [a, b] l) :
    List.Sublist [a, b] (sortByKey key l) :=
  List.pair_sublist_mergeSort decide_le_trans decide_le_total (decide_eq_true hle) h

/-- The elements with the property come first just if each has a smaller key than every other element, or
the same key and the earlier place. -/
theorem sortByKey_first_iff (hnodup : l.Nodup) (p : α → Bool) :
    (sortByKey key l).Pairwise (fun x y => p y = true → p x = true) ↔
      ∀ a ∈ l, ∀ b ∈ l, ¬ p a = true → p b = true →
        key b < key a ∨ key b = key a ∧ List.Sublist [b, a] l := by
  have hsorted : (sortByKey key l).Nodup := sortByKey_perm.nodup_iff.mpr hnodup
  rw [List.pairwise_iff_forall_sublist]
  constructor
  · intro h a ha b hb hpa hpb
    have hne : a ≠ b := fun heq => hpa (heq ▸ hpb)
    rcases one_of_orders (sortByKey_perm.mem_iff.mpr ha) (sortByKey_perm.mem_iff.mpr hb) hne with
      hab | hba
    · exact absurd (h hab hpb) hpa
    · have hle := le_of_sublist_sortByKey hba
      by_cases hlt : key b < key a
      · exact .inl hlt
      · refine .inr ⟨by omega, ?_⟩
        rcases one_of_orders ha hb hne with hab | hba'
        · exact absurd (not_both_orders hsorted hba (sublist_sortByKey (by omega) hab)) id
        · exact hba'
  · intro h a b hab hpb
    by_contra hpa
    have ha : a ∈ l := sortByKey_perm.mem_iff.mp (hab.subset (by simp))
    have hb : b ∈ l := sortByKey_perm.mem_iff.mp (hab.subset (by simp))
    have hle := le_of_sublist_sortByKey hab
    rcases h a ha b hb hpa hpb with hlt | ⟨heq, hba⟩
    · omega
    · exact not_both_orders hsorted hab (sublist_sortByKey (by omega) hba)

end Jumanpp.Lib
