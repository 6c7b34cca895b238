import Mathlib.Algebra.Ring.Nat
import Mathlib.Data.List.Basic
import Mathlib.Data.List.Perm.Basic
import Mathlib.Tactic.Common

/-!
# Slots that are set once

A list of slots, some of which still have the value that stands for nothing.
-/

namespace Jumanpp.Lib

/-- An invariant of a loop that may fail; it knows the turns that have been done. -/
theorem foldlM_invariant {α σ : Type} {f : σ → α → Option σ} {I : List α → σ → Prop} {total : List α}
    (hstep : ∀ done x rest s s', total = done ++ x :: rest → I done s → f s x = some s' →
      I (done ++ [x]) s') {s s' : σ} (h : I [] s) (hl : total.foldlM f s = some s') : I total s' := by
  have hloop : ∀ (l done : List α) (s : σ), total = done ++ l → I done s → l.foldlM f s = some s' →
      I total s' := by
    intro l
    induction l with
    | nil =>
        intro done s htotal h hl
        cases hl
        rw [htotal, List.append_nil]
        exact h
    | cons x l ih =>
        intro done s htotal h hl
        rw [List.foldlM_cons] at hl
        obtain ⟨s₁, hx, hrest⟩ := Option.bind_eq_some_iff.mp hl
        have hturn := hstep done x l s s₁ htotal h hx
        rw [List.append_cons] at htotal
        exact ih (done ++ [x]) s₁ htotal hturn hrest
  exact hloop total [] s rfl h hl

theorem exists_of_forall₂_left {α β : Type} {R : α → β → Prop} {l : List α} {l' : List β}
    (h : List.Forall₂ R l l') {x : α} (hx : x ∈ l) : ∃ y ∈ l', R x y := by
  induction h with
  | nil => cases hx
  | cons hR _ ih =>
      rcases List.mem_cons.mp hx with rfl | hx
      · exact ⟨_, List.mem_cons_self, hR⟩
      · obtain ⟨y, hy, hR⟩ := ih hx
        exact ⟨y, List.mem_cons_of_mem _ hy, hR⟩

theorem exists_of_forall₂_right {α β : Type} {R : α → β → Prop} {l : List α} {l' : List β}
    (h : List.Forall₂ R l l') {y : β} (hy : y ∈ l') : ∃ x ∈ l, R x y :=
  exists_of_forall₂_left h.flip hy

theorem forall₂_comp {α β γ : Type} {R : α → β → Prop} {S : β → γ → Prop} {T : α → γ → Prop}
    (hT : ∀ x y z, R x y → S y z → T x z) {l : List α} {l' : List β} {l'' : List γ}
    (h : List.Forall₂ R l l') (h' : List.Forall₂ S l' l'') : List.Forall₂ T l l'' := by
  induction h generalizing l'' with
  | nil =>
      cases h'
      exact .nil
  | cons hR _ ih =>
      cases h' with
      | cons hS hrest => exact .cons (hT _ _ _ hR hS) (ih hrest)

theorem forall₂_filter {α β : Type} {R : α → β → Prop} {p : α → Bool} {q : β → Bool}
    (hR : ∀ x y, R x y → q y = p x) {l : List α} {l' : List β} (h : List.Forall₂ R l l') :
    List.Forall₂ R (l.filter p) (l'.filter q) := by
  induction h with
  | nil => exact .nil
  | cons hxy _ ih =>
      rw [List.filter_cons, List.filter_cons, hR _ _ hxy]
      split_ifs
      · exact .cons hxy ih
      · exact ih

/-- Results differ where what they come from does. -/
theorem nodup_of_forall₂ {α β γ δ : Type} {R : α → β → Prop} {f : α → γ} {g : β → δ} {l : List α}
    {l' : List β} (h : List.Forall₂ R l l')
    (hinj : ∀ x ∈ l, ∀ x' ∈ l, ∀ y y', R x y → R x' y' → g y = g y' → f x = f x')
    (hnodup : (l.map f).Nodup) : (l'.map g).Nodup := by
  induction h with
  | nil => exact List.nodup_nil
  | cons hxy hrest ih =>
      obtain ⟨hnot, hnodup⟩ := List.nodup_cons.mp hnodup
      rw [List.map_cons, List.nodup_cons]
      refine ⟨?_, ih ?_ hnodup⟩
      · intro hmem
        obtain ⟨y', hy', heq⟩ := List.mem_map.mp hmem
        obtain ⟨x', hx', hR⟩ := exists_of_forall₂_right hrest hy'
        apply hnot
        rw [hinj _ List.mem_cons_self x' (List.mem_cons_of_mem _ hx') _ _ hxy hR heq.symm]
        exact List.mem_map_of_mem hx'
      · intro x hx x' hx'
        exact hinj x (List.mem_cons_of_mem _ hx) x' (List.mem_cons_of_mem _ hx')

theorem pairwise_of_forall₂ {α β : Type} {R : α → β → Prop} {P : α → α → Prop} {Q : β → β → Prop}
    {l : List α} {l' : List β} (h : List.Forall₂ R l l')
    (hQ : ∀ x x' y y', R x y → R x' y' → P x x' → Q y y') (hP : l.Pairwise P) : l'.Pairwise Q := by
  induction h with
  | nil => exact .nil
  | cons hxy hrest ih =>
      obtain ⟨hfirst, hP⟩ := List.pairwise_cons.mp hP
      refine List.pairwise_cons.mpr ⟨?_, ih hP⟩
      intro y' hy'
      obtain ⟨x', hx', hR⟩ := exists_of_forall₂_right hrest hy'
      exact hQ _ _ _ _ hxy hR (hfirst x' hx')

section Slots

variable {α : Type} {unset : α} {l : List α}

/-- A slot that has been set keeps its value. -/
theorem getElem?_set_of_ne {i j : Nat} {v w : α} (hi : l[i]? = some unset) (hj : l[j]? = some w)
    (hw : w ≠ unset) : (l.set i v)[j]? = some w := by
  rw [List.getElem?_set_ne]
  · exact hj
  · rintro rfl
    rw [hi] at hj
    exact hw (Option.some.inj hj).symm

/-- The slots that are still unset. -/
theorem getElem?_set_eq_unset_iff {i j : Nat} {v : α} (hi : l[i]? = some unset) (hv : v ≠ unset) :
    (l.set i v)[j]? = some unset ↔ l[j]? = some unset ∧ i ≠ j := by
  by_cases hij : i = j
  · subst hij
    have hlt := (List.getElem?_eq_some_iff.mp hi).1
    rw [List.getElem?_set_self hlt]
    simp [hv]
  · rw [List.getElem?_set_ne hij]
    simp [hij]

variable [DecidableEq α] (unset)

/-- The values of the slots that have been set. -/
def valuesSet (l : List α) : List α := l.filter fun v => decide (v ≠ unset)

variable {unset}

theorem valuesSet_eq_nil (h : ∀ v ∈ l, v = unset) : valuesSet unset l = [] := by
  apply List.filter_eq_nil_iff.mpr
  intro v hv
  simp [h v hv]

theorem valuesSet_eq_self (h : unset ∉ l) : valuesSet unset l = l := by
  apply List.filter_eq_self.mpr
  intro v hv
  apply decide_eq_true
  intro heq
  exact h (heq ▸ hv)

theorem valuesSet_set {i : Nat} {v : α} (hi : l[i]? = some unset) (hv : v ≠ unset) :
    (valuesSet unset (l.set i v)).Perm (v :: valuesSet unset l) := by
  induction l generalizing i with
  | nil => cases hi
  | cons x l ih =>
      cases i with
      | zero =>
          cases hi
          simp [valuesSet, hv]
      | succ i =>
          have hrest := ih hi
          rw [List.set_cons_succ]
          by_cases hx : x = unset
          · simpa [valuesSet, hx] using hrest
          · have hcons := (hrest.cons x).trans (List.Perm.swap v x _)
            simpa [valuesSet, hx] using hcons

/-- There is a slot left for one more value. -/
theorem length_valuesSet_lt {i : Nat} (hi : l[i]? = some unset) :
    (valuesSet unset l).length < l.length := by
  obtain ⟨hlt, hget⟩ := List.getElem?_eq_some_iff.mp hi
  unfold valuesSet
  rw [List.length_filter_lt_length_iff_exists]
  exact ⟨l[i], List.getElem_mem hlt, by simp [hget]⟩

end Slots

/-- What one slot holds is exchanged. -/
theorem perm_filterMap_set {α β : Type} {f : α → Option β} {l : List α} {i : Nat} {a b : α}
    (h : l[i]? = some a) :
    ((f a).toList ++ (l.set i b).filterMap f).Perm ((f b).toList ++ l.filterMap f) := by
  induction l generalizing i with
  | nil => cases h
  | cons c l ih =>
      cases i with
      | zero =>
          obtain rfl : c = a := Option.some.inj h
          rw [List.set_cons_zero, List.filterMap_cons, List.filterMap_cons]
          cases f c with
          | none =>
              cases f b with
              | none => exact .refl _
              | some y => exact .refl _
          | some x =>
              cases f b with
              | none => exact .refl _
              | some y => exact .swap y x _
      | succ i =>
          rw [List.getElem?_cons_succ] at h
          rw [List.set_cons_succ, List.filterMap_cons, List.filterMap_cons]
          cases f c with
          | none => exact ih h
          | some x => exact (List.perm_middle.trans ((ih h).cons x)).trans List.perm_middle.symm

theorem sum_map_set {α : Type} {f : α → Nat} {l : List α} {i : Nat} {a b : α} (h : l[i]? = some a) :
    ((l.set i b).map f).sum + f a = (l.map f).sum + f b := by
  induction l generalizing i with
  | nil => cases h
  | cons c l ih =>
      cases i with
      | zero =>
          obtain rfl : c = a := Option.some.inj h
          simp only [List.set_cons_zero, List.map_cons, List.sum_cons]
          omega
      | succ i =>
          rw [List.getElem?_cons_succ] at h
          have hrest := ih h
          simp only [List.set_cons_succ, List.map_cons, List.sum_cons]
          omega

theorem countP_set_of_getElem? {α : Type} {p : α → Bool} {l : List α} {i : Nat} {a b : α}
    (h : l[i]? = some a) :
    (l.set i b).countP p + (p a).toNat = l.countP p + (p b).toNat := by
  induction l generalizing i with
  | nil => cases h
  | cons c l ih =>
      cases i with
      | zero =>
          obtain rfl : c = a := Option.some.inj h
          rw [List.set_cons_zero, List.countP_cons, List.countP_cons]
          cases p c <;> cases p b <;> rfl
      | succ i =>
          rw [List.getElem?_cons_succ] at h
          have hrest := ih h
          rw [List.set_cons_succ, List.countP_cons, List.countP_cons]
          omega

theorem length_filterMap_id_add_count_none {α : Type} [DecidableEq α] (l : List (Option α)) :
    (l.filterMap id).length + l.count none = l.length := by
  induction l with
  | nil => rfl
  | cons a l ih =>
      cases a with
      | none =>
          rw [List.filterMap_cons, List.count_cons_self, List.length_cons]
          exact congrArg Nat.succ ih
      | some a =>
          rw [List.filterMap_cons, List.count_cons_of_ne (Option.some_ne_none a), List.length_cons]
          show (l.filterMap id).length + 1 + _ = _
          omega

end Jumanpp.Lib
