import Mathlib.Data.List.Basic
import Mathlib.Data.List.Chain
import Mathlib.Data.List.Perm.Basic
import Mathlib.Tactic.Common

/-!
# Merging equal neighbours

`unique` keeps the first element of each row of equal ones, and also returns the others.
-/

namespace Jumanpp.Lib

variable {α : Type} (comp : α → α → Bool)

/-- The elements that are kept and those that are dropped; `last` is the last one kept. -/
def uniqueFrom (last : α) : List α → List α × List α
  | [] => ([last], [])
  | x :: rest =>
      if comp last x then ((uniqueFrom last rest).1, x :: (uniqueFrom last rest).2)
      else (last :: (uniqueFrom x rest).1, (uniqueFrom x rest).2)

def unique : List α → List α × List α
  | [] => ([], [])
  | x :: rest => uniqueFrom comp x rest

variable {comp}

theorem map_uniqueFrom {β : Type} (f : β → α) (last : β) (l : List β) :
    ((uniqueFrom (fun a b => comp (f a) (f b)) last l).1).map f =
      (uniqueFrom comp (f last) (l.map f)).1 := by
  induction l generalizing last with
  | nil => rfl
  | cons x l ih =>
      simp only [uniqueFrom, List.map_cons]
      split
      · exact ih last
      · rw [List.map_cons, ih x]

/-- Elements that are compared by what they stand for. -/
theorem map_unique {β : Type} (f : β → α) (l : List β) :
    ((unique (fun a b => comp (f a) (f b)) l).1).map f = (unique comp (l.map f)).1 := by
  cases l with
  | nil => rfl
  | cons x l => exact map_uniqueFrom f x l

theorem uniqueFrom_perm (last : α) (l : List α) :
    ((uniqueFrom comp last l).1 ++ (uniqueFrom comp last l).2).Perm (last :: l) := by
  induction l generalizing last with
  | nil => exact List.Perm.refl _
  | cons x l ih =>
      unfold uniqueFrom
      split
      · refine List.perm_middle.trans ?_
        exact ((ih last).cons x).trans (List.Perm.swap last x l)
      · exact (ih x).cons last

/-- Nothing is lost: each element is kept or dropped. -/
theorem unique_perm (l : List α) : ((unique comp l).1 ++ (unique comp l).2).Perm l := by
  cases l with
  | nil => exact List.Perm.refl _
  | cons x l => exact uniqueFrom_perm x l

theorem uniqueFrom_sublist (last : α) (l : List α) :
    (uniqueFrom comp last l).1.Sublist (last :: l) := by
  induction l generalizing last with
  | nil => exact List.Sublist.refl _
  | cons x l ih =>
      unfold uniqueFrom
      split
      · exact (ih last).trans ((List.sublist_cons_self x l).cons_cons last)
      · exact (ih x).cons_cons last

theorem unique_sublist (l : List α) : (unique comp l).1.Sublist l := by
  cases l with
  | nil => exact List.Sublist.refl _
  | cons x l => exact uniqueFrom_sublist x l

/-- The first element of a row stays in its place, and neighbours differ. -/
theorem uniqueFrom_chain (last : α) (l : List α) :
    ∃ kept, (uniqueFrom comp last l).1 = last :: kept ∧
      (last :: kept).IsChain fun a b => comp a b = false := by
  induction l generalizing last with
  | nil => exact ⟨[], rfl, .singleton last⟩
  | cons x l ih =>
      unfold uniqueFrom
      split
      next => exact ih last
      next hne =>
        obtain ⟨kept, hkept, hchain⟩ := ih x
        refine ⟨x :: kept, by rw [hkept], ?_⟩
        exact .cons_cons (Bool.eq_false_iff.mpr hne) hchain

theorem unique_chain (l : List α) : (unique comp l).1.IsChain fun a b => comp a b = false := by
  cases l with
  | nil => exact .nil
  | cons x l =>
      obtain ⟨kept, hkept, hchain⟩ := uniqueFrom_chain x l
      rw [unique, hkept]
      exact hchain

theorem uniqueFrom_represents (last : α) (l : List α) :
    ∀ x ∈ last :: l, ∃ y ∈ (uniqueFrom comp last l).1, y = x ∨ comp y x = true := by
  induction l generalizing last with
  | nil => exact fun x hx => ⟨x, hx, .inl rfl⟩
  | cons z l ih =>
      intro x hx
      unfold uniqueFrom
      split
      next heq =>
        rcases List.mem_cons.mp hx with rfl | hx
        · exact ih x x List.mem_cons_self
        rcases List.mem_cons.mp hx with rfl | hx
        · obtain ⟨kept, hkept, -⟩ := uniqueFrom_chain last l
          exact ⟨last, hkept ▸ List.mem_cons_self, .inr heq⟩
        · exact ih last x (List.mem_cons_of_mem _ hx)
      next =>
        rcases List.mem_cons.mp hx with rfl | hx
        · exact ⟨x, List.mem_cons_self, .inl rfl⟩
        · obtain ⟨y, hy, hyx⟩ := ih z x hx
          exact ⟨y, List.mem_cons_of_mem _ hy, hyx⟩

/-- Each element is kept, or an equal one is. -/
theorem unique_represents (l : List α) :
    ∀ x ∈ l, ∃ y ∈ (unique comp l).1, y = x ∨ comp y x = true := by
  cases l with
  | nil => exact fun x hx => nomatch hx
  | cons z l => exact uniqueFrom_represents z l

end Jumanpp.Lib
