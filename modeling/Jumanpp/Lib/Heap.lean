import Jumanpp.Lib.Selection
import Mathlib.Data.List.Sort

/-!
# Heaps in a range

`HeapAlgorithm` is what the C++ standard promises of `std::push_heap`, `std::pop_heap` and
`std::sort_heap`: the arrangement of a heap is left open.  The comparator has to be a strict weak
order of the elements in the range, and need not be one of others.
-/

namespace Jumanpp.Lib

variable {α : Type}

/-- `comp` is a strict weak order of the elements of `l`. -/
structure StrictWeakOn (comp : α → α → Bool) (l : List α) : Prop where
  asymm : ∀ a ∈ l, ∀ b ∈ l, comp a b = true → comp b a = false
  negTrans : ∀ a ∈ l, ∀ b ∈ l, ∀ c ∈ l, comp a b = false → comp b c = false → comp a c = false

theorem StrictWeakOn.subset {comp : α → α → Bool} {l l' : List α} (h : StrictWeakOn comp l)
    (hsub : l' ⊆ l) : StrictWeakOn comp l' where
  asymm a ha b hb := h.asymm a (hsub ha) b (hsub hb)
  negTrans a ha b hb c hc := h.negTrans a (hsub ha) b (hsub hb) c (hsub hc)

/-- An order of the numbers assigned to the elements. -/
theorem strictWeakOn_of_key {β : Type} [LinearOrder β] {comp : α → α → Bool} {l : List α}
    (key : α → β) (h : ∀ a ∈ l, ∀ b ∈ l, (comp a b = true ↔ key a < key b)) :
    StrictWeakOn comp l where
  asymm a ha b hb hab := by
    rw [← Bool.not_eq_true, h b hb a ha]
    exact not_lt.mpr ((h a ha b hb).mp hab).le
  negTrans a ha b hb c hc hab hbc := by
    rw [← Bool.not_eq_true, h a ha b hb, not_lt] at hab
    rw [← Bool.not_eq_true, h b hb c hc, not_lt] at hbc
    rw [← Bool.not_eq_true, h a ha c hc, not_lt]
    exact hbc.trans hab

/-- No element comes after the one at half its place. -/
def IsHeap (comp : α → α → Bool) (l : List α) : Prop :=
  ∀ (i : Nat) (a b : α), l[i / 2]? = some a → l[i + 1]? = some b → comp a b = false

/-- The element at the top is the last one in the order. -/
theorem IsHeap.top {comp : α → α → Bool} {top : α} {l : List α}
    (horder : StrictWeakOn comp (top :: l)) (h : IsHeap comp (top :: l)) :
    ∀ a ∈ l, comp top a = false := by
  have hself : comp top top = false := by
    cases htop : comp top top with
    | false => rfl
    | true =>
        rw [← htop]
        exact horder.asymm top (by simp) top (by simp) htop
  have hall : ∀ (i : Nat) (a : α), (top :: l)[i]? = some a → comp top a = false := by
    intro i
    induction i using Nat.strong_induction_on with
    | _ i ih =>
        intro a ha
        cases i with
        | zero =>
            rw [List.getElem?_cons_zero] at ha
            cases ha
            exact hself
        | succ i =>
            have hlength : i + 1 < (top :: l).length := (List.getElem?_eq_some_iff.mp ha).choose
            have hparent : (top :: l)[i / 2]? = some ((top :: l)[i / 2]) :=
              List.getElem?_eq_getElem (by omega)
            exact horder.negTrans _ (by simp) _ (List.getElem_mem _) _ (List.mem_of_getElem? ha)
              (ih (i / 2) (by omega) _ hparent) (h i _ a hparent ha)
  intro a ha
  obtain ⟨i, hi⟩ := List.mem_iff_getElem?.mp (List.mem_cons_of_mem top ha)
  exact hall i a hi

structure HeapAlgorithm where
  pushHeap : ∀ {α : Type}, (α → α → Bool) → List α → List α
  pushHeap_perm : ∀ {α : Type} (comp : α → α → Bool) (l : List α), (pushHeap comp l).Perm l
  pushHeap_heap : ∀ {α : Type} (comp : α → α → Bool) (l : List α), StrictWeakOn comp l →
    IsHeap comp l.dropLast → IsHeap comp (pushHeap comp l)
  popHeap : ∀ {α : Type}, (α → α → Bool) → List α → List α
  popHeap_perm : ∀ {α : Type} (comp : α → α → Bool) (l : List α), (popHeap comp l).Perm l
  popHeap_heap : ∀ {α : Type} (comp : α → α → Bool) (l : List α), StrictWeakOn comp l →
    IsHeap comp l → IsHeap comp (popHeap comp l).dropLast
  /-- The top has moved to the end. -/
  popHeap_last : ∀ {α : Type} (comp : α → α → Bool) (l : List α), StrictWeakOn comp l →
    IsHeap comp l → (popHeap comp l).getLast? = l.head?
  sortHeap : ∀ {α : Type}, (α → α → Bool) → List α → List α
  sortHeap_perm : ∀ {α : Type} (comp : α → α → Bool) (l : List α), (sortHeap comp l).Perm l
  sortHeap_sorted : ∀ {α : Type} (comp : α → α → Bool) (l : List α), StrictWeakOn comp l →
    IsHeap comp l → (sortHeap comp l).Pairwise (NotAfter comp)

/-- After `pop_heap`, an element put over the last place takes the place of the top. -/
theorem HeapAlgorithm.replaceTop (alg : HeapAlgorithm) {comp : α → α → Bool} {item top : α}
    {l : List α} (h : StrictWeakOn comp (item :: top :: l)) (hheap : IsHeap comp (top :: l)) :
    IsHeap comp (alg.pushHeap comp ((alg.popHeap comp (top :: l)).dropLast ++ [item])) ∧
      (alg.pushHeap comp ((alg.popHeap comp (top :: l)).dropLast ++ [item])).Perm (item :: l) := by
  have horder : StrictWeakOn comp (top :: l) := h.subset (List.subset_cons_self item _)
  have hperm := alg.popHeap_perm comp (top :: l)
  have hlast : (alg.popHeap comp (top :: l)).getLast? = some top :=
    alg.popHeap_last comp (top :: l) horder hheap
  have hpopped : (alg.popHeap comp (top :: l)).dropLast ++ [top] = alg.popHeap comp (top :: l) :=
    List.dropLast_append_getLast? top hlast
  have hrest : (alg.popHeap comp (top :: l)).dropLast.Perm l := by
    rw [← hpopped] at hperm
    exact ((List.perm_append_singleton top _).symm.trans hperm).cons_inv
  have hput : ((alg.popHeap comp (top :: l)).dropLast ++ [item]).Perm (item :: l) :=
    (List.perm_append_singleton item _).trans (hrest.cons item)
  constructor
  · apply alg.pushHeap_heap
    · exact h.subset fun a ha => List.cons_subset_cons item (List.subset_cons_self top l)
        (hput.subset ha)
    · rw [List.dropLast_concat]
      exact alg.popHeap_heap comp (top :: l) horder hheap
  · exact (alg.pushHeap_perm comp _).trans hput

theorem pairwise_insertionSort_on {comp : α → α → Bool} {l : List α} (h : StrictWeakOn comp l) :
    (l.insertionSort (NotAfter comp)).Pairwise (NotAfter comp) := by
  -- on the elements of `l` alone the order is one everywhere
  let compOn : {a // a ∈ l} → {a // a ∈ l} → Bool := fun a b => comp a.1 b.1
  have horder : StrictWeak compOn :=
    { asymm := fun a b => h.asymm a.1 a.2 b.1 b.2
      negTrans := fun a b c => h.negTrans a.1 a.2 b.1 b.2 c.1 c.2 }
  have hmap : (l.attach.insertionSort (NotAfter compOn)).map Subtype.val =
      l.insertionSort (NotAfter comp) := by
    rw [List.map_insertionSort (r := NotAfter compOn) (s := NotAfter comp) Subtype.val l.attach
      (fun _ _ _ _ => Iff.rfl), List.attach_map_subtype_val]
  rw [← hmap, List.pairwise_map]
  exact pairwise_insertionSort horder l.attach

/-- From the last element to the first one. -/
def sortedHeap (comp : α → α → Bool) (l : List α) : List α :=
  (l.insertionSort (NotAfter comp)).reverse

theorem sortedHeap_perm (comp : α → α → Bool) (l : List α) : (sortedHeap comp l).Perm l :=
  (List.reverse_perm _).trans (List.perm_insertionSort _ l)

theorem isHeap_sortedHeap {comp : α → α → Bool} {l : List α} (h : StrictWeakOn comp l) :
    IsHeap comp (sortedHeap comp l) := by
  have hsorted : (sortedHeap comp l).Pairwise fun a b => comp a b = false :=
    List.pairwise_reverse.mpr (pairwise_insertionSort_on h)
  intro i a b ha hb
  obtain ⟨hi, rfl⟩ := List.getElem?_eq_some_iff.mp ha
  obtain ⟨hj, rfl⟩ := List.getElem?_eq_some_iff.mp hb
  exact List.pairwise_iff_getElem.mp hsorted (i / 2) (i + 1) hi hj (by omega)

theorem sortedHeap_heap (comp : α → α → Bool) (l : List α) (h : StrictWeakOn comp l)
    (_ : IsHeap comp l.dropLast) : IsHeap comp (sortedHeap comp l) :=
  isHeap_sortedHeap h

def popSortedHeap (comp : α → α → Bool) : List α → List α
  | [] => []
  | top :: l => sortedHeap comp l ++ [top]

theorem popSortedHeap_perm (comp : α → α → Bool) (l : List α) : (popSortedHeap comp l).Perm l := by
  cases l with
  | nil => exact List.Perm.refl []
  | cons top l =>
      exact (List.perm_append_singleton top _).trans ((sortedHeap_perm comp l).cons top)

theorem popSortedHeap_heap (comp : α → α → Bool) (l : List α) (h : StrictWeakOn comp l)
    (_ : IsHeap comp l) : IsHeap comp (popSortedHeap comp l).dropLast := by
  cases l with
  | nil => intro i a b ha _; simp [popSortedHeap] at ha
  | cons top l =>
      rw [popSortedHeap, List.dropLast_concat]
      exact isHeap_sortedHeap (h.subset (List.subset_cons_self top l))

theorem popSortedHeap_last (comp : α → α → Bool) (l : List α) (_ : StrictWeakOn comp l)
    (_ : IsHeap comp l) : (popSortedHeap comp l).getLast? = l.head? := by
  cases l with
  | nil => rfl
  | cons top l => rw [popSortedHeap, List.getLast?_concat, List.head?_cons]

theorem insertionSort_perm_range (comp : α → α → Bool) (l : List α) :
    (l.insertionSort (NotAfter comp)).Perm l :=
  List.perm_insertionSort (NotAfter comp) l

theorem insertionSort_sorts_heap (comp : α → α → Bool) (l : List α) (h : StrictWeakOn comp l)
    (_ : IsHeap comp l) : (l.insertionSort (NotAfter comp)).Pairwise (NotAfter comp) :=
  pairwise_insertionSort_on h

/-- All three by insertion. -/
def HeapAlgorithm.insertion : HeapAlgorithm where
  pushHeap := sortedHeap
  pushHeap_perm := sortedHeap_perm
  pushHeap_heap := sortedHeap_heap
  popHeap := popSortedHeap
  popHeap_perm := popSortedHeap_perm
  popHeap_heap := popSortedHeap_heap
  popHeap_last := popSortedHeap_last
  sortHeap comp l := l.insertionSort (NotAfter comp)
  sortHeap_perm := insertionSort_perm_range
  sortHeap_sorted := insertionSort_sorts_heap

end Jumanpp.Lib
