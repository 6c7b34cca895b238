import Mathlib.Data.List.Sort
import Mathlib.Data.List.Perm.Subperm
import Mathlib.Data.List.Count
import Mathlib.Data.Set.Card

/-!
# Sorting and selecting with a comparator

A comparator is a Boolean "comes strictly before".  `StdAlgorithm` is what the C++ standard promises
of `std::sort` and `std::nth_element` and no more: the order of equivalent elements is left open.
`IsTopK r k all best` says that `best` lists `k` foremost elements of `all` in order.
-/

namespace Jumanpp.Lib

variable {α β : Type}

/-- The requirement of the standard on a comparator: a strict weak order. -/
structure StrictWeak (comp : α → α → Bool) : Prop where
  asymm : ∀ a b, comp a b = true → comp b a = false
  negTrans : ∀ a b c, comp a b = false → comp b c = false → comp a c = false

/-- `a` may stand before `b`. -/
def NotAfter (comp : α → α → Bool) (a b : α) : Prop :=
  comp b a = false

theorem StrictWeak.notAfter_refl {comp : α → α → Bool} (h : StrictWeak comp) (a : α) :
    NotAfter comp a a := by
  unfold NotAfter
  by_contra hne
  have hlt : comp a a = true := by simpa using hne
  rw [h.asymm a a hlt] at hlt
  cases hlt

theorem StrictWeak.notAfter_trans {comp : α → α → Bool} (h : StrictWeak comp) {a b c : α}
    (hab : NotAfter comp a b) (hbc : NotAfter comp b c) : NotAfter comp a c :=
  h.negTrans c b a hbc hab

theorem StrictWeak.notAfter_total {comp : α → α → Bool} (h : StrictWeak comp) (a b : α) :
    NotAfter comp a b ∨ NotAfter comp b a := by
  unfold NotAfter
  cases hba : comp b a with
  | false => exact Or.inl rfl
  | true => exact Or.inr (h.asymm b a hba)

theorem StrictWeak.notAfter_of_lt {comp : α → α → Bool} (h : StrictWeak comp) {a b : α}
    (hab : comp a b = true) : NotAfter comp a b :=
  h.asymm a b hab

/-- `std::sort` and `std::nth_element`. -/
structure StdAlgorithm where
  sort : ∀ {α : Type}, (α → α → Bool) → List α → List α
  sort_perm : ∀ {α : Type} (comp : α → α → Bool) (l : List α), (sort comp l).Perm l
  sort_sorted : ∀ {α : Type} (comp : α → α → Bool) (l : List α), StrictWeak comp →
    (sort comp l).Pairwise (NotAfter comp)
  nthElement : ∀ {α : Type}, (α → α → Bool) → Nat → List α → List α
  nthElement_perm : ∀ {α : Type} (comp : α → α → Bool) (n : Nat) (l : List α),
    (nthElement comp n l).Perm l
  nthElement_split : ∀ {α : Type} (comp : α → α → Bool) (n : Nat) (l : List α), StrictWeak comp →
    ∀ a ∈ (nthElement comp n l).take n, ∀ b ∈ (nthElement comp n l).drop n, NotAfter comp a b

instance (comp : α → α → Bool) : DecidableRel (NotAfter comp) := fun a b =>
  inferInstanceAs (Decidable (comp b a = false))

theorem pairwise_insertionSort {comp : α → α → Bool} (h : StrictWeak comp) (l : List α) :
    (l.insertionSort (NotAfter comp)).Pairwise (NotAfter comp) := by
  have : Std.Total (NotAfter comp) := ⟨h.notAfter_total⟩
  have : IsTrans α (NotAfter comp) := ⟨fun _ _ _ => h.notAfter_trans⟩
  exact List.pairwise_insertionSort (NotAfter comp) l

/-- Both algorithms by insertion. -/
def StdAlgorithm.insertion : StdAlgorithm where
  sort comp l := l.insertionSort (NotAfter comp)
  sort_perm comp l := List.perm_insertionSort (NotAfter comp) l
  sort_sorted comp l h := pairwise_insertionSort h l
  nthElement comp _ l := l.insertionSort (NotAfter comp)
  nthElement_perm comp _ l := List.perm_insertionSort (NotAfter comp) l
  nthElement_split comp n l h := by
    intro a ha b hb
    have hsorted := pairwise_insertionSort h l
    rw [← List.take_append_drop n (l.insertionSort (NotAfter comp)),
      List.pairwise_append] at hsorted
    exact hsorted.2.2 a ha b hb

/-- `best` lists `k` foremost elements of `all`, all of them when there are fewer, in order. -/
structure IsTopK (r : α → α → Prop) (k : Nat) (all best : List α) : Prop where
  sorted : best.Pairwise r
  length_eq : best.length = min k all.length
  exists_rest : ∃ rest, (best ++ rest).Perm all ∧ ∀ a ∈ best, ∀ b ∈ rest, r a b

section TopK

variable {r : α → α → Prop} {k : Nat} {all best : List α}

/-- Sorting a front part that nothing behind it should precede, and cutting it at `k`. -/
theorem isTopK_take_sorted {front back sorted : List α} (hall : (front ++ back).Perm all)
    (hperm : sorted.Perm front) (hsorted : sorted.Pairwise r)
    (hsplit : ∀ a ∈ front, ∀ b ∈ back, r a b) (hk : back = [] ∨ k ≤ front.length) :
    IsTopK r k all (sorted.take k) := by
  have hlength : all.length = front.length + back.length := by
    rw [← hall.length_eq, List.length_append]
  have hcut : (sorted.take k ++ sorted.drop k).Pairwise r := by
    rw [List.take_append_drop]
    exact hsorted
  rw [List.pairwise_append] at hcut
  refine ⟨hcut.1, ?_, sorted.drop k ++ back, ?_, ?_⟩
  · have hfront := hperm.length_eq
    rw [List.length_take, hlength]
    obtain hback | hfrontk := hk
    · simp [hback, hfront]
    · omega
  · rw [← List.append_assoc, List.take_append_drop]
    exact (hperm.append_right back).trans hall
  · intro a ha b hb
    rw [List.mem_append] at hb
    obtain hb | hb := hb
    · exact hcut.2.2 a ha b hb
    · exact hsplit a (hperm.subset (List.mem_of_mem_take ha)) b hb

theorem IsTopK.subset (h : IsTopK r k all best) : best ⊆ all := by
  obtain ⟨rest, hperm, -⟩ := h.exists_rest
  exact fun a ha => hperm.subset (List.mem_append_left rest ha)

theorem IsTopK.nodup (h : IsTopK r k all best) (hall : all.Nodup) : best.Nodup := by
  obtain ⟨rest, hperm, -⟩ := h.exists_rest
  exact (hperm.nodup_iff.mpr hall).of_append_left

theorem IsTopK.of_perm {all' : List α} (h : IsTopK r k all best) (hperm : all.Perm all') :
    IsTopK r k all' best := by
  obtain ⟨rest, hrest, hsplit⟩ := h.exists_rest
  exact ⟨h.sorted, by rw [h.length_eq, hperm.length_eq], rest, hrest.trans hperm, hsplit⟩

theorem IsTopK.map {r' : β → β → Prop} (h : IsTopK r k all best) (f : α → β)
    (hf : ∀ a ∈ all, ∀ b ∈ all, r a b → r' (f a) (f b)) :
    IsTopK r' k (all.map f) (best.map f) := by
  have hbest := h.subset
  obtain ⟨rest, hperm, hsplit⟩ := h.exists_rest
  have hrest : rest ⊆ all := fun a ha => hperm.subset (List.mem_append_right best ha)
  refine ⟨?_, by simp [h.length_eq], rest.map f, ?_, ?_⟩
  · rw [List.pairwise_map]
    exact h.sorted.imp_of_mem fun ha hb hab => hf _ (hbest ha) _ (hbest hb) hab
  · rw [← List.map_append]
    exact hperm.map f
  · intro a ha b hb
    rw [List.mem_map] at ha hb
    obtain ⟨a, ha, rfl⟩ := ha
    obtain ⟨b, hb, rfl⟩ := hb
    exact hf a (hbest ha) b (hrest hb) (hsplit a ha b hb)

/-- With no two elements equivalent there is only one selection. -/
theorem IsTopK.unique {best' : List α} (h : IsTopK r k all best) (h' : IsTopK r k all best')
    (hall : all.Nodup) (hanti : ∀ a ∈ all, ∀ b ∈ all, r a b → r b a → a = b) :
    best = best' := by
  have hlength : best.length = best'.length := by rw [h.length_eq, h'.length_eq]
  have hsubset : best ⊆ best' := by
    intro a ha
    by_contra hnot
    obtain ⟨rest, hperm, hsplit⟩ := h.exists_rest
    obtain ⟨rest', hperm', hsplit'⟩ := h'.exists_rest
    have harest : a ∈ rest' := by
      have hmem := hperm'.symm.subset (h.subset ha)
      rw [List.mem_append] at hmem
      exact hmem.resolve_left hnot
    -- every element of best' is strictly better than a, so none of them can be left out of best
    have hback : best' ⊆ best := by
      intro b hb
      by_contra hbnot
      have hbrest : b ∈ rest := by
        have hmem := hperm.symm.subset (h'.subset hb)
        rw [List.mem_append] at hmem
        exact hmem.resolve_left hbnot
      have heq : a = b := hanti a (h.subset ha) b (h'.subset hb) (hsplit a ha b hbrest)
        (hsplit' b hb a harest)
      exact hnot (heq ▸ hb)
    have hsub := (h'.nodup hall).subperm hback
    exact hnot ((hsub.perm_of_length_le (le_of_eq hlength)).symm.subset ha)
  have hsub := (h.nodup hall).subperm hsubset
  have hperm := hsub.perm_of_length_le (le_of_eq hlength.symm)
  refine List.Perm.eq_of_pairwise ?_ h.sorted h'.sorted hperm
  intro a b ha hb hab hba
  exact hanti a (h.subset ha) b (h'.subset hb) hab hba

end TopK

section Union

variable {ι : Type} {r : α → α → Prop} {k : Nat}

theorem sum_min_eq (f : ι → Nat) (l : List ι) :
    min k ((l.map fun i => min k (f i)).sum) = min k ((l.map f).sum) := by
  induction l with
  | nil => rfl
  | cons i l ih =>
      simp only [List.map_cons, List.sum_cons]
      omega

theorem exists_rests {l : List ι} {all best : ι → List α}
    (h : ∀ i ∈ l, IsTopK r k (all i) (best i)) :
    ∃ rests, ((l.flatMap best) ++ rests).Perm (l.flatMap all) ∧
      ∀ b ∈ rests, ∃ i ∈ l, k ≤ (best i).length ∧ ∀ a ∈ best i, r a b := by
  induction l with
  | nil => exact ⟨[], List.Perm.refl _, by simp⟩
  | cons i l ih =>
      obtain ⟨rests, hperm, hrests⟩ := ih fun j hj => h j (List.mem_cons_of_mem i hj)
      have hi := h i (by simp)
      obtain ⟨rest, hrest, hsplit⟩ := hi.exists_rest
      refine ⟨rest ++ rests, ?_, ?_⟩
      · simp only [List.flatMap_cons]
        calc best i ++ l.flatMap best ++ (rest ++ rests)
          _ = best i ++ (l.flatMap best ++ rest ++ rests) := by simp
          _ |>.Perm (best i ++ (rest ++ l.flatMap best ++ rests)) :=
              List.Perm.append_left _ (List.Perm.append_right _ List.perm_append_comm)
          _ = (best i ++ rest) ++ (l.flatMap best ++ rests) := by simp
          _ |>.Perm (all i ++ l.flatMap all) := hrest.append hperm
      · intro b hb
        rw [List.mem_append] at hb
        obtain hb | hb := hb
        · refine ⟨i, by simp, ?_, fun a ha => hsplit a ha b hb⟩
          have hpos : 0 < rest.length := List.length_pos_of_mem hb
          have hlength := hrest.length_eq
          have hmin := hi.length_eq
          rw [List.length_append] at hlength
          omega
        · obtain ⟨j, hj, hbest⟩ := hrests b hb
          exact ⟨j, List.mem_cons_of_mem i hj, hbest⟩

/-- The `k` best of the union of the `k` best of several lists are the `k` best of the union of
these lists. -/
theorem isTopK_flatMap {l : List ι} {all best : ι → List α} {top : List α}
    (hrefl : ∀ a, r a a) (htrans : ∀ a b c, r a b → r b c → r a c)
    (h : ∀ i ∈ l, IsTopK r k (all i) (best i)) (htop : IsTopK r k (l.flatMap best) top) :
    IsTopK r k (l.flatMap all) top := by
  classical
  obtain ⟨rests, hrests, hworse⟩ := exists_rests h
  obtain ⟨rest, hperm, hsplit⟩ := htop.exists_rest
  refine ⟨htop.sorted, ?_, rest ++ rests, ?_, ?_⟩
  · have hlengths : (l.map fun i => (best i).length) = l.map fun i => min k (all i).length :=
      List.map_congr_left fun i hi => (h i hi).length_eq
    rw [htop.length_eq, List.length_flatMap, List.length_flatMap, hlengths, sum_min_eq]
  · rw [← List.append_assoc]
    exact (hperm.append_right rests).trans hrests
  · intro a ha b hb
    rw [List.mem_append] at hb
    obtain hb | hb := hb
    · exact hsplit a ha b hb
    · -- b was left out of a list that has k better elements: were a not as good as b, these k
      -- elements would all be better than a and fill the selection without a
      obtain ⟨i, hi, hk, hbetter⟩ := hworse b hb
      by_contra hab
      have hnone : ∀ c ∈ best i, ¬ r a c := fun c hc hac => hab (htrans a c b hac (hbetter c hc))
      have hcountRest : rest.countP (fun c => decide (¬ r a c)) = 0 := by
        rw [List.countP_eq_zero]
        intro c hc
        simpa using hsplit a ha c hc
      have hcountBest : (best i).countP (fun c => decide (¬ r a c)) = (best i).length := by
        rw [List.countP_eq_length]
        intro c hc
        simpa using hnone c hc
      have hcount : (best i).countP (fun c => decide (¬ r a c)) ≤
          (l.flatMap best).countP (fun c => decide (¬ r a c)) := by
        rw [List.flatMap_def]
        exact (List.sublist_flatten_of_mem (List.mem_map_of_mem hi)).countP_le
      have htopCount : top.countP (fun c => decide (¬ r a c)) < top.length := by
        have hle := List.countP_le_length (p := fun c => decide (¬ r a c)) (l := top)
        have hne : top.countP (fun c => decide (¬ r a c)) ≠ top.length := by
          intro heq
          rw [List.countP_eq_length] at heq
          have := heq a ha
          simp [hrefl a] at this
        omega
      have htotal := hperm.countP_eq (fun c => decide (¬ r a c))
      rw [List.countP_append] at htotal
      have htopLength := htop.length_eq
      omega

end Union

/-- `best` lists the `k` elements of a set with the highest scores, all of them when there are
fewer, each one once and in non-increasing order. -/
structure IsKBest {S : Type} [Preorder S] (k : Nat) (score : α → S) (s : Set α) (best : List α) :
    Prop where
  nodup : best.Nodup
  mem : ∀ a ∈ best, a ∈ s
  length_eq : best.length = min k s.ncard
  sorted : best.Pairwise fun a b => score b ≤ score a
  optimal : ∀ a ∈ s, a ∉ best → ∀ b ∈ best, score a ≤ score b

/-- The selection from a list without repetitions is the selection from its set. -/
theorem IsTopK.isKBest {S : Type} [Preorder S] {k : Nat} {score : α → S} {all best : List α}
    {s : Set α} (h : IsTopK (fun a b => score b ≤ score a) k all best) (hall : all.Nodup)
    (hmem : ∀ a, a ∈ all ↔ a ∈ s) (hcard : s.ncard = all.length) : IsKBest k score s best where
  nodup := h.nodup hall
  mem a ha := (hmem a).mp (h.subset ha)
  length_eq := by rw [h.length_eq, hcard]
  sorted := h.sorted
  optimal a ha hnot b hb := by
    obtain ⟨rest, hperm, hsplit⟩ := h.exists_rest
    have hrest := hperm.symm.subset ((hmem a).mpr ha)
    rw [List.mem_append] at hrest
    exact hsplit b hb a (hrest.resolve_left hnot)

end Jumanpp.Lib
