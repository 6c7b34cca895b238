import Jumanpp.Lib.Selection
import Mathlib.Data.List.Basic

/-!
# `util::partition`

`part_step` is one round of Hoare's selection and `partition` repeats it until the split lies
between `minSize` and `maxSize`.  An iterator range is modelled by the list of its elements, an
iterator into it by its offset.
-/

namespace Jumanpp.Util

open Jumanpp.Lib

variable {α : Type}

/-- The `while` loop of `part_step` and the placement of the pivot after it.  `window` are the
elements from `start` to `end` (inclusive), `left` and `right` those already passed by the two
iterators; the result are the elements before and behind the pivot. -/
def partLoop (comp : α → α → Bool) (pivot : α) (left right : List α) :
    List α → List α × List α
  | [] => (left, right)
  | [e] =>
      if comp pivot e then (left, right ++ [e])
      else
        match right with
        | [] => (left ++ [e], [])
        -- the pivot takes the place of the first right element, which goes to the very end
        | r :: right => (left ++ [e], right ++ [r])
  | e :: next :: rest =>
      if comp e pivot then partLoop comp pivot (left ++ [e]) right (next :: rest)
      else
        partLoop comp pivot left (e :: right)
          ((next :: rest).getLast (by simp) :: (next :: rest).dropLast)
termination_by window => window.length

def swapIf (comp : α → α → Bool) (a b : α) : α × α :=
  if comp b a then (b, a) else (a, b)

/-- The elements after the step and the offset of the returned iterator. -/
def partStep (comp : α → α → Bool) : List α → Option (List α × Nat)
  | [] => none
  | [a] => some ([a], 1)
  | [a, b] =>
      let (a, b) := swapIf comp a b
      some ([a, b], 1)
  | [a, b, c] =>
      let (a, b) := swapIf comp a b
      let (b, c) := swapIf comp b c
      let (a, b) := swapIf comp a b
      some ([a, b, c], 1)
  | a :: b :: c :: d :: rest =>
      let seg := a :: b :: c :: d :: rest
      let pivot := seg.getD (seg.length / 2) a
      let window := (seg.set (seg.length / 2) (seg.getLast (by simp [seg]))).dropLast
      let (front, back) := partLoop comp pivot [] [] window
      some (front ++ pivot :: back, front.length)

/-- The `while (true)` loop of `partition`; no fuel left stands for a loop that goes on. -/
def partitionLoop (comp : α → α → Bool) :
    Nat → List α → List α → List α → Nat → Nat → Option (List α × Nat)
  | 0, _, _, _, _, _ => none
  | fuel + 1, front, seg, back, minSize, maxSize =>
      match partStep comp seg with
      | none => none
      | some (seg, sz) =>
          if minSize ≤ sz ∧ sz ≤ maxSize then some (front ++ seg ++ back, front.length + sz)
          else if maxSize < sz then
            partitionLoop comp fuel front (seg.take sz) (seg.drop sz ++ back) minSize maxSize
          else
            let front := front ++ seg.take (sz + 1)
            if minSize - (sz + 1) = 0 then some (front ++ seg.drop (sz + 1) ++ back, front.length)
            else
              partitionLoop comp fuel front (seg.drop (sz + 1)) back (minSize - (sz + 1))
                (maxSize - (sz + 1))

/-- `none` where an assertion of the code fails. -/
def partition (comp : α → α → Bool) (l : List α) (minSize maxSize : Nat) :
    Option (List α × Nat) :=
  if minSize ≤ l.length ∧ minSize ≤ maxSize ∧ maxSize ≤ l.length then
    partitionLoop comp (l.length + 1) [] l [] minSize maxSize
  else none

theorem getLast_cons_dropLast_perm (l : List α) (h : l ≠ []) :
    (l.getLast h :: l.dropLast).Perm l := by
  calc (l.getLast h :: l.dropLast).Perm (l.dropLast ++ [l.getLast h]) :=
        (List.perm_append_singleton _ _).symm
    _ = l := List.dropLast_append_getLast h

theorem partLoop_perm (comp : α → α → Bool) (pivot : α) (left right window : List α) :
    ((partLoop comp pivot left right window).1 ++ (partLoop comp pivot left right window).2).Perm
      (left ++ (window ++ right)) := by
  fun_induction partLoop comp pivot left right window with
  | case1 left right => simp
  | case2 left right e he =>
      exact List.Perm.append_left _ (List.perm_append_singleton _ _)
  | case3 left e he => simp
  | case4 left e he r right =>
      simp only [List.append_assoc]
      refine List.Perm.append_left _ (List.Perm.append_left _ ?_)
      exact List.perm_append_singleton _ _
  | case5 left right e next rest he ih => simpa using ih
  | case6 left right e next rest he ih =>
      refine ih.trans (List.Perm.append_left _ ?_)
      have hwindow := getLast_cons_dropLast_perm (next :: rest) (by simp)
      exact (hwindow.append_right (e :: right)).trans List.perm_middle

/-- Elements before the pivot may stay before it, and those behind may stay behind. -/
theorem partLoop_split {comp : α → α → Bool} (h : StrictWeak comp) (pivot : α)
    (left right window : List α) (hwindow : window ≠ [])
    (hleft : ∀ a ∈ left, NotAfter comp a pivot) (hright : ∀ b ∈ right, NotAfter comp pivot b) :
    (∀ a ∈ (partLoop comp pivot left right window).1, NotAfter comp a pivot) ∧
      ∀ b ∈ (partLoop comp pivot left right window).2, NotAfter comp pivot b := by
  fun_induction partLoop comp pivot left right window with
  | case1 left right => exact absurd rfl hwindow
  | case2 left right e he =>
      refine ⟨hleft, fun b hb => ?_⟩
      obtain hb | rfl := by simpa using hb
      · exact hright b hb
      · exact h.notAfter_of_lt he
  | case3 left e he =>
      refine ⟨fun a ha => ?_, by simp⟩
      obtain ha | rfl := by simpa using ha
      · exact hleft a ha
      · simpa [NotAfter] using he
  | case4 left e he r right =>
      refine ⟨fun a ha => ?_, fun b hb => hright b ?_⟩
      · obtain ha | rfl := by simpa using ha
        · exact hleft a ha
        · simpa [NotAfter] using he
      · simpa [or_comm] using hb
  | case5 left right e next rest he ih =>
      refine ih (by simp) (fun a ha => ?_) hright
      obtain ha | rfl := by simpa using ha
      · exact hleft a ha
      · exact h.notAfter_of_lt he
  | case6 left right e next rest he ih =>
      refine ih (by simp) hleft fun b hb => ?_
      obtain rfl | hb := by simpa using hb
      · simpa [NotAfter] using he
      · exact hright b hb

/-- Taking out the pivot: the last element moves to its place. -/
theorem getD_cons_set_dropLast_perm (seg : List α) (i : Nat) (a : α) (hi : i + 1 < seg.length)
    (hne : seg ≠ []) :
    (seg.getD i a :: (seg.set i (seg.getLast hne)).dropLast).Perm seg := by
  obtain ⟨front, pivot, tail, rfl, rfl⟩ : ∃ front pivot tail,
      seg = front ++ pivot :: tail ∧ i = front.length :=
    ⟨seg.take i, seg[i], seg.drop (i + 1), by simp, by simp; omega⟩
  have htail : tail ≠ [] := by
    rintro rfl
    simp at hi
  obtain ⟨middle, last, rfl⟩ := List.eq_nil_or_concat' tail |>.resolve_left htail
  have hlast : (front ++ pivot :: (middle ++ [last])).getLast hne = last := by
    simp
  have hpivot : (front ++ pivot :: (middle ++ [last])).getD front.length a = pivot := by
    simp
  have hset : ((front ++ pivot :: (middle ++ [last])).set front.length last).dropLast =
      front ++ last :: middle := by
    rw [List.set_append_right _ _ (le_refl _), Nat.sub_self, List.set_cons_zero,
      ← List.cons_append, ← List.append_assoc, List.dropLast_concat]
  rw [hlast, hpivot, hset]
  calc (pivot :: (front ++ last :: middle)).Perm (front ++ pivot :: last :: middle) :=
        List.perm_middle.symm
    _ = front ++ ([pivot] ++ (last :: middle)) := rfl
    List.Perm _ (front ++ ([pivot] ++ (middle ++ [last]))) :=
        List.Perm.append_left _ (List.Perm.append_left _ (List.perm_append_singleton _ _).symm)

theorem swapIf_spec {comp : α → α → Bool} (h : StrictWeak comp) (a b : α) :
    ∃ x y, swapIf comp a b = (x, y) ∧ [x, y].Perm [a, b] ∧ NotAfter comp x y ∧
      NotAfter comp a y ∧ NotAfter comp b y := by
  unfold swapIf
  by_cases hba : comp b a = true
  · rw [if_pos hba]
    exact ⟨b, a, rfl, List.Perm.swap _ _ _, h.notAfter_of_lt hba, h.notAfter_refl a,
      h.notAfter_of_lt hba⟩
  · rw [if_neg hba]
    have hab : NotAfter comp a b := by simpa [NotAfter] using hba
    exact ⟨a, b, rfl, List.Perm.refl _, hab, hab, h.notAfter_refl b⟩

/-- One step splits a range of two or more elements around an element of it. -/
theorem partStep_spec {comp : α → α → Bool} (h : StrictWeak comp) (seg : List α)
    (hlength : 2 ≤ seg.length) :
    ∃ front pivot back, partStep comp seg = some (front ++ pivot :: back, front.length) ∧
      (front ++ pivot :: back).Perm seg ∧ (∀ a ∈ front, NotAfter comp a pivot) ∧
      ∀ b ∈ back, NotAfter comp pivot b := by
  match seg, hlength with
  | [a, b], _ =>
      obtain ⟨x, y, hswap, hperm, hxy, -, -⟩ := swapIf_spec h a b
      refine ⟨[x], y, [], ?_, hperm, by simpa using hxy, by simp⟩
      simp [partStep, hswap]
  | [a, b, c], _ =>
      -- the second comparison moves the last of the three to the end, the third one orders the rest
      obtain ⟨a₁, b₁, hswap₁, hperm₁, hab₁, -, -⟩ := swapIf_spec h a b
      obtain ⟨b₂, c₂, hswap₂, hperm₂, hbc₂, hb₁c₂, -⟩ := swapIf_spec h b₁ c
      obtain ⟨a₃, b₃, hswap₃, hperm₃, hab₃, -, -⟩ := swapIf_spec h a₁ b₂
      have ha₁c₂ : NotAfter comp a₁ c₂ := h.notAfter_trans hab₁ hb₁c₂
      have hb₃c₂ : NotAfter comp b₃ c₂ := by
        have hmem : b₃ ∈ [a₁, b₂] := hperm₃.subset (by simp)
        obtain rfl | rfl := by simpa using hmem
        · exact ha₁c₂
        · exact hbc₂
      refine ⟨[a₃], b₃, [c₂], ?_, ?_, by simpa using hab₃, by simpa using hb₃c₂⟩
      · simp [partStep, hswap₁, hswap₂, hswap₃]
      · calc [a₃, b₃, c₂].Perm [a₁, b₂, c₂] := hperm₃.append_right [c₂]
          List.Perm _ [a₁, b₁, c] := hperm₂.cons a₁
          List.Perm _ [a, b, c] := hperm₁.append_right [c]
  | a :: b :: c :: d :: rest, _ =>
      let seg := a :: b :: c :: d :: rest
      have hi : seg.length / 2 + 1 < seg.length := by
        simp only [seg, List.length_cons]
        omega
      let pivot := seg.getD (seg.length / 2) a
      let window := (seg.set (seg.length / 2) (seg.getLast (by simp [seg]))).dropLast
      have hwindow : window ≠ [] := by
        rw [← List.length_pos_iff, List.length_dropLast, List.length_set]
        omega
      refine ⟨(partLoop comp pivot [] [] window).1, pivot, (partLoop comp pivot [] [] window).2,
        rfl, ?_, partLoop_split h pivot [] [] window hwindow (by simp) (by simp)⟩
      have hloop := partLoop_perm comp pivot [] [] window
      rw [List.append_nil, List.nil_append] at hloop
      exact (List.perm_middle.trans (hloop.cons pivot)).trans
        (getD_cons_set_dropLast_perm seg _ a hi (by simp [seg]))

/-- Nothing in the first list has to stand after anything in the second one. -/
def Splits (comp : α → α → Bool) (front back : List α) : Prop :=
  ∀ a ∈ front, ∀ b ∈ back, NotAfter comp a b

theorem Splits.of_perm {comp : α → α → Bool} {front front' back back' : List α}
    (h : Splits comp front back) (hfront : front'.Perm front) (hback : back'.Perm back) :
    Splits comp front' back' :=
  fun a ha b hb => h a (hfront.subset ha) b (hback.subset hb)

theorem splits_append_left {comp : α → α → Bool} {front₁ front₂ back : List α} :
    Splits comp (front₁ ++ front₂) back ↔ Splits comp front₁ back ∧ Splits comp front₂ back := by
  simp [Splits, or_imp, forall_and]

theorem splits_append_right {comp : α → α → Bool} {front back₁ back₂ : List α} :
    Splits comp front (back₁ ++ back₂) ↔ Splits comp front back₁ ∧ Splits comp front back₂ := by
  simp [Splits, or_imp, forall_and]

/-- The loop keeps the elements before and behind the current range split from it, and the wanted
offset inside of it. -/
theorem partitionLoop_spec {comp : α → α → Bool} (h : StrictWeak comp) (fuel : Nat)
    (front seg back : List α) (minSize maxSize : Nat) (hfuel : seg.length < fuel)
    (hmin : 0 < minSize) (hmax : minSize ≤ maxSize) (hsize : maxSize ≤ seg.length)
    (hfront : Splits comp front (seg ++ back)) (hback : Splits comp seg back) :
    ∃ front' back', partitionLoop comp fuel front seg back minSize maxSize =
        some (front' ++ back', front'.length) ∧
      (front' ++ back').Perm (front ++ seg ++ back) ∧ front.length + minSize ≤ front'.length ∧
      front'.length ≤ front.length + maxSize ∧ Splits comp front' back' := by
  induction fuel generalizing front seg back minSize maxSize with
  | zero => omega
  | succ fuel ih =>
      match seg, hsize with
      | [], hsize => simp at hsize; omega
      | [a], hsize =>
          have hone : minSize = 1 ∧ maxSize = 1 := by simp at hsize; omega
          obtain ⟨rfl, rfl⟩ := hone
          refine ⟨front ++ [a], back, ?_, List.Perm.refl _, by simp, by simp, ?_⟩
          · simp [partitionLoop, partStep]
          · intro x hx y hy
            rw [List.mem_append] at hx
            obtain hx | hx := hx
            · exact hfront x hx y (List.mem_append_right _ hy)
            · exact hback x hx y hy
      | a₀ :: a₁ :: rest, hsize =>
          obtain ⟨f, pivot, b, hstep, hperm, hf, hb⟩ :=
            partStep_spec h (a₀ :: a₁ :: rest) (by simp)
          have hlength := hperm.length_eq
          rw [List.length_append, List.length_cons] at hlength
          have hfp : Splits comp f [pivot] := by simpa [Splits] using hf
          have hpb : Splits comp [pivot] b := by simpa [Splits] using hb
          have hfb : Splits comp f b := fun x hx y hy => h.notAfter_trans (hf x hx) (hb y hy)
          have hsegBack : Splits comp (f ++ ([pivot] ++ b)) back :=
            hback.of_perm hperm (List.Perm.refl back)
          have hfrontSeg : Splits comp front ((f ++ ([pivot] ++ b)) ++ back) :=
            hfront.of_perm (List.Perm.refl front) (hperm.append_right back)
          simp only [splits_append_left, splits_append_right] at hsegBack hfrontSeg
          have hwhole : (front ++ (f ++ pivot :: b) ++ back).Perm
              (front ++ (a₀ :: a₁ :: rest) ++ back) :=
            (hperm.append_left front).append_right back
          unfold partitionLoop
          simp only [hstep]
          split_ifs with hin hlarge hzero
          · refine ⟨front ++ f, pivot :: b ++ back, by simp, by simpa using hwhole, ?_, ?_, ?_⟩
            · rw [List.length_append]; omega
            · rw [List.length_append]; omega
            · change Splits comp (front ++ f) (([pivot] ++ b) ++ back)
              simp only [splits_append_left, splits_append_right]
              tauto
          · -- the wanted offset lies in the part before the pivot
            have htake : (f ++ pivot :: b).take f.length = f := by simp
            have hdrop : (f ++ pivot :: b).drop f.length = pivot :: b := by simp
            rw [htake, hdrop]
            obtain ⟨front', back', hloop, hperm', hlow, hhigh, hsplit⟩ :=
              ih front f (pivot :: b ++ back) minSize maxSize (by omega) hmin hmax (by omega)
                (by
                  change Splits comp front (f ++ (([pivot] ++ b) ++ back))
                  simp only [splits_append_right]
                  tauto)
                (by
                  change Splits comp f (([pivot] ++ b) ++ back)
                  simp only [splits_append_right]
                  tauto)
            exact ⟨front', back', hloop, hperm'.trans (by simpa using hwhole), hlow, hhigh, hsplit⟩
          all_goals
            -- the wanted offset lies behind the pivot
            have htake : (f ++ pivot :: b).take (f.length + 1) = f ++ [pivot] := by
              simp [List.take_append, List.take_of_length_le]
            have hdrop : (f ++ pivot :: b).drop (f.length + 1) = b := by
              simp [List.drop_append]
            have hfrontLength : (front ++ (f ++ [pivot])).length = front.length + f.length + 1 := by
              simp only [List.length_append, List.length_singleton]
              omega
            rw [htake, hdrop]
          · refine ⟨front ++ (f ++ [pivot]), b ++ back, by simp, by simpa using hwhole, ?_, ?_, ?_⟩
            · omega
            · omega
            · simp only [splits_append_left, splits_append_right]
              tauto
          · obtain ⟨front', back', hloop, hperm', hlow, hhigh, hsplit⟩ :=
              ih (front ++ (f ++ [pivot])) b back (minSize - (f.length + 1))
                (maxSize - (f.length + 1)) (by omega) (by omega) (by omega) (by omega)
                (by simp only [splits_append_left, splits_append_right]; tauto)
                (by tauto)
            exact ⟨front', back', hloop, hperm'.trans (by simpa using hwhole), by omega, by omega,
              hsplit⟩

/-- `partition` moves some number of foremost elements, between `minSize` and `maxSize`, before the
returned iterator. -/
theorem partition_spec {comp : α → α → Bool} (h : StrictWeak comp) (l : List α)
    (minSize maxSize : Nat) (hmin : 0 < minSize) (hmax : minSize ≤ maxSize)
    (hsize : maxSize ≤ l.length) :
    ∃ front back, partition comp l minSize maxSize = some (front ++ back, front.length) ∧
      (front ++ back).Perm l ∧ minSize ≤ front.length ∧ front.length ≤ maxSize ∧
      Splits comp front back := by
  obtain ⟨front, back, hloop, hperm, hlow, hhigh, hsplit⟩ :=
    partitionLoop_spec h (l.length + 1) [] l [] minSize maxSize (by omega) hmin hmax hsize
      (by simp [Splits]) (by simp [Splits])
  refine ⟨front, back, ?_, by simpa using hperm, by simpa using hlow, by simpa using hhigh, hsplit⟩
  unfold partition
  rw [if_pos ⟨by omega, hmax, hsize⟩]
  exact hloop

/-- The elements come back rearranged, and none behind the split has to stand before one in front
of it. -/
theorem partition_selects {comp : α → α → Bool} (h : StrictWeak comp) (l : List α)
    (minSize maxSize : Nat) (hmin : 1 ≤ minSize) (hmax : minSize ≤ maxSize)
    (hsize : maxSize ≤ l.length) :
    ∃ l' k, partition comp l minSize maxSize = some (l', k) ∧ l'.Perm l ∧
      minSize ≤ k ∧ k ≤ maxSize ∧ ∀ a ∈ l'.take k, ∀ b ∈ l'.drop k, comp b a = false := by
  obtain ⟨front, back, hpart, hperm, hlow, hhigh, hsplit⟩ :=
    partition_spec h l minSize maxSize hmin hmax hsize
  refine ⟨front ++ back, front.length, hpart, hperm, hlow, hhigh, ?_⟩
  rw [List.take_left, List.drop_left]
  exact hsplit

theorem strictWeak_lt : StrictWeak fun a b : Nat => decide (a < b) where
  asymm a b hab := by simp at *; omega
  negTrans a b c hab hbc := by simp at *; omega

theorem partition_selects_repeated :
    ∃ l' k, partition (fun a b : Nat => decide (a < b)) [2, 1, 2, 1, 2] 2 3 = some (l', k) ∧
      l'.Perm [2, 1, 2, 1, 2] ∧ 2 ≤ k ∧ k ≤ 3 ∧
      ∀ a ∈ l'.take k, ∀ b ∈ l'.drop k, decide (b < a) = false :=
  partition_selects strictWeak_lt [2, 1, 2, 1, 2] 2 3 (by decide) (by decide) (by decide)

end Jumanpp.Util
