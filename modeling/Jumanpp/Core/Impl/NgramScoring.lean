import Jumanpp.Core.Impl.NgramPartialKernels
import Mathlib.Tactic.Ring

/-!
# What the scoring loops compute

Every way to score n-grams gives each row the sum of the weights of its features.
-/

namespace Jumanpp.Core.Features

open Jumanpp.Lib Jumanpp.Core.Analysis

namespace WeightBuffer

variable (weights : WeightBuffer)

theorem size_pos : 0 < weights.size := by
  unfold size
  rw [weights.size_eq]
  exact Nat.two_pow_pos _

theorem mask_toNat_le : weights.mask.toNat ≤ weights.size - 1 := by
  unfold mask
  rw [UInt32.toNat_ofNat']
  exact Nat.mod_le _ _

/-- The read of `i` stays inside. -/
def InRange (i : UInt32) : Prop :=
  i.toNat < weights.size

theorem inRange_and_mask (i : UInt32) : weights.InRange (i &&& weights.mask) := by
  have hpos := weights.size_pos
  have hle := weights.mask_toNat_le
  have hand : (i &&& weights.mask).toNat ≤ weights.mask.toNat := by
    rw [UInt32.toNat_and]
    exact Nat.and_le_right
  unfold InRange
  omega

theorem inRange_masked (hasher : Hasher) : weights.InRange (hasher.masked weights.mask) :=
  weights.inRange_and_mask _

theorem inRange_zero : weights.InRange 0 :=
  weights.size_pos

theorem at_of_inRange {i : UInt32} (h : weights.InRange i) :
    weights.at i = some (weights.value i) := by
  unfold InRange size at h
  unfold «at» value
  rw [List.getElem?_eq_getElem h, List.getD_eq_getElem _ _ h]

theorem inRange_of_at {i : UInt32} {score : Score} (h : weights.at i = some score) :
    weights.InRange i := by
  unfold «at» at h
  rw [List.getElem?_eq_some_iff] at h
  exact h.1

end WeightBuffer

theorem computeUnrolled4_eq {weightAt : UInt32 → Option Score} {value : UInt32 → Score}
    {indices : List UInt32} (h : ∀ i ∈ indices, weightAt i = some (value i))
    (r1 r2 r3 r4 : Score) :
    computeUnrolled4 weightAt indices r1 r2 r3 r4 =
      some (r1 + r2 + r3 + r4 + (indices.map value).sum) := by
  fun_induction computeUnrolled4 weightAt indices r1 r2 r3 r4 with
  | case1 i0 i1 i2 i3 indices r1 r2 r3 r4 ih =>
      simp only [h i0 (by simp), h i1 (by simp), h i2 (by simp), h i3 (by simp),
        Option.bind_eq_bind, Option.bind_some]
      rw [ih _ _ _ _ fun i hi => h i (by simp [hi])]
      simp only [List.map_cons, List.sum_cons]
      congr 1
      ring
  | case2 i0 i1 i2 r1 r2 r3 r4 =>
      simp only [h i0 (by simp), h i1 (by simp), h i2 (by simp), Option.bind_eq_bind,
        Option.bind_some, Option.pure_def, List.map_cons, List.map_nil, List.sum_cons,
        List.sum_nil]
      congr 1
      ring
  | case3 i0 i1 r1 r2 r3 r4 =>
      simp only [h i0 (by simp), h i1 (by simp), Option.bind_eq_bind, Option.bind_some,
        Option.pure_def, List.map_cons, List.map_nil, List.sum_cons, List.sum_nil]
      congr 1
      ring
  | case4 i0 r1 r2 r3 r4 =>
      simp only [h i0 (by simp), Option.bind_eq_bind, Option.bind_some, Option.pure_def,
        List.map_cons, List.map_nil, List.sum_cons, List.sum_nil]
      congr 1
      ring
  | case5 r1 r2 r3 r4 => simp

theorem computeUnrolled4Perceptron_eq (weights : WeightBuffer) (indices : List UInt32) :
    computeUnrolled4Perceptron weights indices weights.mask =
      some (indices.map fun i => weights.value (i &&& weights.mask)).sum := by
  unfold computeUnrolled4Perceptron
  rw [computeUnrolled4_eq fun i _ => weights.at_of_inRange (weights.inRange_and_mask i)]
  simp only [add_zero, zero_add]

theorem computeUnrolled4RawPerceptron_eq {weights : WeightBuffer} {indices : List UInt32}
    (h : ∀ i ∈ indices, weights.InRange i) :
    computeUnrolled4RawPerceptron weights indices = some (indices.map weights.value).sum := by
  unfold computeUnrolled4RawPerceptron
  rw [computeUnrolled4_eq fun i hi => weights.at_of_inRange (h i hi)]
  simp

/-! ## The values of the features -/

/-- The value that a list of features gives to its `i`-th slot. -/
def slotValue {F α : Type} [Zero α] (features : List F) (value : F → α) (i : Nat) : α :=
  (features[i]?.map value).getD 0

theorem slotValue_getElem {F α : Type} [Zero α] {features : List F} (value : F → α) {i : Nat}
    (hi : i < features.length) : slotValue features value i = value features[i] := by
  simp [slotValue, hi]

theorem map_slotValue {F α : Type} [Zero α] (features : List F) (value : F → α) :
    (List.range features.length).map (slotValue features value) = features.map value := by
  apply List.ext_getElem
  · simp
  · intro i hi _
    rw [List.length_map, List.length_range] at hi
    simp [slotValue_getElem value hi]

/-- The sum of the weights of a row. -/
def rowScore (weights : WeightBuffer) (n : Nat) (v : Nat → UInt32) : Score :=
  ((List.range n).map fun i => weights.value (v i)).sum

theorem rowScore_slotValue {F : Type} (weights : WeightBuffer) (features : List F)
    (value : F → UInt32) :
    rowScore weights features.length (slotValue features value) =
      (features.map fun f => weights.value (value f)).sum := by
  have hmap := congrArg (List.map weights.value) (map_slotValue features value)
  rw [List.map_map, List.map_map] at hmap
  exact congrArg List.sum hmap

/-- The scores that the n-grams of a spec give to the patterns of nodes. -/
def PartialNgramFeatures.scorer (child : PartialNgramFeatures) (weights : WeightBuffer) :
    FeatureScorer PatternRow where
  uni t0 := (child.unigrams.map fun f => weights.value (f.value t0 weights.mask)).sum
  bi t0 t1 := (child.bigrams.map fun f => weights.value (f.jointRaw t0 t1 weights.mask)).sum
  tri t0 t1 t2 :=
    (child.trigrams.map fun f => weights.value (f.jointRaw t0 t1 t2 weights.mask)).sum

/-! ## The pipelined loop -/

/-- A step of a loop over rows fills the slots of its features and nothing else. -/
def FillsRow {α : Type} (n : Nat) (v : Nat → α) (step : List α → Option (List α)) : Prop :=
  ∀ buf, n ≤ buf.length → step buf = some (overwrite (fun i _ => v i) n buf)

/-- A turn of a pipelined loop: `buf1` is filled with the current row, and the row in `buf2` is
published. -/
def PublishesTurn (weights : WeightBuffer) (n : Nat) (v : Nat → Nat → UInt32)
    (publish : Score → Score → Score)
    (turn : Nat → RowState → Option RowState) (row : Nat) : Prop :=
  ∀ values swapped result, (∀ b, n ≤ (values b).length) →
    (values (!swapped)).take n = (List.range n).map (v (row - 1)) →
      turn row (values, swapped, result) =
        (updateAt result ((row : Int) - 1) (publish (rowScore weights n (v (row - 1))))).bind
          fun result => some (Function.update values swapped
            (overwrite (fun i _ => v row i) n (values swapped)), !swapped, result)

theorem length_update {values : ValueBuffers} {b : Bool} {buf : List UInt32}
    (h : buf.length = (values b).length) (b' : Bool) :
    (Function.update values b buf b').length = (values b').length := by
  by_cases hb : b' = b
  · subst hb
    simpa using h
  · rw [Function.update_of_ne hb]

theorem update_not (values : ValueBuffers) (b : Bool) (buf : List UInt32) :
    Function.update values b buf (!b) = values (!b) :=
  Function.update_of_ne (by cases b <;> simp) _ _

theorem rawPerceptron_row {weights : WeightBuffer} {n : Nat} {v : Nat → UInt32}
    {buf : List UInt32} (hbuf : buf.take n = (List.range n).map v)
    (hv : ∀ i, weights.InRange (v i)) :
    computeUnrolled4RawPerceptron weights (buf.take n) = some (rowScore weights n v) := by
  rw [hbuf, computeUnrolled4RawPerceptron_eq (by simpa using fun i _ => hv i), List.map_map]
  rfl

/-- The invariant: `buf2` holds the values of the row before, which is not published yet. -/
theorem pipelined_loop {weights : WeightBuffer} {n m : Nat} {publish : Score → Score → Score}
    {turn : Nat → RowState → Option RowState} {values : ValueBuffers} {result : List Score}
    {v : Nat → Nat → UInt32} (hm : 0 < m) (hvalues : ∀ b, n ≤ (values b).length)
    (hresult : m ≤ result.length) (hv : ∀ row i, weights.InRange (v row i))
    (hturn : ∀ row, 1 ≤ row → row < m → PublishesTurn weights n v publish turn row) :
    ∃ values',
      (forRange turn 1 (m - 1) (Function.update values true
          (overwrite (fun i _ => v 0 i) n (values true)), false, result)).bind
          (finishRows weights n m publish) =
        some (values', overwrite (fun row x => publish (rowScore weights n (v row)) x) m result) ∧
      ∀ b, (values' b).length = (values b).length := by
  let published := fun row x => publish (rowScore weights n (v row)) x
  let P : Nat → RowState → Prop := fun row s =>
    (∀ b, (s.1 b).length = (values b).length) ∧
      (s.1 (!s.2.1)).take n = (List.range n).map (v (row - 1)) ∧
      s.2.2 = overwrite published (row - 1) result
  have hstart : P 1 (Function.update values true (overwrite (fun i _ => v 0 i) n (values true)),
      false, result) := by
    refine ⟨length_update (by simp), ?_, by simp⟩
    exact take_overwrite (hvalues true)
  have hstep : ∀ row s, 1 ≤ row → row < 1 + (m - 1) → P row s →
      ∃ s', turn row s = some s' ∧ P (row + 1) s' := by
    rintro row ⟨vals, swapped, res⟩ hlow hhigh ⟨hlen, hbuf2, rfl⟩
    have hvals : ∀ b, n ≤ (vals b).length := by
      intro b
      rw [hlen]
      exact hvalues b
    refine ⟨(Function.update vals swapped (overwrite (fun i _ => v row i) n (vals swapped)),
      !swapped, overwrite published row result), ?_, ?_, ?_, rfl⟩
    · rw [hturn row hlow (by omega) vals swapped _ hvals hbuf2]
      change (updateAt _ _ (published (row - 1))).bind _ = _
      rw [updateAt_overwrite_pred published hlow (by omega)]
      rfl
    · intro b
      rw [length_update (by simp), hlen]
    · show (Function.update vals swapped _ (!!swapped)).take n = _
      rw [Bool.not_not, Function.update_self, take_overwrite (hvals swapped)]
      rfl
  obtain ⟨⟨vals, swapped, res⟩, hloop, hlen, hbuf2, hres⟩ := forRange_invariant _ _ _ P hstart hstep
  have hend : 1 + (m - 1) - 1 = m - 1 := by omega
  simp only [hend] at hbuf2 hres
  refine ⟨vals, ?_, hlen⟩
  rw [hloop, Option.bind_some, hres]
  unfold finishRows
  simp only [rawPerceptron_row hbuf2 (hv _), Option.bind_eq_bind, Option.bind_some]
  change (updateAt _ _ (published (m - 1))).bind _ = _
  rw [updateAt_overwrite_pred published hm hresult]
  rfl

theorem scoreTurn_publishes {weights : WeightBuffer} {n : Nat}
    {step : Nat → List UInt32 → Option (List UInt32)} (publish : Score → Score → Score)
    {v : Nat → Nat → UInt32} {row : Nat} (hstep : FillsRow n (v row) (step row))
    (hv : ∀ row i, weights.InRange (v row i)) :
    PublishesTurn weights n v publish (scoreTurn weights n step publish) row := by
  intro values swapped result hvalues hbuf2
  unfold scoreTurn
  simp only [hstep _ (hvalues swapped), update_not, rawPerceptron_row hbuf2 (hv _),
    Option.bind_eq_bind, Option.bind_some, Option.pure_def]

theorem scoreRows_spec (weights : WeightBuffer) {n m : Nat}
    {step : Nat → List UInt32 → Option (List UInt32)} (publish : Score → Score → Score)
    {values : ValueBuffers} {result : List Score} {v : Nat → Nat → UInt32} (hm : 0 < m)
    (hvalues : ∀ b, n ≤ (values b).length) (hresult : m ≤ result.length)
    (hstep : ∀ row, row < m → FillsRow n (v row) (step row))
    (hv : ∀ row i, weights.InRange (v row i)) :
    ∃ values', scoreRows weights n m step publish values result =
        some (values', overwrite (fun row x => publish (rowScore weights n (v row)) x) m result) ∧
      ∀ b, (values' b).length = (values b).length := by
  unfold scoreRows
  rw [hstep 0 hm _ (hvalues true)]
  apply pipelined_loop hm hvalues hresult hv
  intro row _ hrow
  exact scoreTurn_publishes publish (hstep row hrow) hv

/-! ## The unrolled loop -/

theorem sum_modify {l : List Score} {j : Nat} (hj : j < l.length) (w : Score) :
    (l.modify j (· + w)).sum = l.sum + w := by
  induction l generalizing j with
  | nil => simp at hj
  | cons x l ih =>
      cases j with
      | zero =>
          rw [List.modify_zero_cons, List.sum_cons, List.sum_cons]
          ring
      | succ j =>
          rw [List.modify_succ_cons, List.sum_cons, List.sum_cons, ih (by simpa using hj)]
          ring

theorem numVars_pos (size : Nat) : 0 < numVars size := by
  unfold numVars
  split_ifs <;> omega

/-- The weights of the slots of `buf2`. -/
def Weighs (weights : WeightBuffer) (n : Nat) (buf2 : List UInt32) (w : Nat → Score) : Prop :=
  ∀ i, i < n → (readAt buf2 (i : Int)).bind weights.at = some (w i)

theorem weighs_row {weights : WeightBuffer} {n : Nat} {v : Nat → UInt32} {buf : List UInt32}
    (hbuf : buf.take n = (List.range n).map v) (hv : ∀ i, weights.InRange (v i)) :
    Weighs weights n buf fun i => weights.value (v i) := by
  intro i hi
  have hread : buf[i]? = some (v i) := by
    rw [← List.getElem?_take_of_lt hi, hbuf]
    simp [hi]
  rw [readAt_natCast, hread, Option.bind_some, weights.at_of_inRange (hv i)]

theorem unrolledRow_eq {weights : WeightBuffer} {n : Nat}
    {step : Nat → List UInt32 → Option (List UInt32)} {v : Nat → UInt32} {w : Nat → Score}
    {buf1 buf2 : List UInt32} (hbuf1 : n ≤ buf1.length) (hw : Weighs weights n buf2 w)
    (hstep : ∀ i, i < n → ∀ buf, step i buf = writeAt buf i (v i)) :
    ∃ f, unrolledRow weights n step buf1 buf2 = some (overwrite (fun i _ => v i) n buf1, f) ∧
      f.sum = ((List.range n).map w).sum := by
  let P : Nat → List UInt32 × List Score → Prop := fun i s =>
    s.1 = overwrite (fun i _ => v i) i buf1 ∧ s.2.length = numVars n ∧
      s.2.sum = ((List.range i).map w).sum
  have hstart : P 0 (buf1, List.replicate (numVars n) 0) := ⟨by simp, by simp, by simp⟩
  have hrow := forRange_invariant (fun i (s : List UInt32 × List Score) => do
      let w ← (readAt buf2 (i : Int)).bind weights.at
      let buf1 ← step i s.1
      pure (buf1, s.2.modify (i % numVars n) (· + w))) 0 n P hstart (by
    rintro i ⟨buf, f⟩ _ hi ⟨rfl, hlen, hsum⟩
    rw [Nat.zero_add] at hi
    refine ⟨(overwrite (fun i _ => v i) (i + 1) buf1, f.modify (i % numVars n) (· + w i)), ?_, rfl,
      (List.length_modify _ _ _).trans hlen, ?_⟩
    · simp only [hw i hi, hstep i hi, writeAt_overwrite v (show i < buf1.length by omega),
        Option.bind_eq_bind, Option.bind_some, Option.pure_def]
    · have hj : i % numVars n < f.length := by
        rw [hlen]
        exact Nat.mod_lt _ (numVars_pos n)
      rw [sum_modify hj, hsum, List.range_succ, List.map_append, List.sum_append]
      simp)
  obtain ⟨⟨buf, f⟩, hloop, hbuf, _, hsum⟩ := hrow
  rw [Nat.zero_add] at hbuf hsum
  exact ⟨f, by rw [← hbuf]; exact hloop, hsum⟩

theorem scoreRowsUnrolled_spec {weights : WeightBuffer} {n m : Nat}
    {row0 : List UInt32 → Option (List UInt32)}
    {step : Nat → Nat → List UInt32 → Option (List UInt32)} {values : ValueBuffers}
    {result : List Score} {v : Nat → Nat → UInt32} (hm : 0 < m)
    (hvalues : ∀ b, n ≤ (values b).length) (hresult : m ≤ result.length)
    (hrow0 : FillsRow n (v 0) row0)
    (hstep : ∀ row, row < m → ∀ i, i < n → ∀ buf, step row i buf = writeAt buf i (v row i))
    (hv : ∀ row i, weights.InRange (v row i)) :
    ∃ values', scoreRowsUnrolled weights n m row0 step values result =
        some (values', overwrite (fun row x => x + rowScore weights n (v row)) m result) ∧
      ∀ b, (values' b).length = (values b).length := by
  unfold scoreRowsUnrolled
  rw [hrow0 _ (hvalues true)]
  apply pipelined_loop hm hvalues hresult hv
  intro row _ hrow values swapped result hvalues hbuf2
  obtain ⟨f, hunrolled, hsum⟩ :=
    unrolledRow_eq (hvalues swapped) (weighs_row hbuf2 (hv _)) (hstep row hrow)
  unfold unrolledTurn
  simp only [hunrolled, hsum, Option.bind_eq_bind, Option.bind_some, Option.pure_def]
  rfl

end Jumanpp.Core.Features
