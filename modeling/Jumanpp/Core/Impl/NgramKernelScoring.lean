import Jumanpp.Core.Impl.NgramScoring

/-!
# What the kernel computes

The first row of either phase of the kernel sums up weights of values that an earlier loop, or
nobody, has left in the value buffer.  The sum is not used, but the reads have to stay inside the
weights.
-/

namespace Jumanpp.Core.Features

open Jumanpp.Lib Jumanpp.Core.Analysis

theorem kernelSlot_eq {weights : WeightBuffer} {value : Nat → Option UInt32}
    {buf1 buf2 : List UInt32} {v : Nat → UInt32} {w : Nat → Score} {n f : Nat} (hf : f < n)
    (hbuf1 : n ≤ buf1.length) (hw : Weighs weights n buf2 w) (hv : value f = some (v f))
    (r : Score) :
    kernelSlot weights value buf2 f (overwrite (fun i _ => v i) f buf1) r =
      some (overwrite (fun i _ => v i) (f + 1) buf1, r + w f) := by
  unfold kernelSlot
  simp only [hv, hw f hf, writeAt_overwrite v (show f < buf1.length by omega),
    Option.bind_eq_bind, Option.bind_some, Option.pure_def]

/-- The state of the loop over pairs of features before each turn. -/
theorem kernelRow_eq {weights : WeightBuffer} {value : Nat → Option UInt32}
    {buf1 buf2 : List UInt32} {v : Nat → UInt32} {w : Nat → Score} {n : Nat}
    (hbuf1 : n ≤ buf1.length) (hw : Weighs weights n buf2 w)
    (hv : ∀ f, f < n → value f = some (v f)) :
    ∃ r1 r2, kernelRow weights value n buf1 buf2 =
        some (overwrite (fun i _ => v i) n buf1, r1, r2) ∧
      r1 + r2 = ((List.range n).map w).sum := by
  let sum := fun k => ((List.range k).map w).sum
  have hsum : ∀ k, sum (k + 1) = sum k + w k := by
    intro k
    simp only [sum, List.range_succ, List.map_append, List.sum_append, List.map_cons, List.map_nil,
      List.sum_singleton]
  let P : Nat → List UInt32 × Score × Score → Prop := fun pair s =>
    s.1 = overwrite (fun i _ => v i) (2 * pair) buf1 ∧ s.2.1 + s.2.2 = sum (2 * pair)
  have hstart : P 0 (buf1, 0, 0) := ⟨by simp, by simp [sum]⟩
  have hpairs := forRange_invariant
    (fun pair (s : List UInt32 × Score × Score) => do
      let feat := 2 * pair
      let first ← kernelSlot weights value buf2 feat s.1 s.2.1
      let second ← kernelSlot weights value buf2 (feat + 1) first.1 s.2.2
      pure (second.1, first.2, second.2)) 0 (n / 2) P hstart (by
    rintro pair ⟨buf, r1, r2⟩ _ hpair ⟨rfl, hr⟩
    have hfirst : 2 * pair < n := by omega
    have hsecond : 2 * pair + 1 < n := by omega
    refine ⟨(_, r1 + w (2 * pair), r2 + w (2 * pair + 1)), ?_, rfl, ?_⟩
    · simp only [kernelSlot_eq hfirst hbuf1 hw (hv _ hfirst),
        kernelSlot_eq hsecond hbuf1 hw (hv _ hsecond), Option.bind_eq_bind, Option.bind_some,
        Option.pure_def]
      rfl
    · show r1 + w (2 * pair) + (r2 + w (2 * pair + 1)) = sum (2 * pair + 1 + 1)
      have hr' : r1 + r2 = sum (2 * pair) := hr
      rw [hsum, hsum, ← hr']
      ring)
  obtain ⟨⟨buf, r1, r2⟩, hloop, hbuf, hr⟩ := hpairs
  rw [Nat.zero_add] at hbuf hr
  unfold kernelRow
  by_cases hodd : n % 2 = 1
  · have hlast : 2 * (n / 2) < n := by omega
    have hend : 2 * (n / 2) + 1 = n := by omega
    refine ⟨r1 + w (2 * (n / 2)), r2, ?_, ?_⟩
    · simp only [Option.bind_eq_bind] at hloop hbuf ⊢
      rw [hloop]
      simp only [hbuf, Option.bind_some, hodd, ↓reduceIte,
        kernelSlot_eq hlast hbuf1 hw (hv _ hlast), Option.pure_def, hend]
    · have hfull : ((List.range n).map w).sum = sum (2 * (n / 2) + 1) := by rw [hend]
      have hr' : r1 + r2 = sum (2 * (n / 2)) := hr
      rw [hfull, hsum, ← hr']
      ring
  · have hend : 2 * (n / 2) = n := by omega
    refine ⟨r1, r2, ?_, ?_⟩
    · simp only [Option.bind_eq_bind] at hloop hbuf ⊢
      rw [hloop]
      simp only [hbuf, Option.bind_some, hodd, ↓reduceIte, Option.pure_def, hend]
    · rw [hend] at hr
      exact hr

/-- A row that is computed has read the weights of all slots of `buf2`. -/
theorem kernelSlot_reads {weights : WeightBuffer} {value : Nat → Option UInt32}
    {buf1 buf2 : List UInt32} {f : Nat} {r : Score} {s : List UInt32 × Score}
    (h : kernelSlot weights value buf2 f buf1 r = some s) :
    ∃ score, (readAt buf2 (f : Int)).bind weights.at = some score := by
  unfold kernelSlot at h
  simp only [Option.bind_eq_bind, Option.bind_eq_some_iff] at h
  obtain ⟨_, _, _, _, score, hscore, _⟩ := h
  exact ⟨score, Option.bind_eq_some_iff.mpr hscore⟩

theorem kernelRow_reads {weights : WeightBuffer} {value : Nat → Option UInt32}
    {buf1 buf2 : List UInt32} {n : Nat} {s : List UInt32 × Score × Score}
    (h : kernelRow weights value n buf1 buf2 = some s) (f : Nat) (hf : f < n) :
    ∃ score, (readAt buf2 (f : Int)).bind weights.at = some score := by
  unfold kernelRow at h
  rw [Option.bind_eq_bind, Option.bind_eq_some_iff] at h
  obtain ⟨⟨buf, r1, r2⟩, hloop, hlast⟩ := h
  by_cases hpair : f < 2 * (n / 2)
  · obtain ⟨t, t', hturn⟩ := forRange_turn hloop (f / 2) (by omega) (by omega)
    simp only [Option.bind_eq_bind, Option.bind_eq_some_iff] at hturn
    obtain ⟨first, hfirst, second, hsecond, _⟩ := hturn
    by_cases heven : f % 2 = 0
    · have hf' : f = 2 * (f / 2) := by omega
      rw [hf']
      exact kernelSlot_reads hfirst
    · have hf' : f = 2 * (f / 2) + 1 := by omega
      rw [hf']
      exact kernelSlot_reads hsecond
  · have hodd : n % 2 = 1 := by omega
    have hf' : f = 2 * (n / 2) := by omega
    simp only [hodd, ↓reduceIte, Option.bind_eq_bind, Option.bind_eq_some_iff] at hlast
    obtain ⟨last, hlast, _⟩ := hlast
    rw [hf']
    exact kernelSlot_reads hlast

theorem weighs_of_inRange {weights : WeightBuffer} {n : Nat} {buf : List UInt32}
    (hn : n ≤ buf.length) (h : ∀ i x, i < n → buf[i]? = some x → weights.InRange x) :
    ∃ w, Weighs weights n buf w := by
  refine ⟨fun i => weights.value (buf.getD i 0), ?_⟩
  intro i hi
  have hlt : i < buf.length := by omega
  have hread := List.getElem?_eq_getElem hlt
  rw [readAt_natCast, hread, Option.bind_some, weights.at_of_inRange (h i _ hi hread)]
  simp [hlt]

theorem inRange_of_reads {weights : WeightBuffer} {buf : List UInt32} {i : Nat} {x : UInt32}
    (h : ∃ score, (readAt buf (i : Int)).bind weights.at = some score) (hx : buf[i]? = some x) :
    weights.InRange x := by
  obtain ⟨score, hscore⟩ := h
  rw [readAt_natCast, hx, Option.bind_some] at hscore
  exact weights.inRange_of_at hscore

theorem sum_weighs_row {weights : WeightBuffer} (n : Nat) (v : Nat → UInt32) :
    ((List.range n).map fun i => weights.value (v i)).sum = rowScore weights n v :=
  rfl

theorem update_of_not (values : ValueBuffers) (b : Bool) (buf : List UInt32) :
    Function.update values (!b) buf b = values b :=
  Function.update_of_ne (by cases b <;> simp) _ _

/-- The name that `buf1` has after that many rows. -/
def swappedAfter (rows : Nat) : Bool :=
  rows % 2 == 1

theorem swappedAfter_succ (rows : Nat) : swappedAfter (rows + 1) = !swappedAfter rows := by
  unfold swappedAfter
  rcases Nat.mod_two_eq_zero_or_one rows with h | h
  · have hsucc : (rows + 1) % 2 = 1 := by omega
    rw [h, hsucc]
    rfl
  · have hsucc : (rows + 1) % 2 = 0 := by omega
    rw [h, hsucc]
    rfl

/-- What the value buffers hold behind the slots that have been filled. -/
def KeepsBehind (n : Nat) (values values' : ValueBuffers) : Prop :=
  ∀ b i, n ≤ i → (values' b)[i]? = (values b)[i]?

theorem keepsBehind_update {n : Nat} {values values' : ValueBuffers} {b : Bool}
    {v : Nat → UInt32} (h : KeepsBehind n values values') :
    KeepsBehind n values
      (Function.update values' b (overwrite (fun i _ => v i) n (values' b))) := by
  intro b' i hi
  have hnot : ¬ i < n := by omega
  by_cases hb : b' = b
  · subst hb
    simp [getElem?_overwrite, hnot, h b' i hi]
  · rw [Function.update_of_ne hb, h b' i hi]

section Kernel

variable {weights : WeightBuffer} {biState triState : List UInt64}
  {t1pats t2pats : List PatternRow} {t1idxes t1featuresBi t1FeaturesTri t2FeaturesTri : List Nat}
  {values : ValueBuffers} {vb vt : Nat → Nat → UInt32}

/-- The kernel computes these values of the bigrams. -/
def BiValues (weights : WeightBuffer) (biState : List UInt64) (t1pats : List PatternRow)
    (t1featuresBi : List Nat) (vb : Nat → Nat → UInt32) : Prop :=
  ∀ row t1row, t1pats[row]? = some t1row → ∀ f, f < t1featuresBi.length →
    kernelBiValue weights biState t1featuresBi t1row f = some (vb row f)

def TriValues (weights : WeightBuffer) (triState : List UInt64) (t1pats t2pats : List PatternRow)
    (t1idxes t1FeaturesTri t2FeaturesTri : List Nat) (vt : Nat → Nat → UInt32) : Prop :=
  ∀ row t1idx t1row t2row, t1idxes[row]? = some t1idx → t1pats[t1idx]? = some t1row →
    t2pats[row]? = some t2row → ∀ f, f < t2FeaturesTri.length →
      kernelTriValue weights triState t1FeaturesTri t2FeaturesTri t1row t2row f = some (vt row f)

theorem kernelBiTurn_zero {scoreBuffer : List Score} {w : Nat → Score}
    (hvb : BiValues weights biState t1pats t1featuresBi vb) (hrows : 0 < t1pats.length)
    (hvalues : ∀ b, t1featuresBi.length ≤ (values b).length)
    (hw : Weighs weights t1featuresBi.length (values false) w) :
    kernelBiTurn weights biState t1pats t1featuresBi 0 (values, false, scoreBuffer) =
      some (Function.update values true
        (overwrite (fun i _ => vb 0 i) t1featuresBi.length (values true)), true, scoreBuffer) := by
  have hrow := List.getElem?_eq_getElem hrows
  obtain ⟨r1, r2, hkernel, _⟩ := kernelRow_eq (hvalues true) hw (hvb 0 _ hrow)
  unfold kernelBiTurn
  simp only [hrow, Option.bind_eq_bind, Option.bind_some, Bool.not_false, Bool.not_true, hkernel,
    Nat.lt_irrefl, ↓reduceIte, Option.pure_def]

theorem kernelBiTurn_pos {scoreBuffer : List Score} {row : Nat} {swapped : Bool}
    (hvb : BiValues weights biState t1pats t1featuresBi vb)
    (hv : ∀ row i, weights.InRange (vb row i)) (hrow : row < t1pats.length) (hpos : 0 < row)
    (hvalues : ∀ b, t1featuresBi.length ≤ (values b).length)
    (hbuf2 : (values swapped).take t1featuresBi.length =
      (List.range t1featuresBi.length).map (vb (row - 1))) :
    kernelBiTurn weights biState t1pats t1featuresBi row (values, swapped, scoreBuffer) =
      (writeAt scoreBuffer ((row : Int) - 1)
        (rowScore weights t1featuresBi.length (vb (row - 1)))).bind fun scoreBuffer =>
          some (Function.update values (!swapped)
            (overwrite (fun i _ => vb row i) t1featuresBi.length (values (!swapped))), !swapped,
            scoreBuffer) := by
  have hrow' := List.getElem?_eq_getElem hrow
  obtain ⟨r1, r2, hkernel, hsum⟩ :=
    kernelRow_eq (hvalues (!swapped)) (weighs_row hbuf2 (hv _)) (hvb row _ hrow')
  unfold kernelBiTurn
  simp only [hrow', Option.bind_eq_bind, Option.bind_some, Bool.not_not, hkernel, hpos,
    ↓reduceIte, hsum, sum_weighs_row, Option.pure_def]

/-- The invariant of the bigram rows: `buf1` holds the last row, which is not published yet. -/
theorem kernelBiRows_spec {scoreBuffer : List Score}
    (hvb : BiValues weights biState t1pats t1featuresBi vb)
    (hv : ∀ row i, weights.InRange (vb row i)) (hrows : 0 < t1pats.length)
    (hscores : t1pats.length ≤ scoreBuffer.length)
    (hvalues : ∀ b, t1featuresBi.length ≤ (values b).length)
    (hwarm : ∃ w, Weighs weights t1featuresBi.length (values false) w) :
    ∃ values', forRange (kernelBiTurn weights biState t1pats t1featuresBi) 0 t1pats.length
        (values, false, scoreBuffer) = some (values', swappedAfter t1pats.length,
          overwrite (fun row _ => rowScore weights t1featuresBi.length (vb row))
            (t1pats.length - 1) scoreBuffer) ∧
      (∀ b, (values' b).length = (values b).length) ∧
      (values' (swappedAfter t1pats.length)).take t1featuresBi.length =
        (List.range t1featuresBi.length).map (vb (t1pats.length - 1)) ∧
      KeepsBehind t1featuresBi.length values values' := by
  obtain ⟨w, hw⟩ := hwarm
  let n := t1featuresBi.length
  let P : Nat → RowState → Prop := fun row s =>
    (∀ b, (s.1 b).length = (values b).length) ∧ s.2.1 = swappedAfter row ∧
      (s.1 s.2.1).take n = (List.range n).map (vb (row - 1)) ∧
      KeepsBehind n values s.1 ∧
      s.2.2 = overwrite (fun row _ => rowScore weights n (vb row)) (row - 1) scoreBuffer
  have hstart : P 1 (Function.update values true (overwrite (fun i _ => vb 0 i) n (values true)),
      true, scoreBuffer) := by
    refine ⟨length_update (by simp), rfl, ?_, ?_, by simp⟩
    · exact take_overwrite (hvalues true)
    · exact keepsBehind_update fun _ _ _ => rfl
  have hstep : ∀ row s, 1 ≤ row → row < 1 + (t1pats.length - 1) → P row s →
      ∃ s', kernelBiTurn weights biState t1pats t1featuresBi row s = some s' ∧ P (row + 1) s' := by
    rintro row ⟨vals, swapped, res⟩ hlow hhigh ⟨hlen, rfl, hbuf1, hkeep, rfl⟩
    have hvals : ∀ b, n ≤ (vals b).length := by
      intro b
      rw [hlen]
      exact hvalues b
    refine ⟨(Function.update vals (!swappedAfter row)
      (overwrite (fun i _ => vb row i) n (vals (!swappedAfter row))), !swappedAfter row,
      overwrite (fun row _ => rowScore weights n (vb row)) row scoreBuffer),
      ?_, ?_, (swappedAfter_succ row).symm, ?_, keepsBehind_update hkeep, rfl⟩
    · rw [kernelBiTurn_pos hvb hv (by omega) hlow hvals hbuf1]
      rw [writeAt_overwrite_pred (fun row => rowScore weights n (vb row)) hlow (by omega)]
      rfl
    · intro b
      rw [length_update (by simp), hlen]
    · show (Function.update vals (!swappedAfter row) _ (!swappedAfter row)).take n = _
      rw [Function.update_self, take_overwrite (hvals _)]
      rfl
  obtain ⟨⟨vals, swapped, res⟩, hloop, hlen, hswapped, hbuf1, hkeep, hres⟩ :=
    forRange_invariant _ _ _ P hstart hstep
  have hend : 1 + (t1pats.length - 1) = t1pats.length := by omega
  rw [hend] at hswapped hbuf1 hres
  simp only at hswapped hbuf1 hres
  subst hswapped hres
  refine ⟨vals, ?_, hlen, hbuf1, hkeep⟩
  rw [forRange_of_pos _ _ hrows, kernelBiTurn_zero hvb hrows hvalues hw, Option.bind_some]
  exact hloop

/-- The rows of the kernel's trigram phase refer to rows that exist. -/
structure TriRows (t1pats t2pats : List PatternRow) (t1idxes : List Nat) : Prop where
  length_eq : t1idxes.length = t2pats.length
  t1idx_lt : ∀ t1idx ∈ t1idxes, t1idx < t1pats.length

theorem TriRows.exists_row (h : TriRows t1pats t2pats t1idxes) {row : Nat}
    (hrow : row < t2pats.length) :
    ∃ t1idx t1row t2row, t1idxes[row]? = some t1idx ∧ t1idx < t1pats.length ∧
      t1pats[t1idx]? = some t1row ∧ t2pats[row]? = some t2row := by
  have hidx : row < t1idxes.length := by
    rw [h.length_eq]
    exact hrow
  have hlt := h.t1idx_lt _ (List.getElem_mem hidx)
  exact ⟨_, _, _, List.getElem?_eq_getElem hidx, hlt, List.getElem?_eq_getElem hlt,
    List.getElem?_eq_getElem hrow⟩

theorem kernelTriTurn_zero {scoreBuffer result : List Score} {n : Nat} {swapped : Bool}
    {w : Nat → Score} (hrows : TriRows t1pats t2pats t1idxes) (hpos : 0 < t2pats.length)
    (hvt : TriValues weights triState t1pats t2pats t1idxes t1FeaturesTri t2FeaturesTri vt)
    (hv : ∀ row i, weights.InRange (vb row i)) (hscores : t1pats.length ≤ scoreBuffer.length)
    (hvalues : ∀ b, t2FeaturesTri.length ≤ (values b).length)
    (hbuf1 : (values swapped).take n = (List.range n).map (vb (t1pats.length - 1)))
    (hw : Weighs weights t2FeaturesTri.length (values swapped) w) :
    kernelTriTurn weights triState t1pats t2pats t1idxes t1FeaturesTri t2FeaturesTri n swapped 0
        (values, swapped, overwrite (fun row _ => rowScore weights n (vb row))
          (t1pats.length - 1) scoreBuffer, result) =
      some (Function.update values (!swapped)
          (overwrite (fun i _ => vt 0 i) t2FeaturesTri.length (values (!swapped))), !swapped,
        overwrite (fun row _ => rowScore weights n (vb row)) t1pats.length scoreBuffer,
        result) := by
  obtain ⟨t1idx, t1row, t2row, hidx, hlt, hrow1, hrow2⟩ := hrows.exists_row hpos
  obtain ⟨r1, r2, hkernel, _⟩ :=
    kernelRow_eq (hvalues (!swapped)) hw (hvt 0 _ _ _ hidx hrow1 hrow2)
  unfold kernelTriTurn
  simp only [hidx, hrow1, hrow2, Option.bind_eq_bind, Option.bind_some, Bool.not_not, hkernel,
    Nat.lt_irrefl, ↓reduceIte, update_of_not, rawPerceptron_row hbuf1 (hv _), Option.pure_def]
  rw [writeAt_overwrite_pred (fun row => rowScore weights n (vb row)) (by omega) hscores]
  rfl

theorem kernelTriTurn_pos {scoreBuffer result : List Score} {n row : Nat}
    {swapped triSwapped : Bool} {biScore : Nat → Score} (hrows : TriRows t1pats t2pats t1idxes)
    (hpos : 0 < row) (hrow : row < t2pats.length)
    (hvt : TriValues weights triState t1pats t2pats t1idxes t1FeaturesTri t2FeaturesTri vt)
    (hv : ∀ row i, weights.InRange (vt row i))
    (hscores : ∀ t1idx, t1idx < t1pats.length → scoreBuffer[t1idx]? = some (biScore t1idx))
    (hvalues : ∀ b, t2FeaturesTri.length ≤ (values b).length)
    (hbuf2 : (values triSwapped).take t2FeaturesTri.length =
      (List.range t2FeaturesTri.length).map (vt (row - 1))) :
    kernelTriTurn weights triState t1pats t2pats t1idxes t1FeaturesTri t2FeaturesTri n swapped row
        (values, triSwapped, scoreBuffer, result) =
      (writeAt result ((row : Int) - 1) (biScore (t1idxes.getD (row - 1) 0) +
        rowScore weights t2FeaturesTri.length (vt (row - 1)))).bind fun result =>
          some (Function.update values (!triSwapped)
            (overwrite (fun i _ => vt row i) t2FeaturesTri.length (values (!triSwapped))),
            !triSwapped, scoreBuffer, result) := by
  obtain ⟨t1idx, t1row, t2row, hidx, _, hrow1, hrow2⟩ := hrows.exists_row hrow
  obtain ⟨prev, _, _, hprev, hprev_lt, _, _⟩ :=
    hrows.exists_row (show row - 1 < t2pats.length by omega)
  obtain ⟨r1, r2, hkernel, hsum⟩ :=
    kernelRow_eq (hvalues (!triSwapped)) (weighs_row hbuf2 (hv _)) (hvt row _ _ _ hidx hrow1 hrow2)
  have hcast : (row : Int) - 1 = ((row - 1 : Nat) : Int) := by omega
  have hprevD : t1idxes.getD (row - 1) 0 = prev := by simp [List.getD_eq_getElem?_getD, hprev]
  rw [sum_weighs_row] at hsum
  unfold kernelTriTurn
  simp only [hidx, hrow1, hrow2, Option.bind_eq_bind, Option.bind_some, Bool.not_not, hkernel,
    hpos, ↓reduceIte, hcast, readAt_natCast, hprev, hscores prev hprev_lt, Option.pure_def, hprevD,
    ← hsum, add_assoc]

/-- The invariant of the trigram rows behind the first one. -/
theorem kernelTriRows_spec {scoreBuffer result : List Score} {n : Nat} {swapped : Bool}
    (hrows : TriRows t1pats t2pats t1idxes) (hpos : 0 < t2pats.length)
    (hvt : TriValues weights triState t1pats t2pats t1idxes t1FeaturesTri t2FeaturesTri vt)
    (hvb : ∀ row i, weights.InRange (vb row i)) (hv : ∀ row i, weights.InRange (vt row i))
    (hscores : t1pats.length ≤ scoreBuffer.length) (hresult : t2pats.length ≤ result.length)
    (hvalues : ∀ b, t2FeaturesTri.length ≤ (values b).length)
    (hbuf1 : (values swapped).take n = (List.range n).map (vb (t1pats.length - 1)))
    (hwarm : ∃ w, Weighs weights t2FeaturesTri.length (values swapped) w) :
    ∃ values' triSwapped,
      forRange (kernelTriTurn weights triState t1pats t2pats t1idxes t1FeaturesTri t2FeaturesTri n
          swapped) 0 t2pats.length (values, swapped, overwrite (fun row _ =>
            rowScore weights n (vb row)) (t1pats.length - 1) scoreBuffer, result) =
        some (values', triSwapped,
          overwrite (fun row _ => rowScore weights n (vb row)) t1pats.length scoreBuffer,
          overwrite (fun row _ => rowScore weights n (vb (t1idxes.getD row 0)) +
            rowScore weights t2FeaturesTri.length (vt row)) (t2pats.length - 1) result) ∧
      (∀ b, (values' b).length = (values b).length) ∧
      (values' triSwapped).take t2FeaturesTri.length =
        (List.range t2FeaturesTri.length).map (vt (t2pats.length - 1)) := by
  obtain ⟨w, hw⟩ := hwarm
  let numTri := t2FeaturesTri.length
  let biScores := overwrite (fun row _ => rowScore weights n (vb row)) t1pats.length scoreBuffer
  let total := fun row => rowScore weights n (vb (t1idxes.getD row 0)) +
    rowScore weights numTri (vt row)
  have hbi : ∀ t1idx, t1idx < t1pats.length →
      biScores[t1idx]? = some (rowScore weights n (vb t1idx)) := by
    intro t1idx hlt
    have hlt' : t1idx < scoreBuffer.length := by omega
    rw [getElem?_overwrite, List.getElem?_eq_getElem hlt']
    simp [hlt]
  let P : Nat → TriRowState → Prop := fun row s =>
    (∀ b, (s.1 b).length = (values b).length) ∧
      (s.1 s.2.1).take numTri = (List.range numTri).map (vt (row - 1)) ∧ s.2.2.1 = biScores ∧
      s.2.2.2 = overwrite (fun row _ => total row) (row - 1) result
  have hstart : P 1 (Function.update values (!swapped)
      (overwrite (fun i _ => vt 0 i) numTri (values (!swapped))), !swapped, biScores, result) := by
    refine ⟨length_update (by simp), ?_, rfl, by simp⟩
    show (Function.update values (!swapped) _ (!swapped)).take numTri = _
    rw [Function.update_self, take_overwrite (hvalues _)]
  have hstep : ∀ row s, 1 ≤ row → row < 1 + (t2pats.length - 1) → P row s →
      ∃ s', kernelTriTurn weights triState t1pats t2pats t1idxes t1FeaturesTri t2FeaturesTri n
        swapped row s = some s' ∧ P (row + 1) s' := by
    rintro row ⟨vals, triSwapped, sb, res⟩ hlow hhigh ⟨hlen, hbuf2, rfl, rfl⟩
    have hvals : ∀ b, numTri ≤ (vals b).length := by
      intro b
      rw [hlen]
      exact hvalues b
    refine ⟨(Function.update vals (!triSwapped)
      (overwrite (fun i _ => vt row i) numTri (vals (!triSwapped))), !triSwapped, biScores,
      overwrite (fun row _ => total row) row result), ?_, ?_, ?_, rfl, rfl⟩
    · rw [kernelTriTurn_pos hrows hlow (by omega) hvt hv hbi hvals hbuf2]
      change (writeAt _ _ (total (row - 1))).bind _ = _
      rw [writeAt_overwrite_pred total hlow (by omega)]
      rfl
    · intro b
      rw [length_update (by simp), hlen]
    · show (Function.update vals (!triSwapped) _ (!triSwapped)).take numTri = _
      rw [Function.update_self, take_overwrite (hvals _)]
      rfl
  obtain ⟨⟨vals, triSwapped, sb, res⟩, hloop, hlen, hbuf2, hsb, hres⟩ :=
    forRange_invariant _ _ _ P hstart hstep
  have hend : 1 + (t2pats.length - 1) = t2pats.length := by omega
  rw [hend] at hbuf2 hres
  simp only at hbuf2 hsb hres
  subst hsb hres
  refine ⟨vals, triSwapped, ?_, hlen, hbuf2⟩
  rw [forRange_of_pos _ _ hpos,
    kernelTriTurn_zero hrows hpos hvt hvb hscores hvalues hbuf1 hw, Option.bind_some]
  exact hloop

/-- The indices that the first row of each phase finds in the value buffers.  The slots below the
number of bigrams have been filled when the trigrams begin. -/
structure WarmupInRange (weights : WeightBuffer) (numBigrams numTrigrams t1rows : Nat)
    (values : ValueBuffers) : Prop where
  bigrams : ∀ i x, i < numBigrams → (values false)[i]? = some x → weights.InRange x
  trigrams : ∀ i x, numBigrams ≤ i → i < numTrigrams →
    (values (swappedAfter t1rows))[i]? = some x → weights.InRange x

theorem WarmupInRange.exists_weighs {numTrigrams n t1rows : Nat} {values' : ValueBuffers}
    {v : Nat → UInt32} (h : WarmupInRange weights n numTrigrams t1rows values)
    (hv : ∀ i, weights.InRange (v i)) (hlen : numTrigrams ≤ (values' (swappedAfter t1rows)).length)
    (hfilled : (values' (swappedAfter t1rows)).take n = (List.range n).map v)
    (hkeep : KeepsBehind n values values') :
    ∃ w, Weighs weights numTrigrams (values' (swappedAfter t1rows)) w := by
  apply weighs_of_inRange hlen
  intro i x hi hx
  by_cases hn : i < n
  · rw [← List.getElem?_take_of_lt hn, hfilled] at hx
    simp only [List.getElem?_map, List.getElem?_range hn, Option.map_some,
      Option.some.injEq] at hx
    exact hx ▸ hv i
  · rw [hkeep _ i (by omega)] at hx
    exact h.trigrams i x (by omega) hi hx

theorem applyBiTriFullKernel_spec {scoreBuffer result : List Score}
    (hrows : TriRows t1pats t2pats t1idxes) (hpos : 0 < t2pats.length)
    (hvb : BiValues weights biState t1pats t1featuresBi vb)
    (hvt : TriValues weights triState t1pats t2pats t1idxes t1FeaturesTri t2FeaturesTri vt)
    (hvbIn : ∀ row i, weights.InRange (vb row i)) (hvtIn : ∀ row i, weights.InRange (vt row i))
    (hscores : t1pats.length ≤ scoreBuffer.length) (hresult : t2pats.length ≤ result.length)
    (hbi : ∀ b, t1featuresBi.length ≤ (values b).length)
    (htri : ∀ b, t2FeaturesTri.length ≤ (values b).length)
    (hwarm : WarmupInRange weights t1featuresBi.length t2FeaturesTri.length t1pats.length values) :
    ∃ values', applyBiTriFullKernel biState triState t1pats t2pats t1idxes t1featuresBi
        t1FeaturesTri t2FeaturesTri values weights scoreBuffer result =
      some (values',
        overwrite (fun row _ => rowScore weights t1featuresBi.length (vb row)) t1pats.length
          scoreBuffer,
        overwrite (fun row _ => rowScore weights t1featuresBi.length (vb (t1idxes.getD row 0)) +
          rowScore weights t2FeaturesTri.length (vt row)) t2pats.length result) := by
  obtain ⟨last, _, _, hlast, hlast_lt, _, _⟩ :=
    hrows.exists_row (show t2pats.length - 1 < t2pats.length by omega)
  have hrows1 : 0 < t1pats.length := by omega
  obtain ⟨vals, hbiLoop, hlen, hbuf1, hkeep⟩ := kernelBiRows_spec hvb hvbIn hrows1 hscores hbi
    (weighs_of_inRange (hbi false) hwarm.bigrams)
  have htri' : ∀ b, t2FeaturesTri.length ≤ (vals b).length := by
    intro b
    rw [hlen]
    exact htri b
  obtain ⟨vals', triSwapped, htriLoop, _, hbuf2⟩ := kernelTriRows_spec hrows hpos hvt hvbIn hvtIn
    hscores hresult htri' hbuf1 (hwarm.exists_weighs (hvbIn _) (htri' _) hbuf1 hkeep)
  have hread : readAt (overwrite (fun row _ => rowScore weights t1featuresBi.length (vb row))
      t1pats.length scoreBuffer) (last : Int) =
      some (rowScore weights t1featuresBi.length (vb last)) := by
    have hlt : last < scoreBuffer.length := by omega
    rw [readAt_natCast, getElem?_overwrite, List.getElem?_eq_getElem hlt]
    simp [hlast_lt]
  have hcast : (t2pats.length : Int) - 1 = ((t2pats.length - 1 : Nat) : Int) := by omega
  have hlastD : t1idxes.getD (t2pats.length - 1) 0 = last := by
    simp [List.getD_eq_getElem?_getD, hlast]
  have hwrite := writeAt_overwrite_pred (fun row =>
    rowScore weights t1featuresBi.length (vb (t1idxes.getD row 0)) +
      rowScore weights t2FeaturesTri.length (vt row)) hpos hresult
  rw [hcast] at hwrite
  simp only [hlastD] at hwrite
  refine ⟨vals', ?_⟩
  unfold applyBiTriFullKernel
  rw [hbiLoop]
  simp only [Option.bind_eq_bind, Option.bind_some, htriLoop, hcast]
  rw [readAt_natCast t1idxes, hlast]
  simp only [Option.bind_some, hread, rawPerceptron_row hbuf2 (hvtIn _), hwrite, Option.pure_def]

theorem kernelBiTurn_zero_reads {scoreBuffer : List Score} {s : RowState}
    (h : kernelBiTurn weights biState t1pats t1featuresBi 0 (values, false, scoreBuffer) = some s)
    (f : Nat) (hf : f < t1featuresBi.length) :
    ∃ score, (readAt (values false) (f : Int)).bind weights.at = some score := by
  unfold kernelBiTurn at h
  simp only [Option.bind_eq_bind, Option.bind_eq_some_iff] at h
  obtain ⟨t1row, _, row, hrow, _⟩ := h
  exact kernelRow_reads hrow f hf

theorem kernelTriTurn_zero_reads {scoreBuffer result : List Score} {n : Nat} {swapped : Bool}
    {s : TriRowState}
    (h : kernelTriTurn weights triState t1pats t2pats t1idxes t1FeaturesTri t2FeaturesTri n
      swapped 0 (values, swapped, scoreBuffer, result) = some s)
    (f : Nat) (hf : f < t2FeaturesTri.length) :
    ∃ score, (readAt (values swapped) (f : Int)).bind weights.at = some score := by
  unfold kernelTriTurn at h
  rw [Option.bind_eq_bind, Option.bind_eq_some_iff] at h
  obtain ⟨t2row, _, h⟩ := h
  rw [Option.bind_eq_bind, Option.bind_eq_some_iff] at h
  obtain ⟨t1row, _, h⟩ := h
  rw [Option.bind_eq_bind, Option.bind_eq_some_iff] at h
  obtain ⟨row, hrow, _⟩ := h
  rw [Bool.not_not] at hrow
  exact kernelRow_reads hrow f hf

/-- Without trigram rows the epilogue reads `t1idxes.at(-1)`. -/
theorem applyBiTriFullKernel_nil (scoreBuffer result : List Score) :
    applyBiTriFullKernel biState triState t1pats [] t1idxes t1featuresBi t1FeaturesTri
      t2FeaturesTri values weights scoreBuffer result = none := by
  unfold applyBiTriFullKernel
  cases forRange (kernelBiTurn weights biState t1pats t1featuresBi) 0 t1pats.length
    (values, false, scoreBuffer) with
  | none => rfl
  | some state =>
      obtain ⟨vals, swapped, sb⟩ := state
      simp only [Option.bind_eq_bind, Option.bind_some, List.length_nil, forRange]
      rfl

/-- The kernel has a result only for at least one trigram row and when its warm-up reads stay
inside the weights. -/
theorem warmupInRange_of_kernel {scoreBuffer result : List Score}
    {s : ValueBuffers × List Score × List Score} (hrows : TriRows t1pats t2pats t1idxes)
    (hvb : BiValues weights biState t1pats t1featuresBi vb)
    (hvbIn : ∀ row i, weights.InRange (vb row i)) (hscores : t1pats.length ≤ scoreBuffer.length)
    (hbi : ∀ b, t1featuresBi.length ≤ (values b).length)
    (h : applyBiTriFullKernel biState triState t1pats t2pats t1idxes t1featuresBi t1FeaturesTri
      t2FeaturesTri values weights scoreBuffer result = some s) :
    t2pats ≠ [] ∧
      WarmupInRange weights t1featuresBi.length t2FeaturesTri.length t1pats.length values := by
  have hne : t2pats ≠ [] := by
    rintro rfl
    rw [applyBiTriFullKernel_nil] at h
    cases h
  have hpos : 0 < t2pats.length := List.length_pos_iff.mpr hne
  obtain ⟨_, _, _, _, hlt, _, _⟩ := hrows.exists_row hpos
  have hrows1 : 0 < t1pats.length := by omega
  unfold applyBiTriFullKernel at h
  rw [Option.bind_eq_bind, Option.bind_eq_some_iff] at h
  obtain ⟨state, hbiLoop, h⟩ := h
  have hfirst := hbiLoop
  rw [forRange_of_pos _ _ hrows1, Option.bind_eq_some_iff] at hfirst
  obtain ⟨first, hfirst, _⟩ := hfirst
  have hbigrams : ∀ i x, i < t1featuresBi.length → (values false)[i]? = some x →
      weights.InRange x :=
    fun i x hi hx => inRange_of_reads (kernelBiTurn_zero_reads hfirst i hi) hx
  obtain ⟨vals, hbiLoop', _, _, hkeep⟩ := kernelBiRows_spec hvb hvbIn hrows1 hscores hbi
    (weighs_of_inRange (hbi false) hbigrams)
  rw [hbiLoop', Option.some.injEq] at hbiLoop
  subst hbiLoop
  simp only [Option.bind_eq_bind, Option.bind_eq_some_iff] at h
  obtain ⟨_, htriLoop, _⟩ := h
  rw [forRange_of_pos _ _ hpos, Option.bind_eq_some_iff] at htriLoop
  obtain ⟨tri, htri, _⟩ := htriLoop
  refine ⟨hne, hbigrams, ?_⟩
  intro i x hlow hi hx
  rw [← hkeep _ i hlow] at hx
  exact inRange_of_reads (kernelTriTurn_zero_reads htri i hi) hx

end Kernel

end Jumanpp.Core.Features
