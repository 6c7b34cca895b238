import Jumanpp.Core.Impl.NgramKernelScoring
import Jumanpp.Core.Impl.NgramSlots

/-!
# The steps of n-gram scoring

The states of the rows are stored by the first steps; the later ones add the scores of the
`FeatureScorer` of the spec to every row.  Against a list of predecessors the same scores are
computed at once.
-/

namespace Jumanpp.Core.Features

open Jumanpp.Lib Jumanpp.Core.Analysis

/-! ## Loops over features -/

section Slots

variable {F α : Type} [Zero α] {features : List F}

theorem fillsRow_of_slots {step : List α → F → Option (List α)} (target : F → Nat) (value : F → α)
    (htarget : ∀ (i : Nat) (h : i < features.length), target features[i] = i)
    (hstep : ∀ f ∈ features, ∀ buf, step buf f = writeAt buf (target f) (value f)) :
    FillsRow features.length (slotValue features value)
      fun buf => features.foldlM step buf := by
  intro buf hbuf
  exact foldlM_slots hbuf htarget (fun i h => slotValue_getElem value h) hstep

/-- A state row as the first steps have stored it. -/
def Stored (features : List F) (target : F → Nat) (value : F → α) (state : List α) : Prop :=
  ∀ f ∈ features, readAt state (target f : Int) = some (value f)

theorem stored_overwrite {target : F → Nat} (value : F → α) {buf : List α}
    (htarget : ∀ (i : Nat) (h : i < features.length), target features[i] = i)
    (hbuf : features.length ≤ buf.length) :
    Stored features target value
      (overwrite (fun i _ => slotValue features value i) features.length buf) := by
  intro f hf
  obtain ⟨i, hi, rfl⟩ := List.mem_iff_getElem.mp hf
  have hlt : i < buf.length := by omega
  rw [htarget i hi, readAt_natCast, getElem?_overwrite, List.getElem?_eq_getElem hlt]
  simp [hi, slotValue_getElem value hi]

end Slots

namespace PartialNgramFeatures

variable {child : PartialNgramFeatures} {weights : WeightBuffer}

theorem fillsRow_uniStep0 (h : child.Targets) (patterns : PatternRow) (mask : UInt32) :
    FillsRow child.numUnigrams (slotValue child.unigrams fun f => f.value patterns mask)
      (child.uniStep0 patterns mask) :=
  fillsRow_of_slots _ _ h.unigrams fun _ _ _ => rfl

theorem fillsRow_biStep0 (h : child.Targets) (patterns : PatternRow) :
    FillsRow child.numBigrams (slotValue child.bigrams fun f => f.state0 patterns)
      (child.biStep0 patterns) :=
  fillsRow_of_slots _ _ h.bigrams fun _ _ _ => rfl

theorem fillsRow_triStep0 (h : child.Targets) (patterns : PatternRow) :
    FillsRow child.numTrigrams (slotValue child.trigrams fun f => f.state0 patterns)
      (child.triStep0 patterns) :=
  fillsRow_of_slots _ _ h.trigrams fun _ _ _ => rfl

theorem step1_stored {t0 p1 : PatternRow} {mask : UInt32} {state : List UInt64}
    (hstate : Stored child.bigrams (·.target) (·.state0 t0) state) :
    ∀ f ∈ child.bigrams, ∀ buf,
      f.step1 p1 state buf mask = writeAt buf f.target (f.jointRaw t0 p1 mask) := by
  intro f hf buf
  unfold BigramFeature.step1
  rw [hstate f hf]
  rfl

theorem fillsRow_biStep1 (h : child.Targets) {t0 p1 : PatternRow} {mask : UInt32}
    {state : List UInt64} (hstate : Stored child.bigrams (·.target) (·.state0 t0) state) :
    FillsRow child.numBigrams (slotValue child.bigrams fun f => f.jointRaw t0 p1 mask)
      (child.biStep1 p1 state mask) :=
  fillsRow_of_slots _ _ h.bigrams (step1_stored hstate)

theorem fillsRow_triStep1 (h : child.Targets) {t0 p1 : PatternRow} {state : List UInt64}
    (hstate : Stored child.trigrams (·.target) (·.state0 t0) state) :
    FillsRow child.numTrigrams (slotValue child.trigrams fun f => f.state1 (f.state0 t0) p1)
      (child.triStep1 p1 state) := by
  apply fillsRow_of_slots _ _ h.trigrams
  intro f hf buf
  unfold TrigramFeature.step1
  rw [hstate f hf]
  rfl

theorem step2_stored {t0 p1 p2 : PatternRow} {mask : UInt32} {state : List UInt64}
    (hstate : Stored child.trigrams (·.target) (fun f => f.state1 (f.state0 t0) p1) state) :
    ∀ f ∈ child.trigrams, ∀ buf,
      f.step2 p2 state buf mask = writeAt buf f.target (f.jointRaw t0 p1 p2 mask) := by
  intro f hf buf
  unfold TrigramFeature.step2
  rw [hstate f hf]
  rfl

theorem fillsRow_triStep2 (h : child.Targets) {t0 p1 p2 : PatternRow} {mask : UInt32}
    {state : List UInt64}
    (hstate : Stored child.trigrams (·.target) (fun f => f.state1 (f.state0 t0) p1) state) :
    FillsRow child.numTrigrams (slotValue child.trigrams fun f => f.jointRaw t0 p1 p2 mask)
      (child.triStep2 p2 state mask) :=
  fillsRow_of_slots _ _ h.trigrams (step2_stored hstate)

theorem fillsRow_biFull (h : child.Targets) (t0 t1 : PatternRow) (mask : UInt32) :
    FillsRow child.numBigrams (slotValue child.bigrams fun f => f.jointRaw t0 t1 mask)
      (child.biFull t0 t1 mask) :=
  fillsRow_of_slots _ _ h.bigrams fun _ _ _ => rfl

theorem fillsRow_triFull (h : child.Targets) (t0 t1 t2 : PatternRow) (mask : UInt32) :
    FillsRow child.numTrigrams (slotValue child.trigrams fun f => f.jointRaw t0 t1 t2 mask)
      (child.triFull t0 t1 t2 mask) :=
  fillsRow_of_slots _ _ h.trigrams fun _ _ _ => rfl

theorem inRange_slotValue {F : Type} (features : List F) {value : F → UInt32}
    (h : ∀ f, weights.InRange (value f)) (i : Nat) :
    weights.InRange (slotValue features value i) := by
  unfold slotValue
  cases features[i]? with
  | none => exact weights.inRange_zero
  | some f => exact h f

theorem inRange_bigrams (t0 t1 : PatternRow) (i : Nat) :
    weights.InRange (slotValue child.bigrams (fun f => f.jointRaw t0 t1 weights.mask) i) :=
  inRange_slotValue _ (fun _ => weights.inRange_masked _) i

theorem inRange_trigrams (t0 t1 t2 : PatternRow) (i : Nat) :
    weights.InRange (slotValue child.trigrams (fun f => f.jointRaw t0 t1 t2 weights.mask) i) :=
  inRange_slotValue _ (fun _ => weights.inRange_masked _) i

theorem rowScore_bigrams (child : PartialNgramFeatures) (weights : WeightBuffer) (t0 t1 : PatternRow) :
    rowScore weights child.numBigrams
        (slotValue child.bigrams fun f => f.jointRaw t0 t1 weights.mask) =
      (child.scorer weights).bi t0 t1 :=
  rowScore_slotValue weights child.bigrams _

theorem rowScore_trigrams (child : PartialNgramFeatures) (weights : WeightBuffer)
    (t0 t1 t2 : PatternRow) :
    rowScore weights child.numTrigrams
        (slotValue child.trigrams fun f => f.jointRaw t0 t1 t2 weights.mask) =
      (child.scorer weights).tri t0 t1 t2 :=
  rowScore_slotValue weights child.trigrams _

end PartialNgramFeatures

/-! ## The buffers -/

/-- The largest boundaries of the lattice. -/
structure AnalysisRunStats where
  maxStarts : Nat
  maxEnds : Nat

/-- What `allocateBuffers` returns; the memory is not initialised. -/
structure FeatureBuffer.Allocated (child : PartialNgramFeatures) (stats : AnalysisRunStats)
    (buffers : FeatureBuffer) : Prop where
  valueBuffer : ∀ b, (buffers.valueBuffer b).length =
    max child.numUnigrams (max child.numBigrams child.numTrigrams)
  t1Buffer : buffers.t1Buffer.length = stats.maxStarts ∧
    ∀ row ∈ buffers.t1Buffer, row.length = child.numBigrams
  t2Buffer1 : buffers.t2Buffer1.length = stats.maxStarts ∧
    ∀ row ∈ buffers.t2Buffer1, row.length = child.numTrigrams
  t2Buffer2 : buffers.t2Buffer2.length = stats.maxStarts ∧
    ∀ row ∈ buffers.t2Buffer2, row.length = child.numTrigrams
  scoreBuffer : buffers.scoreBuffer.length = stats.maxEnds

/-- Every row of the buffer is filled by its step. -/
theorem fillStates_eq {n m k : Nat} (step : Nat → List UInt64 → Option (List UInt64))
    {v : Nat → Nat → UInt64} {buffer : List (List UInt64)}
    (hbuffer : buffer.length = k ∧ ∀ row ∈ buffer, row.length = n) (hm : m ≤ k)
    (hstep : ∀ row, row < m → FillsRow n (v row) (step row)) :
    ∃ buffer', fillStates step m buffer = some buffer' ∧
      (buffer'.length = k ∧ ∀ row ∈ buffer', row.length = n) ∧
      ∀ row, row < m → ∃ old, n ≤ old.length ∧
        readAt buffer' (row : Int) = some (overwrite (fun i _ => v row i) n old) := by
  obtain ⟨rfl, hrows⟩ := hbuffer
  let filled := fun row (old : List UInt64) => overwrite (fun i _ => v row i) n old
  refine ⟨overwrite filled m buffer, ?_, ⟨by simp, ?_⟩, ?_⟩
  · apply forRange_update hm
    intro row old hrow hold
    exact hstep row hrow old (hrows old (List.mem_of_getElem? hold)).ge
  · intro row hrow
    obtain ⟨i, hi⟩ := List.mem_iff_getElem?.mp hrow
    rw [getElem?_overwrite, Option.map_eq_some_iff] at hi
    obtain ⟨old, hold, rfl⟩ := hi
    have hlen := hrows old (List.mem_of_getElem? hold)
    split_ifs
    · rw [length_overwrite, hlen]
    · exact hlen
  · intro row hrow
    have hlt : row < buffer.length := by omega
    refine ⟨buffer[row], (hrows _ (List.getElem_mem hlt)).ge, ?_⟩
    rw [readAt_natCast, getElem?_overwrite, List.getElem?_eq_getElem hlt]
    simp [hrow, filled]

/-- The first steps have stored the states of the rows of `p0`. -/
structure Stepped (child : PartialNgramFeatures) (stats : AnalysisRunStats) (p0 : List PatternRow)
    (buffers : FeatureBuffer) : Prop where
  targets : child.Targets
  allocated : buffers.Allocated child stats
  currentElems : buffers.currentElems = p0.length
  length_le : p0.length ≤ stats.maxStarts
  bigrams : ∀ (row : Nat) t0, p0[row]? = some t0 → ∃ state,
    readAt buffers.t1Buffer (row : Int) = some state ∧
    Stored child.bigrams (·.target) (·.state0 t0) state
  trigrams : ∀ (row : Nat) t0, p0[row]? = some t0 → ∃ state,
    readAt buffers.t2Buffer1 (row : Int) = some state ∧
    Stored child.trigrams (·.target) (·.state0 t0) state

/-- The second trigram step has stored the states against the row `p1`. -/
def SteppedTri (child : PartialNgramFeatures) (p0 : List PatternRow) (p1 : PatternRow)
    (buffers : FeatureBuffer) : Prop :=
  ∀ (row : Nat) t0, p0[row]? = some t0 → ∃ state, readAt buffers.t2Buffer2 (row : Int) = some state ∧
    Stored child.trigrams (·.target) (fun f => f.state1 (f.state0 t0) p1) state

namespace PartialNgramFeatures

variable {child : PartialNgramFeatures} {weights : WeightBuffer} {stats : AnalysisRunStats}
  {p0 : List PatternRow} {buffers : FeatureBuffer}

theorem getD_of_lt {row : Nat} (h : row < p0.length) : p0[row]? = some (p0.getD row []) := by
  rw [List.getElem?_eq_getElem h, List.getD_eq_getElem _ _ h]

theorem exists_stepped (htargets : child.Targets) (hbuffers : buffers.Allocated child stats)
    (hp0 : p0.length ≤ stats.maxStarts) :
    ∃ after, (child.applyBiStep1 buffers p0).bind (child.applyTriStep1 · p0) = some after ∧
      Stepped child stats p0 after ∧ after.valueBuffer = buffers.valueBuffer ∧
      after.scoreBuffer = buffers.scoreBuffer := by
  obtain ⟨t1Buffer, hbi, ht1Buffer, hbigrams⟩ := fillStates_eq (fun row state => do
      let patterns ← p0[row]?
      child.biStep0 patterns state) hbuffers.t1Buffer hp0 (by
    intro row hrow state hstate
    simp only [getD_of_lt hrow, Option.bind_eq_bind, Option.bind_some]
    exact fillsRow_biStep0 htargets (p0.getD row []) state hstate)
  obtain ⟨t2Buffer1, htri, ht2Buffer1, htrigrams⟩ := fillStates_eq (fun row state => do
      let patterns ← p0[row]?
      child.triStep0 patterns state) hbuffers.t2Buffer1 hp0 (by
    intro row hrow state hstate
    simp only [getD_of_lt hrow, Option.bind_eq_bind, Option.bind_some]
    exact fillsRow_triStep0 htargets (p0.getD row []) state hstate)
  refine ⟨{ buffers with t1Buffer := t1Buffer, t2Buffer1 := t2Buffer1, currentElems := p0.length },
    ?_, ?_, rfl, rfl⟩
  · have hbiStep : child.applyBiStep1 buffers p0 =
        some { buffers with t1Buffer := t1Buffer, currentElems := p0.length } := by
      unfold applyBiStep1
      rw [hbi]
      rfl
    rw [hbiStep, Option.bind_some]
    unfold applyTriStep1
    rw [if_neg (by simp), htri]
    rfl
  · refine ⟨htargets, ⟨hbuffers.valueBuffer, ht1Buffer, ht2Buffer1, hbuffers.t2Buffer2,
      hbuffers.scoreBuffer⟩, rfl, hp0, ?_, ?_⟩
    · intro row t0 ht0
      obtain ⟨hrow, _⟩ := List.getElem?_eq_some_iff.mp ht0
      obtain ⟨old, hold, hread⟩ := hbigrams row hrow
      rw [getD_of_lt hrow, Option.some.injEq] at ht0
      rw [ht0] at hread
      exact ⟨_, hread, stored_overwrite _ htargets.bigrams hold⟩
    · intro row t0 ht0
      obtain ⟨hrow, _⟩ := List.getElem?_eq_some_iff.mp ht0
      obtain ⟨old, hold, hread⟩ := htrigrams row hrow
      rw [getD_of_lt hrow, Option.some.injEq] at ht0
      rw [ht0] at hread
      exact ⟨_, hread, stored_overwrite _ htargets.trigrams hold⟩

end PartialNgramFeatures

namespace Stepped

variable {child : PartialNgramFeatures} {weights : WeightBuffer} {stats : AnalysisRunStats}
  {p0 : List PatternRow} {buffers : FeatureBuffer}

/-- The loops over rows only change the value buffers. -/
theorem withValues (h : Stepped child stats p0 buffers) {values : ValueBuffers}
    (hlen : ∀ b, (values b).length = (buffers.valueBuffer b).length) :
    Stepped child stats p0 { buffers with valueBuffer := values } where
  targets := h.targets
  allocated :=
    { h.allocated with valueBuffer := fun b => (hlen b).trans (h.allocated.valueBuffer b) }
  currentElems := h.currentElems
  length_le := h.length_le
  bigrams := h.bigrams
  trigrams := h.trigrams

theorem applyTriStep2 (h : Stepped child stats p0 buffers) (p1 : PatternRow) :
    ∃ t2Buffer2, child.applyTriStep2 buffers p1 =
        some { buffers with t2Buffer2 := t2Buffer2 } ∧
      Stepped child stats p0 { buffers with t2Buffer2 := t2Buffer2 } ∧
      SteppedTri child p0 p1 { buffers with t2Buffer2 := t2Buffer2 } := by
  obtain ⟨t2Buffer2, htri, ht2Buffer2, htrigrams⟩ := fillStates_eq (m := buffers.currentElems)
      (fun row res => do
        let st ← readAt buffers.t2Buffer1 row
        child.triStep1 p1 st res)
      h.allocated.t2Buffer2 (by rw [h.currentElems]; exact h.length_le) (by
    intro row hrow res hres
    rw [h.currentElems] at hrow
    obtain ⟨state, hread, hstored⟩ :=
      h.trigrams row _ (PartialNgramFeatures.getD_of_lt hrow)
    simp only [hread, Option.bind_eq_bind, Option.bind_some]
    exact PartialNgramFeatures.fillsRow_triStep1 h.targets hstored res hres)
  refine ⟨t2Buffer2, ?_, ⟨h.targets, ⟨h.allocated.valueBuffer, h.allocated.t1Buffer,
    h.allocated.t2Buffer1, ht2Buffer2, h.allocated.scoreBuffer⟩, h.currentElems, h.length_le,
    h.bigrams, h.trigrams⟩, ?_⟩
  · unfold PartialNgramFeatures.applyTriStep2
    rw [htri]
    rfl
  · intro row t0 ht0
    obtain ⟨hrow, _⟩ := List.getElem?_eq_some_iff.mp ht0
    obtain ⟨old, hold, hread⟩ := htrigrams row (h.currentElems ▸ hrow)
    rw [PartialNgramFeatures.getD_of_lt hrow, Option.some.injEq] at ht0
    rw [ht0] at hread
    exact ⟨_, hread, stored_overwrite _ h.targets.trigrams hold⟩

theorem le_valueBuffer (h : Stepped child stats p0 buffers) (b : Bool) :
    child.numBigrams ≤ (buffers.valueBuffer b).length ∧
      child.numTrigrams ≤ (buffers.valueBuffer b).length := by
  have hlen := h.allocated.valueBuffer b
  omega

theorem fillsRow_biStep1 (h : Stepped child stats p0 buffers) (p1 : PatternRow) (mask : UInt32)
    {row : Nat} (hrow : row < buffers.currentElems) :
    FillsRow child.numBigrams
      (slotValue child.bigrams fun f => f.jointRaw (p0.getD row []) p1 mask) (fun buf => do
        let srow ← readAt buffers.t1Buffer (row : Int)
        child.biStep1 p1 srow mask buf) := by
  rw [h.currentElems] at hrow
  obtain ⟨state, hread, hstored⟩ := h.bigrams row _ (PartialNgramFeatures.getD_of_lt hrow)
  intro buf hbuf
  simp only [hread, Option.bind_eq_bind, Option.bind_some]
  exact PartialNgramFeatures.fillsRow_biStep1 h.targets hstored buf hbuf

theorem fillsRow_triStep2 (h : Stepped child stats p0 buffers) {p1 : PatternRow}
    (htri : SteppedTri child p0 p1 buffers) (p2 : PatternRow) (mask : UInt32) {row : Nat}
    (hrow : row < buffers.currentElems) :
    FillsRow child.numTrigrams
      (slotValue child.trigrams fun f => f.jointRaw (p0.getD row []) p1 p2 mask) (fun buf => do
        let srow ← readAt buffers.t2Buffer2 (row : Int)
        child.triStep2 p2 srow mask buf) := by
  rw [h.currentElems] at hrow
  obtain ⟨state, hread, hstored⟩ := htri row _ (PartialNgramFeatures.getD_of_lt hrow)
  intro buf hbuf
  simp only [hread, Option.bind_eq_bind, Option.bind_some]
  exact PartialNgramFeatures.fillsRow_triStep2 h.targets hstored buf hbuf

/-- What the second bigram step and the third trigram step do. -/
def AddsScores (buffers : FeatureBuffer) (p0 : List PatternRow) (score : PatternRow → Score)
    (scores : List Score) (run : Option (FeatureBuffer × List Score)) : Prop :=
  ∃ values, run = some ({ buffers with valueBuffer := values },
      overwrite (fun row x => x + score (p0.getD row [])) p0.length scores) ∧
    ∀ b, (values b).length = (buffers.valueBuffer b).length

theorem addsScores_nil (h : Stepped child stats p0 buffers) (hzero : buffers.currentElems = 0)
    (score : PatternRow → Score) (scores : List Score) :
    AddsScores buffers p0 score scores (some (buffers, scores)) := by
  rw [h.currentElems] at hzero
  refine ⟨buffers.valueBuffer, ?_, fun _ => rfl⟩
  rw [hzero, overwrite_zero]

theorem applyBiStep2 (h : Stepped child stats p0 buffers) (p1 : PatternRow)
    {scores : List Score} (hscores : p0.length ≤ scores.length) :
    AddsScores buffers p0 (fun t0 => (child.scorer weights).bi t0 p1) scores
      (child.applyBiStep2 buffers p1 weights scores) := by
  unfold PartialNgramFeatures.applyBiStep2
  rw [← h.currentElems] at hscores
  by_cases hzero : buffers.currentElems = 0
  · rw [if_pos hzero]
    exact h.addsScores_nil hzero _ scores
  · obtain ⟨values, hrows, hlen⟩ := scoreRows_spec weights
      (fun score x => x + score) (Nat.pos_of_ne_zero hzero) (fun b => (h.le_valueBuffer b).1)
      hscores (fun row hrow => h.fillsRow_biStep1 p1 weights.mask hrow)
      fun row => PartialNgramFeatures.inRange_bigrams _ p1
    refine ⟨values, ?_, hlen⟩
    simp only [PartialNgramFeatures.rowScore_bigrams] at hrows
    rw [if_neg hzero, hrows, h.currentElems]
    rfl

theorem applyTriStep3 (h : Stepped child stats p0 buffers) {p1 : PatternRow}
    (htri : SteppedTri child p0 p1 buffers) (p2 : PatternRow) {scores : List Score}
    (hscores : p0.length ≤ scores.length) :
    AddsScores buffers p0 (fun t0 => (child.scorer weights).tri t0 p1 p2) scores
      (child.applyTriStep3 buffers p2 weights scores) := by
  unfold PartialNgramFeatures.applyTriStep3
  rw [← h.currentElems] at hscores
  by_cases hzero : buffers.currentElems = 0
  · rw [if_pos hzero]
    exact h.addsScores_nil hzero _ scores
  · obtain ⟨values, hrows, hlen⟩ := scoreRows_spec weights
      (fun score x => x + score) (Nat.pos_of_ne_zero hzero) (fun b => (h.le_valueBuffer b).2)
      hscores (fun row hrow => h.fillsRow_triStep2 htri p2 weights.mask hrow)
      fun row => PartialNgramFeatures.inRange_trigrams _ p1 p2
    refine ⟨values, ?_, hlen⟩
    simp only [PartialNgramFeatures.rowScore_trigrams] at hrows
    rw [if_neg hzero, hrows, h.currentElems]
    rfl

/-- One feature of the unrolled loop. -/
theorem slotStep {F : Type} {features : List F} {target : F → Nat} {value : F → UInt32}
    {step : F → List UInt32 → Option (List UInt32)}
    (htarget : ∀ (i : Nat) (h : i < features.length), target features[i] = i)
    (hstep : ∀ f ∈ features, ∀ buf, step f buf = writeAt buf (target f) (value f)) {i : Nat}
    (hi : i < features.length) (buf : List UInt32) :
    (features[i]?).bind (fun f => step f buf) =
      writeAt buf i (slotValue features value i) := by
  rw [List.getElem?_eq_getElem hi, Option.bind_some, hstep _ (List.getElem_mem hi),
    htarget i hi, slotValue_getElem value hi]

theorem biStep1_slot (h : Stepped child stats p0 buffers) (p1 : PatternRow) (mask : UInt32)
    {row : Nat} (hrow : row < buffers.currentElems) {i : Nat} (hi : i < child.numBigrams)
    (buf : List UInt32) :
    (do
      let srow ← readAt buffers.t1Buffer (row : Int)
      let bi ← child.bigrams[i]?
      bi.step1 p1 srow buf mask) =
    writeAt buf i (slotValue child.bigrams (fun f => f.jointRaw (p0.getD row []) p1 mask) i) := by
  rw [h.currentElems] at hrow
  obtain ⟨state, hread, hstored⟩ := h.bigrams row _ (PartialNgramFeatures.getD_of_lt hrow)
  simp only [hread, Option.bind_eq_bind, Option.bind_some]
  exact slotStep h.targets.bigrams (PartialNgramFeatures.step1_stored hstored) hi buf

theorem triStep2_slot (h : Stepped child stats p0 buffers) {p1 : PatternRow}
    (htri : SteppedTri child p0 p1 buffers) (p2 : PatternRow) (mask : UInt32) {row : Nat}
    (hrow : row < buffers.currentElems) {i : Nat} (hi : i < child.numTrigrams)
    (buf : List UInt32) :
    (do
      let srow ← readAt buffers.t2Buffer2 (row : Int)
      let tri ← child.trigrams[i]?
      tri.step2 p2 srow buf mask) =
    writeAt buf i
      (slotValue child.trigrams (fun f => f.jointRaw (p0.getD row []) p1 p2 mask) i) := by
  rw [h.currentElems] at hrow
  obtain ⟨state, hread, hstored⟩ := htri row _ (PartialNgramFeatures.getD_of_lt hrow)
  simp only [hread, Option.bind_eq_bind, Option.bind_some]
  exact slotStep h.targets.trigrams (PartialNgramFeatures.step2_stored hstored) hi buf

theorem printer_applyBiStep2 (h : Stepped child stats p0 buffers) (p1 : PatternRow)
    {scores : List Score} (hscores : p0.length ≤ scores.length) :
    AddsScores buffers p0 (fun t0 => (child.scorer weights).bi t0 p1) scores
      (PartialNgramPrinter.applyBiStep2 child buffers p1 weights scores) := by
  unfold PartialNgramPrinter.applyBiStep2
  rw [← h.currentElems] at hscores
  by_cases hzero : buffers.currentElems = 0
  · rw [if_pos hzero]
    exact h.addsScores_nil hzero _ scores
  · have hpos := Nat.pos_of_ne_zero hzero
    obtain ⟨values, hrows, hlen⟩ := scoreRowsUnrolled_spec
      (v := fun row => slotValue child.bigrams fun f => f.jointRaw (p0.getD row []) p1 weights.mask)
      hpos (fun b => (h.le_valueBuffer b).1) hscores (h.fillsRow_biStep1 p1 weights.mask hpos)
      (fun row hrow i hi buf => h.biStep1_slot p1 weights.mask hrow hi buf)
      fun row => PartialNgramFeatures.inRange_bigrams _ p1
    refine ⟨values, ?_, hlen⟩
    simp only [PartialNgramFeatures.rowScore_bigrams] at hrows
    rw [if_neg hzero, hrows, h.currentElems]
    rfl

theorem printer_applyTriStep3 (h : Stepped child stats p0 buffers) {p1 : PatternRow}
    (htri : SteppedTri child p0 p1 buffers) (p2 : PatternRow) {scores : List Score}
    (hscores : p0.length ≤ scores.length) :
    AddsScores buffers p0 (fun t0 => (child.scorer weights).tri t0 p1 p2) scores
      (PartialNgramPrinter.applyTriStep3 child buffers p2 weights scores) := by
  unfold PartialNgramPrinter.applyTriStep3
  rw [← h.currentElems] at hscores
  by_cases hzero : buffers.currentElems = 0
  · rw [if_pos hzero]
    exact h.addsScores_nil hzero _ scores
  · have hpos := Nat.pos_of_ne_zero hzero
    obtain ⟨values, hrows, hlen⟩ := scoreRowsUnrolled_spec
      (v := fun row =>
        slotValue child.trigrams fun f => f.jointRaw (p0.getD row []) p1 p2 weights.mask)
      hpos (fun b => (h.le_valueBuffer b).2) hscores (h.fillsRow_triStep2 htri p2 weights.mask hpos)
      (fun row hrow i hi buf => h.triStep2_slot htri p2 weights.mask hrow hi buf)
      fun row => PartialNgramFeatures.inRange_trigrams _ p1 p2
    refine ⟨values, ?_, hlen⟩
    simp only [PartialNgramFeatures.rowScore_trigrams] at hrows
    rw [if_neg hzero, hrows, h.currentElems]
    rfl

end Stepped

/-! ## Against a list of predecessors -/

/-- The score of the node `t0` in row `i`. -/
def pairScore (scorer : FeatureScorer PatternRow) (t1 t2 : List PatternRow) (t1idxes : List Nat)
    (t0 : PatternRow) (i : Nat) : Score :=
  scorer.bi t0 (t1.getD (t1idxes.getD i 0) []) +
    scorer.tri t0 (t1.getD (t1idxes.getD i 0) []) (t2.getD i [])

section BiTri

variable {child : PartialNgramFeatures} {weights : WeightBuffer} {stats : AnalysisRunStats}
  {p0 t1 t2 : List PatternRow} {t1idxes : List Nat} {buffers : FeatureBuffer}

theorem fillsRow_biRow (htargets : child.Targets) (t0 : PatternRow) (mask : UInt32) {row : Nat}
    (hrow : row < t1.length) :
    FillsRow child.numBigrams
      (slotValue child.bigrams fun f => f.jointRaw t0 (t1.getD row []) mask) (fun buf => do
        let t1v ← t1[row]?
        child.biFull t0 t1v mask buf) := by
  intro buf hbuf
  simp only [PartialNgramFeatures.getD_of_lt hrow, Option.bind_eq_bind, Option.bind_some]
  exact PartialNgramFeatures.fillsRow_biFull htargets t0 (t1.getD row []) mask buf hbuf

theorem TriRows.getD_row (hrows : TriRows t1 t2 t1idxes) {row : Nat} (hrow : row < t2.length) :
    t1idxes[row]? = some (t1idxes.getD row 0) ∧ t1idxes.getD row 0 < t1.length ∧
      t1[t1idxes.getD row 0]? = some (t1.getD (t1idxes.getD row 0) []) ∧
      t2[row]? = some (t2.getD row []) := by
  obtain ⟨t1idx, t1row, t2row, hidx, hlt, hrow1, hrow2⟩ := hrows.exists_row hrow
  have hD : t1idxes.getD row 0 = t1idx := by simp [List.getD_eq_getElem?_getD, hidx]
  rw [hD]
  exact ⟨hidx, hlt, PartialNgramFeatures.getD_of_lt hlt, PartialNgramFeatures.getD_of_lt hrow⟩

theorem fillsRow_triRow (htargets : child.Targets) (hrows : TriRows t1 t2 t1idxes)
    (t0 : PatternRow) (mask : UInt32) {row : Nat} (hrow : row < t2.length) :
    FillsRow child.numTrigrams
      (slotValue child.trigrams fun f =>
        f.jointRaw t0 (t1.getD (t1idxes.getD row 0) []) (t2.getD row []) mask) (fun buf => do
        let t1idx ← t1idxes[row]?
        let t1v ← t1[t1idx]?
        let t2v ← t2[row]?
        child.triFull t0 t1v t2v mask buf) := by
  obtain ⟨hidx, _, hrow1, hrow2⟩ := hrows.getD_row hrow
  intro buf hbuf
  simp only [hidx, hrow1, hrow2, Option.bind_eq_bind, Option.bind_some]
  exact PartialNgramFeatures.fillsRow_triFull htargets t0 _ _ mask buf hbuf

/-- The bigram scores are spread over the rows that refer to them. -/
theorem spreadScores (biScore : Nat → Score) {scoreBuffer result : List Score}
    (hrows : TriRows t1 t2 t1idxes) (hscores : t1.length ≤ scoreBuffer.length)
    (hresult : t2.length ≤ result.length) :
    forRange (fun (i : Nat) result => do
      let t1idx ← t1idxes[i]?
      let score ← readAt (overwrite (fun row _ => biScore row) t1.length scoreBuffer) (t1idx : Int)
      writeAt result (i : Int) score) 0 t1idxes.length result =
      some (overwrite (fun i _ => biScore (t1idxes.getD i 0)) t2.length result) := by
  rw [hrows.length_eq]
  conv_rhs => rw [← Nat.zero_add t2.length]
  conv_lhs => rw [← overwrite_zero (fun i _ => biScore (t1idxes.getD i 0)) result]
  apply forRange_eq _ _ _ fun i => overwrite (fun i _ => biScore (t1idxes.getD i 0)) i result
  intro i _ hi
  obtain ⟨hidx, hlt, _, _⟩ := hrows.getD_row (show i < t2.length by omega)
  have hlt' : t1idxes.getD i 0 < scoreBuffer.length := by omega
  have hread : (overwrite (fun row _ => biScore row) t1.length scoreBuffer)[t1idxes.getD i 0]? =
      some (biScore (t1idxes.getD i 0)) := by
    rw [getElem?_overwrite, List.getElem?_eq_getElem hlt']
    simp only [hlt, ↓reduceIte, Option.map_some]
  have hwrite := writeAt_overwrite (fun i => biScore (t1idxes.getD i 0))
    (show i < result.length by omega)
  rw [hidx, Option.bind_eq_bind, Option.bind_some, readAt_natCast, hread, Option.bind_eq_bind,
    Option.bind_some, hwrite]

theorem applyBiTri_spec (weights : WeightBuffer) {result : List Score} (htargets : child.Targets)
    (hbuffers : buffers.Allocated child stats) (ht1 : t1.length ≤ stats.maxEnds)
    (hrows : TriRows t1 t2 t1idxes) (hresult : t2.length ≤ result.length) (t0 : PatternRow) :
    ∃ after, child.applyBiTri buffers t0 t1 t2 t1idxes weights result =
        some (after, overwrite (fun i _ =>
          pairScore (child.scorer weights) t1 t2 t1idxes t0 i) t2.length result) ∧
      after.scoreBuffer.drop t1.length = buffers.scoreBuffer.drop t1.length ∧
      (t2 = [] → after = buffers) := by
  unfold PartialNgramFeatures.applyBiTri
  rw [if_neg (by simp [hrows.length_eq])]
  by_cases hzero : t2.length = 0
  · refine ⟨buffers, ?_, rfl, fun _ => rfl⟩
    rw [if_pos hzero, hzero, overwrite_zero]
  · have hpos := Nat.pos_of_ne_zero hzero
    obtain ⟨_, hlt, _, _⟩ := hrows.getD_row hpos
    have ht1' : t1.length ≤ buffers.scoreBuffer.length := by
      rw [hbuffers.scoreBuffer]
      exact ht1
    have hnumBi : ∀ b, child.numBigrams ≤ (buffers.valueBuffer b).length := by
      intro b
      have hlen := hbuffers.valueBuffer b
      omega
    obtain ⟨values, hbi, hlen⟩ := scoreRows_spec weights (fun score _ => score)
      (show 0 < t1.length by omega) hnumBi ht1'
      (fun row hrow => fillsRow_biRow htargets t0 weights.mask hrow)
      fun row => PartialNgramFeatures.inRange_bigrams t0 _
    have hnumTri : ∀ b, child.numTrigrams ≤ (values b).length := by
      intro b
      have hlen' := hbuffers.valueBuffer b
      rw [hlen]
      omega
    have hspread := spreadScores (fun row => (child.scorer weights).bi t0 (t1.getD row []))
      hrows ht1' hresult
    have hresult' : t2.length ≤ (overwrite (fun i _ => (child.scorer weights).bi t0
        (t1.getD (t1idxes.getD i 0) [])) t2.length result).length := by
      rw [length_overwrite]
      exact hresult
    obtain ⟨values', htri, _⟩ := scoreRows_spec weights (fun score x => x + score) hpos hnumTri hresult'
      (fun row hrow => fillsRow_triRow htargets hrows t0 weights.mask hrow)
      fun row => PartialNgramFeatures.inRange_trigrams t0 _ _
    simp only [PartialNgramFeatures.rowScore_bigrams] at hbi
    simp only [PartialNgramFeatures.rowScore_trigrams, overwrite_overwrite] at htri
    refine ⟨{ buffers with
        valueBuffer := values'
        scoreBuffer := overwrite (fun row _ => (child.scorer weights).bi t0 (t1.getD row []))
          t1.length buffers.scoreBuffer }, ?_, drop_overwrite _ (Nat.le_refl _) _,
      fun h => absurd (by rw [h]; rfl) hzero⟩
    rw [if_neg hzero, hbi, Option.bind_eq_bind, Option.bind_some]
    simp only [hspread]
    rw [Option.bind_eq_bind, Option.bind_some, htri]
    rfl

theorem biValues_of_stored (weights : WeightBuffer) (htargets : child.Targets) {t0 : PatternRow} {state : List UInt64}
    (hstate : Stored child.bigrams (·.target) (·.state0 t0) state) :
    BiValues weights state t1 (child.bigrams.map (·.t1idx)) fun row =>
      slotValue child.bigrams fun f => f.jointRaw t0 (t1.getD row []) weights.mask := by
  intro row t1row hrow f hf
  rw [List.length_map] at hf
  have hstored := hstate _ (List.getElem_mem hf)
  simp only [htargets.bigrams f hf] at hstored
  have hD : t1.getD row [] = t1row := by simp [List.getD_eq_getElem?_getD, hrow]
  unfold kernelBiValue
  beta_reduce
  rw [hstored, slotValue_getElem _ hf, hD, readAt_natCast, List.getElem?_map,
    List.getElem?_eq_getElem hf]
  rfl

theorem triValues_of_stored (weights : WeightBuffer) (htargets : child.Targets) {t0 : PatternRow} {state : List UInt64}
    (hstate : Stored child.trigrams (·.target) (·.state0 t0) state) :
    TriValues weights state t1 t2 t1idxes (child.trigrams.map (·.t1idx))
      (child.trigrams.map (·.t2idx)) fun row =>
        slotValue child.trigrams fun f =>
          f.jointRaw t0 (t1.getD (t1idxes.getD row 0) []) (t2.getD row []) weights.mask := by
  intro row t1idx t1row t2row hidx hrow1 hrow2 f hf
  rw [List.length_map] at hf
  have hstored := hstate _ (List.getElem_mem hf)
  simp only [htargets.trigrams f hf] at hstored
  have hD1 : t1.getD (t1idxes.getD row 0) [] = t1row := by
    simp [List.getD_eq_getElem?_getD, hidx, hrow1]
  have hD2 : t2.getD row [] = t2row := by simp [List.getD_eq_getElem?_getD, hrow2]
  unfold kernelTriValue
  beta_reduce
  rw [hstored, slotValue_getElem _ hf, hD1, hD2, readAt_natCast, readAt_natCast,
    List.getElem?_map, List.getElem?_map, List.getElem?_eq_getElem hf]
  rfl

/-- The indices that the warm-up rows of the kernel read are below the number of weights. -/
def KernelWarmup (child : PartialNgramFeatures) (weights : WeightBuffer)
    (t1 : List PatternRow) (buffers : FeatureBuffer) : Prop :=
  WarmupInRange weights child.numBigrams child.numTrigrams t1.length buffers.valueBuffer

theorem printer_applyBiTri_spec (h : Stepped child stats p0 buffers)
    (ht1 : t1.length ≤ stats.maxEnds) (hrows : TriRows t1 t2 t1idxes) {result : List Score}
    (hresult : t2.length ≤ result.length) (hne : t2 ≠ [])
    (hwarm : KernelWarmup child weights t1 buffers) {t0idx : Nat} {t0 : PatternRow}
    (ht0 : p0[t0idx]? = some t0) :
    ∃ after, PartialNgramPrinter.applyBiTri child buffers t0idx t1 t2 t1idxes weights result =
        some (after, overwrite (fun i _ =>
          pairScore (child.scorer weights) t1 t2 t1idxes t0 i) t2.length result) ∧
      after.scoreBuffer.drop t1.length = buffers.scoreBuffer.drop t1.length := by
  obtain ⟨hlt, _⟩ := List.getElem?_eq_some_iff.mp ht0
  obtain ⟨bistate, hbi, hbistored⟩ := h.bigrams t0idx t0 ht0
  obtain ⟨tristate, htri, htristored⟩ := h.trigrams t0idx t0 ht0
  have ht1' : t1.length ≤ buffers.scoreBuffer.length := by
    rw [h.allocated.scoreBuffer]
    exact ht1
  obtain ⟨values, hkernel⟩ := applyBiTriFullKernel_spec hrows (List.length_pos_iff.mpr hne)
    (biValues_of_stored weights h.targets hbistored)
    (triValues_of_stored weights h.targets htristored)
    (fun row => PartialNgramFeatures.inRange_bigrams t0 _)
    (fun row => PartialNgramFeatures.inRange_trigrams t0 _ _) ht1' hresult
    (fun b => by rw [List.length_map]; exact (h.le_valueBuffer b).1)
    (fun b => by rw [List.length_map]; exact (h.le_valueBuffer b).2)
    (by rw [List.length_map, List.length_map]; exact hwarm)
  simp only [List.length_map] at hkernel
  have hscoreBi := fun t1 =>
    PartialNgramFeatures.rowScore_bigrams child weights t0 t1
  have hscoreTri := fun t1 t2 =>
    PartialNgramFeatures.rowScore_trigrams child weights t0 t1 t2
  unfold PartialNgramFeatures.numBigrams at hscoreBi
  unfold PartialNgramFeatures.numTrigrams at hscoreTri
  simp only [hscoreBi, hscoreTri] at hkernel
  refine ⟨{ buffers with
      valueBuffer := values
      scoreBuffer := overwrite (fun row _ => (child.scorer weights).bi t0 (t1.getD row []))
        t1.length buffers.scoreBuffer }, ?_, drop_overwrite _ (Nat.le_refl _) _⟩
  have hread : ∀ {buffer : List (List UInt64)} {state : List UInt64},
      readAt buffer (t0idx : Int) = some state →
        readAt (buffer.take buffers.currentElems) (t0idx : Int) = some state := by
    intro buffer state hstate
    rw [readAt_natCast] at hstate ⊢
    rw [List.getElem?_take_of_lt (by rw [h.currentElems]; exact hlt), hstate]
  unfold PartialNgramPrinter.applyBiTri
  rw [hread hbi, hread htri, Option.bind_eq_bind, Option.bind_some, Option.bind_eq_bind,
    Option.bind_some, hkernel]
  rfl

theorem warmup_of_printer_applyBiTri (h : Stepped child stats p0 buffers)
    (ht1 : t1.length ≤ stats.maxEnds) (hrows : TriRows t1 t2 t1idxes) {result : List Score}
    {t0idx : Nat} {t0 : PatternRow} (ht0 : p0[t0idx]? = some t0)
    {s : FeatureBuffer × List Score}
    (hrun : PartialNgramPrinter.applyBiTri child buffers t0idx t1 t2 t1idxes weights result =
      some s) : t2 ≠ [] ∧ KernelWarmup child weights t1 buffers := by
  obtain ⟨hlt, _⟩ := List.getElem?_eq_some_iff.mp ht0
  obtain ⟨bistate, hbi, hbistored⟩ := h.bigrams t0idx t0 ht0
  have ht1' : t1.length ≤ buffers.scoreBuffer.length := by
    rw [h.allocated.scoreBuffer]
    exact ht1
  have hread : readAt (buffers.t1Buffer.take buffers.currentElems) (t0idx : Int) =
      some bistate := by
    rw [readAt_natCast] at hbi ⊢
    rw [List.getElem?_take_of_lt (by rw [h.currentElems]; exact hlt), hbi]
  unfold PartialNgramPrinter.applyBiTri at hrun
  simp only [hread, Option.bind_eq_bind, Option.bind_some, Option.bind_eq_some_iff] at hrun
  obtain ⟨tristate, _, state, hkernel, _⟩ := hrun
  have hwarm := warmupInRange_of_kernel hrows
    (biValues_of_stored weights h.targets hbistored)
    (fun row => PartialNgramFeatures.inRange_bigrams t0 _) ht1'
    (fun b => by rw [List.length_map]; exact (h.le_valueBuffer b).1) hkernel
  rw [List.length_map, List.length_map] at hwarm
  exact hwarm

end BiTri

end Jumanpp.Core.Features
