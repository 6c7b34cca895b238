import Jumanpp.Rnn.MikolovMaxent

/-!
# Steps of the network, one by one and many at once

A buffer of floats is seen as a matrix whose columns stand one behind the other.  `MikolovRnnImpl`
makes one step for a beam of contexts with a common left word, `MikolovRnnImplParallel` any number of
steps, each with its own left and right word.
-/

namespace Jumanpp.Rnn.Mikolov

open Jumanpp.Lib

/-! ## Buffers as rows and as matrices -/

/-- `Sliceable` and `ConstSliceable`. -/
structure Sliceable (α : Type) where
  data : List α
  rowSize : Nat
  numRows : Nat

/-- `length` elements from `start` on. -/
def slice {α : Type} (l : List α) (start length : Nat) : List α := (l.drop start).take length

def Sliceable.row {α : Type} (s : Sliceable α) (i : Nat) : List α :=
  slice s.data (s.rowSize * i) s.rowSize

/-- The slice is overwritten. -/
def writeSlice {α : Type} (l : List α) (start : Nat) (values : List α) : List α :=
  l.take start ++ values ++ l.drop (start + values.length)

/-! ## Blocks of one size -/

section Blocks

variable {α β ι : Type}

theorem slice_flatMap {size : Nat} {f : ι → List α} {l : List ι}
    (h : ∀ x ∈ l, (f x).length = size) {i : Nat} (hi : i < l.length) :
    slice (l.flatMap f) (size * i) size = f l[i] := by
  induction l generalizing i with
  | nil => cases hi
  | cons x l ih =>
      have hx : (f x).length = size := h x (by simp)
      have hrest : ∀ y ∈ l, (f y).length = size := fun y hy => h y (List.mem_cons_of_mem x hy)
      cases i with
      | zero =>
          rw [slice, Nat.mul_zero, List.drop_zero, List.flatMap_cons, List.take_left' hx]
          rfl
      | succ i =>
          have hskip : size * (i + 1) = (f x).length + size * i := by
            rw [hx]
            ring
          rw [slice, List.flatMap_cons, hskip, List.drop_length_add_append]
          exact ih hrest (Nat.lt_of_succ_lt_succ hi)

theorem getD_slice {l : List α} {start length i : Nat} (hi : i < length) (d : α) :
    (slice l start length).getD i d = l.getD (start + i) d := by
  rw [slice, List.getD_eq_getElem?_getD, List.getD_eq_getElem?_getD, List.getElem?_take_of_lt hi,
    List.getElem?_drop]

/-- An element of a block by its place in the whole. -/
theorem getD_flatMap {size : Nat} {f : ι → List α} {l : List ι}
    (h : ∀ x ∈ l, (f x).length = size) {i r : Nat} (hi : i < l.length) (hr : r < size) (d : α) :
    (l.flatMap f).getD (i * size + r) d = (f l[i]).getD r d := by
  rw [← slice_flatMap h hi, getD_slice hr, Nat.mul_comm]

theorem slice_map_one (f : ι → α) {l : List ι} {i : Nat} (hi : i < l.length) :
    slice (l.map f) i 1 = [f l[i]] := by
  have hblocks := @slice_flatMap α ι 1 (fun x => [f x]) l (by simp) i hi
  rwa [Nat.one_mul, ← List.map_eq_flatMap] at hblocks

theorem slice_all {l : List α} {size : Nat} (h : l.length = size) : slice l 0 size = l := by
  rw [slice, List.drop_zero, ← h, List.take_length]

theorem map_range_eq {l : List ι} {f : Nat → α} {g : ι → α}
    (h : ∀ (i : Nat) (hi : i < l.length), f i = g l[i]) : (List.range l.length).map f = l.map g := by
  apply List.ext_getElem
  · simp
  · intro i hi _
    simpa using h i (by simpa using hi)

theorem flatMap_range_eq {l : List ι} {f : Nat → List α} {g : ι → List α}
    (h : ∀ (i : Nat) (hi : i < l.length), f i = g l[i]) :
    (List.range l.length).flatMap f = l.flatMap g := by
  rw [List.flatMap, List.flatMap, map_range_eq h]

end Blocks

section Network

variable {F : Type} [CommRing F]

/-- `asMatrix`, with the columns of a buffer. -/
structure MatrixMap (F : Type) where
  data : List F
  rows : Nat

def MatrixMap.entry (m : MatrixMap F) (r c : Nat) : F := m.data.getD (c * m.rows + r) 0

/-- What is stored when a matrix is assigned. -/
def ofEntries (rows cols : Nat) (f : Nat → Nat → F) : List F :=
  (List.range cols).flatMap fun c => (List.range rows).map fun r => f r c

/-- An entry of `a.transpose() * b`. -/
def transposeMul (a b : MatrixMap F) (r c : Nat) : F :=
  ((List.range a.rows).map fun k => a.entry k r * b.entry k c).sum

/-- `MikolovRnn`, with exact numbers. -/
structure Network (F : Type) where
  layerSize : Nat
  maxentSize : UInt64
  vocabSize : UInt64
  weights : List F
  maxentWeights : List F
  rnnNceConstant : F
  /-- `1 / (1 + exp(-x))`. -/
  activation : F → F

structure StepData (F : Type) where
  contextIds : Sliceable Int32
  rightIds : List Int32
  context : Sliceable F
  leftEmbedding : List F
  rightEmbeddings : Sliceable F
  beamContext : Sliceable F
  scores : Sliceable F

structure ParallelContextData (F : Type) where
  context : Sliceable F
  leftEmbeds : Sliceable F
  newContext : Sliceable F

structure ParallelStepData (F : Type) where
  contextIds : Sliceable Int32
  rightIds : List Int32
  context : Sliceable F
  nceEmbeds : Sliceable F
  scores : List F

variable (rnn : Network F)

def Network.calculator : MikolovIndexCalculator :=
  .ofSizes rnn.maxentSize rnn.vocabSize

namespace MikolovRnnImpl

def computeNewContext (data : StepData F) : StepData F :=
  let esize := rnn.layerSize
  let nnWeight : MatrixMap F := ⟨rnn.weights, esize⟩
  let beamSize := data.beamContext.numRows
  let oldCtx : MatrixMap F := ⟨data.context.data, esize⟩
  let myEmb : MatrixMap F := ⟨data.leftEmbedding, esize⟩
  { data with
    beamContext.data := ofEntries esize beamSize fun r c =>
      rnn.activation (transposeMul nnWeight oldCtx r c + myEmb.entry r 0) }

def computeContextScores (data : StepData F) : StepData F :=
  let beamSize := data.context.numRows
  let numEntries := data.scores.rowSize
  let esize := rnn.layerSize
  let context : MatrixMap F := ⟨data.beamContext.data, esize⟩
  let embeddings : MatrixMap F := ⟨data.rightEmbeddings.data, esize⟩
  { data with scores.data := ofEntries numEntries beamSize (transposeMul embeddings context) }

def computeMaxentScores (data : StepData F) : Except MaxentFault (StepData F) := do
  let scores ← (List.range data.contextIds.numRows).foldlM (fun scorePack beam => do
    let start := data.scores.rowSize * beam
    let scores ← rnn.calculator.addScores (data.contextIds.row beam) data.rightIds
      rnn.maxentWeights (slice scorePack start data.scores.rowSize)
    return writeSlice scorePack start scores) data.scores.data
  return { data with scores.data := scores }

def applyNceConstant (data : StepData F) : StepData F :=
  { data with scores.data := data.scores.data.map fun score => score - rnn.rnnNceConstant }

def apply (data : StepData F) : Except MaxentFault (StepData F) := do
  let data := computeNewContext rnn data
  let data := computeContextScores rnn data
  let data ← computeMaxentScores rnn data
  return applyNceConstant rnn data

end MikolovRnnImpl

namespace MikolovRnnImplParallel

def computeNewContext (data : ParallelContextData F) : ParallelContextData F :=
  let esize := rnn.layerSize
  let nnWeight : MatrixMap F := ⟨rnn.weights, esize⟩
  let numItems := data.context.numRows
  let oldCtx : MatrixMap F := ⟨data.context.data, esize⟩
  let myEmb : MatrixMap F := ⟨data.leftEmbeds.data, esize⟩
  { data with
    newContext.data := ofEntries esize numItems fun r c =>
      rnn.activation (transposeMul nnWeight oldCtx r c + myEmb.entry r c) }

def computeContextScores (data : ParallelStepData F) : ParallelStepData F :=
  let numEntries := data.scores.length
  let esize := rnn.layerSize
  let context : MatrixMap F := ⟨data.context.data, esize⟩
  let embeddings : MatrixMap F := ⟨data.nceEmbeds.data, esize⟩
  -- the sum of each column of the products
  { data with
    scores := ofEntries 1 numEntries fun _ c =>
      ((List.range esize).map fun k => embeddings.entry k c * context.entry k c).sum }

def computeMaxentScores (data : ParallelStepData F) :
    Except MaxentFault (ParallelStepData F) := do
  let scores ← (List.range data.rightIds.length).foldlM (fun scorePack item => do
    let scores ← rnn.calculator.addScores (data.contextIds.row item) (slice data.rightIds item 1)
      rnn.maxentWeights (slice scorePack item 1)
    return writeSlice scorePack item scores) data.scores
  return { data with scores := scores }

def applyNceConstant (data : ParallelStepData F) : ParallelStepData F :=
  { data with scores := data.scores.map fun score => score - rnn.rnnNceConstant }

def apply (data : ParallelStepData F) : Except MaxentFault (ParallelStepData F) := do
  let data := computeContextScores rnn data
  let data ← computeMaxentScores rnn data
  return applyNceConstant rnn data

end MikolovRnnImplParallel

/-! ## Items -/

/-- What one step needs; the vectors have the size of a layer. -/
structure Item (F : Type) where
  leftEmbedding : List F
  oldContext : List F
  contextIds : List Int32
  rightId : Int32
  rightEmbedding : List F

/-- The item as a step with a beam of one. -/
def Item.stepData (item : Item F) : StepData F where
  contextIds := ⟨item.contextIds, item.contextIds.length, 1⟩
  rightIds := [item.rightId]
  context := ⟨item.oldContext, rnn.layerSize, 1⟩
  leftEmbedding := item.leftEmbedding
  rightEmbeddings := ⟨item.rightEmbedding, rnn.layerSize, 1⟩
  beamContext := ⟨List.replicate rnn.layerSize 0, rnn.layerSize, 1⟩
  scores := ⟨[0], 1, 1⟩

/-- The new context and the score. -/
def Item.step (item : Item F) : Except MaxentFault (List F × List F) := do
  let data ← MikolovRnnImpl.apply rnn (item.stepData rnn)
  return (data.beamContext.row 0, data.scores.row 0)

/-- The items one behind the other. -/
def contextData (items : List (Item F)) : ParallelContextData F where
  context := ⟨items.flatMap Item.oldContext, rnn.layerSize, items.length⟩
  leftEmbeds := ⟨items.flatMap Item.leftEmbedding, rnn.layerSize, items.length⟩
  newContext := ⟨List.replicate (rnn.layerSize * items.length) 0, rnn.layerSize, items.length⟩

def parallelData (width : Nat) (items : List (Item F)) (newContext : Sliceable F) :
    ParallelStepData F where
  contextIds := ⟨items.flatMap Item.contextIds, width, items.length⟩
  rightIds := items.map Item.rightId
  context := newContext
  nceEmbeds := ⟨items.flatMap Item.rightEmbedding, rnn.layerSize, items.length⟩
  scores := List.replicate items.length 0

/-- The new context and the score of each item. -/
def stepAll (width : Nat) (items : List (Item F)) :
    Except MaxentFault (List (List F × List F)) := do
  let contexts := MikolovRnnImplParallel.computeNewContext rnn (contextData rnn items)
  let data ← MikolovRnnImplParallel.apply rnn (parallelData rnn width items contexts.newContext)
  return (List.range items.length).map fun i =>
    (contexts.newContext.row i, slice data.scores i 1)

/-- The sizes that the buffers are made for. -/
structure Item.Fits (width : Nat) (item : Item F) : Prop where
  leftEmbedding : item.leftEmbedding.length = rnn.layerSize
  oldContext : item.oldContext.length = rnn.layerSize
  contextIds : item.contextIds.length = width
  rightEmbedding : item.rightEmbedding.length = rnn.layerSize

/-! ## The new contexts -/

def newContextOf (item : Item F) : List F :=
  (List.range rnn.layerSize).map fun r =>
    rnn.activation (transposeMul ⟨rnn.weights, rnn.layerSize⟩ ⟨item.oldContext, rnn.layerSize⟩ r 0 +
      item.leftEmbedding.getD r 0)

theorem length_newContextOf (item : Item F) : (newContextOf rnn item).length = rnn.layerSize := by
  rw [newContextOf, List.length_map, List.length_range]

omit [CommRing F] in
theorem ofEntries_one_col (rows : Nat) (f : Nat → Nat → F) :
    ofEntries rows 1 f = (List.range rows).map fun r => f r 0 := by
  simp [ofEntries]

theorem entry_block {size : Nat} {f : Item F → List F} {items : List (Item F)}
    (h : ∀ item ∈ items, (f item).length = size) {i r : Nat} (hi : i < items.length)
    (hr : r < size) :
    MatrixMap.entry ⟨items.flatMap f, size⟩ r i = MatrixMap.entry ⟨f items[i], size⟩ r 0 := by
  rw [MatrixMap.entry, MatrixMap.entry, getD_flatMap h hi hr, Nat.zero_mul, Nat.zero_add]

theorem transposeMul_block (a : MatrixMap F) {f : Item F → List F} {items : List (Item F)}
    (h : ∀ item ∈ items, (f item).length = a.rows) {i : Nat} (hi : i < items.length) (r : Nat) :
    transposeMul a ⟨items.flatMap f, a.rows⟩ r i = transposeMul a ⟨f items[i], a.rows⟩ r 0 := by
  unfold transposeMul
  congr 1
  apply List.map_congr_left
  intro k hk
  rw [entry_block h hi (List.mem_range.mp hk)]

variable {rnn} {width : Nat} {items : List (Item F)}

/-- Each column of the new contexts is made from the item's own columns. -/
theorem newContext_eq (hfits : ∀ item ∈ items, item.Fits rnn width) :
    (MikolovRnnImplParallel.computeNewContext rnn (contextData rnn items)).newContext.data =
      items.flatMap (newContextOf rnn) := by
  apply flatMap_range_eq
  intro i hi
  apply List.map_congr_left
  intro r hr
  have hold := transposeMul_block ⟨rnn.weights, rnn.layerSize⟩
    (fun item hitem => (hfits item hitem).oldContext) hi r
  have hleft := entry_block (fun item hitem => (hfits item hitem).leftEmbedding) hi
    (List.mem_range.mp hr)
  simp only [contextData, hold, hleft]
  rw [MatrixMap.entry, Nat.zero_mul, Nat.zero_add]

/-! ## The scores of the contexts -/

variable (rnn) in
def contextScoreOf (item : Item F) : F :=
  transposeMul ⟨item.rightEmbedding, rnn.layerSize⟩ ⟨newContextOf rnn item, rnn.layerSize⟩ 0 0

theorem contextScores_eq (hfits : ∀ item ∈ items, item.Fits rnn width) (newContext : Sliceable F)
    (hcontext : newContext.data = items.flatMap (newContextOf rnn)) :
    (MikolovRnnImplParallel.computeContextScores rnn
      (parallelData rnn width items newContext)).scores = items.map (contextScoreOf rnn) := by
  have hlength : (parallelData rnn width items newContext).scores.length = items.length :=
    List.length_replicate
  have hmap : items.map (contextScoreOf rnn) = items.flatMap fun item => [contextScoreOf rnn item] :=
    List.map_eq_flatMap
  rw [hmap]
  simp only [MikolovRnnImplParallel.computeContextScores, ofEntries, hlength]
  apply flatMap_range_eq
  intro i hi
  simp only [List.range_one, List.map_cons, List.map_nil, contextScoreOf, transposeMul,
    parallelData, hcontext]
  congr 2
  apply List.map_congr_left
  intro k hk
  have hright := entry_block (fun item hitem => (hfits item hitem).rightEmbedding) hi
    (List.mem_range.mp hk)
  have hnew := entry_block (fun item _ => length_newContextOf rnn item) hi (List.mem_range.mp hk)
  rw [hright, hnew]

/-! ## The direct scores -/

section Loops

variable {ε α β γ ι : Type}

theorem length_slice_one {l : List α} {i : Nat} (hi : i < l.length) : (slice l i 1).length = 1 := by
  rw [slice, List.length_take, List.length_drop]
  omega

theorem lengths_of_mapM {f : ι → Except ε (List α)} {l : List ι} {r : List (List α)}
    (h : l.mapM f = .ok r) (hf : ∀ x ∈ l, ∀ s, f x = .ok s → s.length = 1) :
    r.length = l.length ∧ ∀ s ∈ r, s.length = 1 := by
  induction l generalizing r with
  | nil =>
      cases h
      simp
  | cons x l ih =>
      rw [List.mapM_cons] at h
      obtain ⟨s, hs, h⟩ := bind_ok h
      obtain ⟨rest, hrest, h⟩ := bind_ok h
      cases h
      obtain ⟨hlength, hone⟩ := ih hrest fun y hy => hf y (List.mem_cons_of_mem x hy)
      exact ⟨by rw [List.length_cons, hlength, List.length_cons],
        List.forall_mem_cons.mpr ⟨hf x (by simp) s hs, hone⟩⟩

theorem length_flatten_one {r : List (List α)} (h : ∀ s ∈ r, s.length = 1) :
    r.flatten.length = r.length := by
  rw [List.length_flatten, List.map_congr_left h]
  simp

/-- A loop over the slots of a buffer that writes each of them once. -/
theorem foldlM_slots_eq {g : Nat → List α → Except ε (List α)} {scores : List α}
    (hg : ∀ i s r, g i s = .ok r → r.length = s.length) {n : Nat} (hn : n ≤ scores.length) :
    (List.range n).foldlM (fun pack i => do
        let s ← g i (slice pack i 1)
        return writeSlice pack i s) scores =
      ((List.range n).mapM fun i => g i (slice scores i 1)) >>= fun done =>
        .ok (done.flatten ++ scores.drop n) := by
  induction n with
  | zero => rfl
  | succ n ih =>
      rw [List.range_succ, List.foldlM_append, ih (by omega), List.mapM_append]
      cases hdone : (List.range n).mapM fun i => g i (slice scores i 1) with
      | error e => rfl
      | ok done =>
          obtain ⟨hcount, hones⟩ := lengths_of_mapM hdone fun i hi s hs => by
            rw [hg i _ s hs]
            exact length_slice_one (by rw [List.mem_range] at hi; omega)
          have hlength : done.flatten.length = n := by
            rw [length_flatten_one hones, hcount, List.length_range]
          have hslice : slice (done.flatten ++ scores.drop n) n 1 = slice scores n 1 := by
            rw [slice, slice, List.drop_left' hlength]
          simp only [ok_bind, List.foldlM_cons, List.foldlM_nil, List.mapM_cons, List.mapM_nil, hslice]
          cases hlast : g n (slice scores n 1) with
          | error e => rfl
          | ok s =>
              have hone : s.length = 1 := by
                rw [hg n _ s hlast]
                exact length_slice_one (by omega)
              -- the slot behind those that are done is written
              have hwrite : writeSlice (done.flatten ++ scores.drop n) n s =
                  (done ++ [s]).flatten ++ scores.drop (n + 1) := by
                rw [writeSlice, List.take_left' hlength, hone, List.flatten_append,
                  List.flatten_singleton, ← List.drop_drop, List.drop_left' hlength, List.drop_drop]
              simp only [ok_bind, pure, Except.pure, hwrite]

theorem mapM_range_eq {l : List ι} {f : Nat → Except ε β} {g : ι → Except ε β}
    (h : ∀ (i : Nat) (hi : i < l.length), f i = g l[i]) :
    (List.range l.length).mapM f = l.mapM g := by
  induction l using List.reverseRecOn with
  | nil => rfl
  | append_singleton l x ih =>
      have hinit : ∀ (i : Nat) (hi : i < l.length), f i = g l[i] := by
        intro i hi
        rw [h i (by simp; omega), List.getElem_append_left hi]
      have hlast : f l.length = g x := by
        rw [h l.length (by simp)]
        simp
      rw [List.length_append, List.length_singleton, List.range_succ, List.mapM_append,
        List.mapM_append, ih hinit]
      simp only [List.mapM_cons, List.mapM_nil, hlast]

/-- What is done with each result is done after all of them. -/
theorem mapM_bind {f : ι → Except ε β} {k : ι → β → γ} {l : List ι} :
    (l.mapM fun x => f x >>= fun b => .ok (k x b)) =
      l.mapM f >>= fun r => .ok (l.zipWith k r) := by
  induction l with
  | nil => rfl
  | cons x l ih =>
      rw [List.mapM_cons, List.mapM_cons, ih]
      cases f x with
      | error e => rfl
      | ok b =>
          simp only [ok_bind]
          cases l.mapM f with
          | error e => rfl
          | ok r => rfl

end Loops

theorem length_calculator_addScores {c : MikolovIndexCalculator} {context words : List Int32}
    {weights scores r : List F} (h : c.addScores context words weights scores = .ok r) :
    r.length = scores.length := by
  obtain ⟨_, -, h⟩ := bind_ok h
  exact MikolovScoreCalculator.length_addScores h

variable (rnn) in
/-- The score of the context and the direct score. -/
def scoreOf (item : Item F) : Except MaxentFault (List F) :=
  rnn.calculator.addScores item.contextIds [item.rightId] rnn.maxentWeights
    [contextScoreOf rnn item]

theorem length_scoreOf {item : Item F} {s : List F} (h : scoreOf rnn item = .ok s) :
    s.length = 1 :=
  length_calculator_addScores h

/-- The loop over the items takes the row, the word and the slot of one item in each turn. -/
theorem maxentScores_eq (hfits : ∀ item ∈ items, item.Fits rnn width) (newContext : Sliceable F) :
    MikolovRnnImplParallel.computeMaxentScores rnn
        { parallelData rnn width items newContext with scores := items.map (contextScoreOf rnn) } =
      items.mapM (scoreOf rnn) >>= fun done =>
        .ok { parallelData rnn width items newContext with scores := done.flatten } := by
  have hwords : (items.map Item.rightId).length = items.length := List.length_map _
  have hturn : ∀ (i : Nat) (hi : i < items.length),
      rnn.calculator.addScores ((parallelData rnn width items newContext).contextIds.row i)
        (slice (items.map Item.rightId) i 1) rnn.maxentWeights
        (slice (items.map (contextScoreOf rnn)) i 1) = scoreOf rnn items[i] := by
    intro i hi
    have hrow : (parallelData rnn width items newContext).contextIds.row i = items[i].contextIds :=
      slice_flatMap (fun item hitem => (hfits item hitem).contextIds) hi
    rw [hrow, slice_map_one _ hi, slice_map_one _ hi, scoreOf]
  have hloop := @foldlM_slots_eq MaxentFault F (fun item slot =>
    rnn.calculator.addScores ((parallelData rnn width items newContext).contextIds.row item)
      (slice (items.map Item.rightId) item 1) rnn.maxentWeights slot)
    (items.map (contextScoreOf rnn)) (fun _ _ _ h => length_calculator_addScores h) items.length
    (by rw [List.length_map])
  unfold MikolovRnnImplParallel.computeMaxentScores
  simp only [parallelData, hwords] at hloop hturn ⊢
  rw [hloop, mapM_range_eq hturn]
  cases hdone : items.mapM (scoreOf rnn) with
  | error e => rfl
  | ok done =>
      have hrest : (items.map (contextScoreOf rnn)).drop items.length = [] :=
        List.drop_eq_nil_of_le (by rw [List.length_map])
      simp only [ok_bind, hrest, List.append_nil]
      rfl

variable (rnn) in
def finishScore (scores : List F) : List F :=
  scores.map fun score => score - rnn.rnnNceConstant

variable (rnn) in
/-- A beam of one with its new context and with scores. -/
def Item.withScores (item : Item F) (scores : List F) : StepData F :=
  { item.stepData rnn with
    beamContext := ⟨newContextOf rnn item, rnn.layerSize, 1⟩
    scores := ⟨scores, 1, 1⟩ }

theorem contextStep_eq (item : Item F) :
    MikolovRnnImpl.computeContextScores rnn
        (MikolovRnnImpl.computeNewContext rnn (item.stepData rnn)) =
      item.withScores rnn [contextScoreOf rnn item] := by
  have hcontext : (MikolovRnnImpl.computeNewContext rnn (item.stepData rnn)).beamContext =
      ⟨newContextOf rnn item, rnn.layerSize, 1⟩ := by
    simp only [MikolovRnnImpl.computeNewContext, Item.stepData, ofEntries_one_col, newContextOf]
    congr 1
    apply List.map_congr_left
    intro r _
    rw [MatrixMap.entry, Nat.zero_mul, Nat.zero_add]
  unfold MikolovRnnImpl.computeContextScores Item.withScores
  rw [hcontext]
  simp only [MikolovRnnImpl.computeNewContext, Item.stepData, ofEntries_one_col, List.range_one,
    List.map_cons, List.map_nil, contextScoreOf]

theorem maxentStep_eq (item : Item F) :
    MikolovRnnImpl.computeMaxentScores rnn (item.withScores rnn [contextScoreOf rnn item]) =
      scoreOf rnn item >>= fun s => .ok (item.withScores rnn s) := by
  have hids : Sliceable.row ⟨item.contextIds, item.contextIds.length, 1⟩ 0 = item.contextIds :=
    slice_all rfl
  simp only [MikolovRnnImpl.computeMaxentScores, Item.withScores, Item.stepData, List.range_one,
    List.foldlM_cons, List.foldlM_nil, hids, Nat.mul_zero, slice_all (List.length_singleton)]
  change (((scoreOf rnn item >>= _) >>= _) >>= _) = _
  cases hscore : scoreOf rnn item with
  | error e => rfl
  | ok s =>
      have hwrite : writeSlice [contextScoreOf rnn item] 0 s = s := by
        rw [writeSlice, length_scoreOf hscore]
        simp
      simp only [ok_bind, hwrite]
      rfl

theorem step_eq (item : Item F) :
    item.step rnn = scoreOf rnn item >>= fun s =>
      .ok (newContextOf rnn item, finishScore rnn s) := by
  unfold Item.step MikolovRnnImpl.apply
  simp only [contextStep_eq, maxentStep_eq]
  cases hscore : scoreOf rnn item with
  | error e => rfl
  | ok s =>
      have hrow : slice (finishScore rnn s) 0 1 = finishScore rnn s :=
        slice_all (by rw [finishScore, List.length_map, length_scoreOf hscore])
      have hnew : slice (newContextOf rnn item) 0 rnn.layerSize = newContextOf rnn item :=
        slice_all (length_newContextOf rnn item)
      calc
        _ = Except.ok (slice (newContextOf rnn item) (rnn.layerSize * 0) rnn.layerSize,
              slice (finishScore rnn s) (1 * 0) 1) := rfl
        _ = _ := by rw [Nat.mul_zero, Nat.mul_zero, hnew, hrow, ok_bind]

theorem row_newContext (hfits : ∀ item ∈ items, item.Fits rnn width) {i : Nat}
    (hi : i < items.length) :
    (MikolovRnnImplParallel.computeNewContext rnn (contextData rnn items)).newContext.row i =
      newContextOf rnn items[i] := by
  unfold Sliceable.row
  rw [newContext_eq hfits]
  exact slice_flatMap (fun item _ => length_newContextOf rnn item) hi

theorem slice_finishScore {done : List (List F)} (hones : ∀ s ∈ done, s.length = 1) {i : Nat}
    (hi : i < done.length) :
    slice (finishScore rnn done.flatten) i 1 = finishScore rnn done[i] := by
  have hflat : finishScore rnn done.flatten = done.flatMap (finishScore rnn) := by
    rw [finishScore, List.map_flatten]
    rfl
  have hblock := @slice_flatMap F (List F) 1 (finishScore rnn) done
    (fun s hs => by rw [finishScore, List.length_map, hones s hs]) i hi
  rwa [Nat.one_mul, ← hflat] at hblock

/-- Many steps at once are the steps one by one: no item has a part in the result of another. -/
theorem stepAll_eq_mapM_step (rnn : Network F) (width : Nat) (items : List (Item F))
    (hfits : ∀ item ∈ items, item.Fits rnn width) :
    stepAll rnn width items = items.mapM (Item.step rnn) := by
  have hsteps : items.mapM (Item.step rnn) = items.mapM (scoreOf rnn) >>= fun done =>
      .ok (items.zipWith (fun item s => (newContextOf rnn item, finishScore rnn s)) done) := by
    rw [funext step_eq]
    exact mapM_bind
  have hscores := contextScores_eq hfits
    (MikolovRnnImplParallel.computeNewContext rnn (contextData rnn items)).newContext
    (newContext_eq hfits)
  have hmaxent := maxentScores_eq hfits
    (MikolovRnnImplParallel.computeNewContext rnn (contextData rnn items)).newContext
  have hdata : MikolovRnnImplParallel.computeContextScores rnn (parallelData rnn width items
        (MikolovRnnImplParallel.computeNewContext rnn (contextData rnn items)).newContext) =
      { parallelData rnn width items
          (MikolovRnnImplParallel.computeNewContext rnn (contextData rnn items)).newContext with
        scores := items.map (contextScoreOf rnn) } := by
    rw [← hscores]
    rfl
  rw [hsteps]
  unfold stepAll MikolovRnnImplParallel.apply
  simp only [hdata, hmaxent]
  cases hdone : items.mapM (scoreOf rnn) with
  | error e => rfl
  | ok done =>
      obtain ⟨hcount, hones⟩ := lengths_of_mapM hdone fun item _ s hs => length_scoreOf hs
      have hresults : (List.range items.length).map (fun i =>
          ((MikolovRnnImplParallel.computeNewContext rnn (contextData rnn items)).newContext.row i,
            slice (finishScore rnn done.flatten) i 1)) =
          items.zipWith (fun item s => (newContextOf rnn item, finishScore rnn s)) done := by
        apply List.ext_getElem
        · simp [hcount]
        · intro i hi _
          have hitem : i < items.length := by simpa using hi
          rw [List.getElem_map, List.getElem_range, List.getElem_zipWith, row_newContext hfits hitem,
            slice_finishScore hones (hcount ▸ hitem)]
      exact congrArg Except.ok hresults

/-- Two items with different left words. -/
def twoItems : List (Item Int) :=
  [⟨[1], [0], [], 0, [2]⟩, ⟨[3], [1], [], 1, [4]⟩]

def smallNetwork : Network Int where
  layerSize := 1
  maxentSize := 4
  vocabSize := 2
  weights := [1]
  maxentWeights := [5, 6, 0, 0]
  rnnNceConstant := 1
  activation x := 2 * x

theorem stepAll_eq_mapM_step_two :
    stepAll smallNetwork 0 twoItems = twoItems.mapM (Item.step smallNetwork) :=
  stepAll_eq_mapM_step smallNetwork 0 twoItems (by
    intro item hitem
    rcases List.mem_cons.mp hitem with rfl | hitem
    · exact ⟨rfl, rfl, rfl, rfl⟩
    · obtain rfl := List.mem_singleton.mp hitem
      exact ⟨rfl, rfl, rfl, rfl⟩)

end Network

end Jumanpp.Rnn.Mikolov
