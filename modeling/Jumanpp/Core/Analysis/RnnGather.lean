import Jumanpp.Core.Analysis.RnnChains
import Mathlib.Data.List.Forall2

/-!
# The rows that the RNN is given

A boundary is scored in one go: for each of its scores a row is written with the id of the node, the
ids before it, the state of the network before it and the embedding of the id.
-/

namespace Jumanpp.Core.Analysis.Rnn

/-! ## Buffers -/

section Buffers

variable {σ ρ : Type} {R : σ → ρ → Prop}

def copyBuffer (data result : List ρ) : List ρ :=
  data ++ result.drop data.length

theorem copyBuffer_of_length {data result : List ρ} (h : data.length = result.length) :
    copyBuffer data result = data := by
  unfold copyBuffer
  rw [h, List.drop_length, List.append_nil]

/-- One row for each element; there is no row behind the last one. -/
def writeRows (f : σ → ρ → Option ρ) : List σ → List ρ → Option (List ρ)
  | [], rows => some rows
  | _ :: _, [] => none
  | x :: xs, row :: rows => do
      let row ← f x row
      let rows ← writeRows f xs rows
      pure (row :: rows)

theorem writeRows_forall₂ {f : σ → ρ → Option ρ} {xs : List σ} {rows : List ρ}
    (hlength : xs.length ≤ rows.length)
    (hf : ∀ x ∈ xs, ∀ row ∈ rows, ∃ out, f x row = some out ∧ R x out) :
    ∃ out, writeRows f xs (rows.take xs.length) = some out ∧ List.Forall₂ R xs out := by
  induction xs generalizing rows with
  | nil => exact ⟨[], rfl, .nil⟩
  | cons x xs ih =>
      cases rows with
      | nil => cases hlength
      | cons row rows =>
          obtain ⟨first, hfirst, hR⟩ := hf x List.mem_cons_self row List.mem_cons_self
          obtain ⟨rest, hrest, hall⟩ := ih (Nat.le_of_succ_le_succ hlength) fun y hy r hr =>
            hf y (List.mem_cons_of_mem _ hy) r (List.mem_cons_of_mem _ hr)
          refine ⟨first :: rest, ?_, .cons hR hall⟩
          rw [List.length_cons, List.take_succ_cons, writeRows, hfirst, hrest]
          rfl

theorem forall₂_comp {τ : Type} {S : ρ → τ → Prop} {xs : List σ} {ys : List ρ} {zs : List τ}
    (hxy : List.Forall₂ R xs ys) (hyz : List.Forall₂ S ys zs) :
    List.Forall₂ (fun x z => ∃ y, R x y ∧ S y z) xs zs := by
  induction hxy generalizing zs with
  | nil =>
      cases hyz
      exact .nil
  | cons hR _ ih =>
      cases hyz with
      | cons hS hrest => exact .cons ⟨_, hR, hS⟩ (ih hrest)

end Buffers

/-! ## Gathering -/

/-- The buffers have a row for each element of the global beam.  The numbers of the network have the
type `E`; nothing is computed with them here. -/
structure GbeamRnnState (E : Type) where
  container : RnnIdContainer
  globalBeamSize : Nat
  embedSize : Nat
  maxentOrder : UInt32
  nceEmbeddings : List (List E)
  ctxIdBuf : List (List Int32)
  rightIdBuf : List Int32
  contextBuf : List (List E)
  embBuf : List (List E)
  contexts : List (List (List E))
  bos1_id : container.nodes[RnnIdContainer.bos1]?.map (·.id) = some 0
  ctxIdBuf_length : ctxIdBuf.length = globalBeamSize
  rightIdBuf_length : rightIdBuf.length = globalBeamSize
  contextBuf_length : contextBuf.length = globalBeamSize
  embBuf_length : embBuf.length = globalBeamSize
  ctxIdBuf_row : ∀ row ∈ ctxIdBuf, row.length = (maxentOrder - 1).toNat
  contextBuf_row : ∀ row ∈ contextBuf, row.length = embedSize
  embBuf_row : ∀ row ∈ embBuf, row.length = embedSize
  contexts_row : ∀ rows ∈ contexts, ∀ row ∈ rows, row.length = embedSize
  nceEmbeddings_row : ∀ row ∈ nceEmbeddings, row.length = embedSize

structure ParallelStepData (E : Type) where
  contextIds : List (List Int32)
  rightIds : List Int32
  context : List (List E)
  nceEmbeds : List (List E)

namespace GbeamRnnState

variable {E : Type} (st : GbeamRnnState E)

/-- Nothing stands for a pointer or a row that is not there. -/
def nodeOf (sc : RnnScorePtr) : Option RnnNode :=
  st.container.nodes[sc.rnn]?

def prevOf (sc : RnnScorePtr) : Option RnnNode := do
  let node ← st.nodeOf sc
  let prev ← node.prev
  st.container.nodes[prev]?

def gatherScoreIds (rbnd : RnnBoundary) : Option (List Int32) :=
  writeRows (fun sc _ => (st.nodeOf sc).map (·.id)) rbnd.scores (st.rightIdBuf.take rbnd.scoreCnt)

/-- The loop over the columns; `prev` stays where it is. -/
def prevStateRow (prev : Option RnnNode) : List Int32 → Option (List Int32)
  | [] => some []
  | _ :: row => do
      let node ← prev
      let row ← prevStateRow prev row
      pure (node.id :: row)

def gatherPrevStateIds (rbnd : RnnBoundary) : Option (List (List Int32)) :=
  writeRows (fun sc row => prevStateRow (st.prevOf sc) row) rbnd.scores
    (st.ctxIdBuf.take rbnd.scoreCnt)

def contextOf (prev : RnnNode) : Option (List E) := do
  let rows ← st.contexts[prev.boundary]?
  rows[prev.idx]?

def gatherScoreContext (rbnd : RnnBoundary) : Option (List (List E)) :=
  writeRows (fun sc ctxRow => do
      let prev ← st.prevOf sc
      let present ← st.contextOf prev
      pure (copyBuffer present ctxRow))
    rbnd.scores (st.contextBuf.take rbnd.scoreCnt)

/-- The row 0 stands for the id -1. -/
def nceEmbedOf (id : Int32) : Option (List E) :=
  if id = -1 then st.nceEmbeddings[0]?
  else if id < 0 then none
  else st.nceEmbeddings[id.toInt.toNat]?

def gatherNceEmbeds (ids : List Int32) : Option (List (List E)) :=
  writeRows (fun id target => do
      let embed ← st.nceEmbedOf id
      pure (copyBuffer embed target))
    ids (st.embBuf.take ids.length)

/-- What `scoreBoundary` applies the network to. -/
def parallelStepData (rbnd : RnnBoundary) : Option (ParallelStepData E) := do
  let rnnIds ← st.gatherScoreIds rbnd
  let contextIds ← st.gatherPrevStateIds rbnd
  let context ← st.gatherScoreContext rbnd
  let nceEmbeds ← st.gatherNceEmbeds rnnIds
  pure ⟨contextIds, rnnIds, context, nceEmbeds⟩

/-! ## The ids before a node -/

end GbeamRnnState

/-- The id of the predecessor `j + 1` of a node; `chain` are the coordinates before it. -/
def prevId (chain : List RnnCoordinate) (j : Nat) : Int32 :=
  (chain[j]?.map (·.rnnId)).getD 0

namespace GbeamRnnState

variable {E : Type} (st : GbeamRnnState E)

/-- The rows of the boundary, one below the other in the order of its scores. -/
structure Gathered (rbnd : RnnBoundary) (psd : ParallelStepData E) : Prop where
  rightIds : List.Forall₂ (fun sc id => (st.nodeOf sc).map (·.id) = some id)
    rbnd.scores psd.rightIds
  contextIds : List.Forall₂ (fun sc row => ∀ coord chain,
      HasChain st.container.nodes sc.rnn (coord :: chain) →
        row = (List.range (st.maxentOrder - 1).toNat).map (prevId chain))
    rbnd.scores psd.contextIds
  context : List.Forall₂ (fun sc row => (st.prevOf sc).bind st.contextOf = some row)
    rbnd.scores psd.context
  nceEmbeds : List.Forall₂ (fun sc row => (st.nodeOf sc).bind (st.nceEmbedOf ·.id) = some row)
    rbnd.scores psd.nceEmbeds

/-- The node of a score is on a chain, the network has its state before it, and its id is known. -/
structure Prepared (sc : RnnScorePtr) : Prop where
  chain : ∃ coord chain, HasChain st.container.nodes sc.rnn (coord :: chain)
  context : ∃ row, (st.prevOf sc).bind st.contextOf = some row
  embed : ∃ row, (st.nodeOf sc).bind (st.nceEmbedOf ·.id) = some row

variable {st}

/-- The first predecessor. -/
theorem prevOf_id {sc : RnnScorePtr} {coord : RnnCoordinate} {chain : List RnnCoordinate}
    (h : HasChain st.container.nodes sc.rnn (coord :: chain)) :
    ∃ prev, st.prevOf sc = some prev ∧ prev.id = prevId chain 0 := by
  unfold prevOf nodeOf
  generalize sc.rnn = ptr at h ⊢
  cases h with
  | node _ hnode hprev hchain =>
      rw [hnode, Option.bind_eq_bind, Option.bind_some, hprev, Option.bind_eq_bind,
        Option.bind_some]
      cases hchain with
      | bos =>
          obtain ⟨bos, hbos, hid⟩ := Option.map_eq_some_iff.mp st.bos1_id
          exact ⟨bos, hbos, hid⟩
      | node _ hnode' => exact ⟨_, hnode', rfl⟩

theorem prevStateRow_some (prev : RnnNode) (row : List Int32) :
    prevStateRow (some prev) row = some (List.replicate row.length prev.id) := by
  induction row with
  | nil => rfl
  | cons _ row ih =>
      rw [prevStateRow, ih]
      rfl

theorem replicate_eq_range_iff {cnt : Nat} {chain : List RnnCoordinate} :
    List.replicate cnt (prevId chain 0) = (List.range cnt).map (prevId chain) ↔
      ∀ j < cnt, prevId chain j = prevId chain 0 := by
  rw [eq_comm, List.eq_replicate_iff]
  simp

theorem length_of_contextOf {prev : RnnNode} {row : List E} (h : st.contextOf prev = some row) :
    row.length = st.embedSize := by
  obtain ⟨rows, hrows, hrow⟩ := Option.bind_eq_some_iff.mp h
  exact st.contexts_row rows (List.mem_of_getElem? hrows) row (List.mem_of_getElem? hrow)

theorem length_of_nceEmbedOf {id : Int32} {row : List E} (h : st.nceEmbedOf id = some row) :
    row.length = st.embedSize := by
  unfold nceEmbedOf at h
  split at h
  · exact st.nceEmbeddings_row row (List.mem_of_getElem? h)
  · split at h
    · cases h
    · exact st.nceEmbeddings_row row (List.mem_of_getElem? h)

/-! ## The rows of a boundary -/

variable {rbnd : RnnBoundary} (hcount : rbnd.scoreCnt = rbnd.scores.length)
  (hle : rbnd.scoreCnt ≤ st.globalBeamSize) (hprepared : ∀ sc ∈ rbnd.scores, st.Prepared sc)

include hcount hle hprepared

theorem gatherScoreIds_rows : ∃ ids, st.gatherScoreIds rbnd = some ids ∧
    List.Forall₂ (fun sc id => (st.nodeOf sc).map (·.id) = some id) rbnd.scores ids := by
  unfold gatherScoreIds
  rw [hcount]
  refine writeRows_forall₂ (by rw [st.rightIdBuf_length]; omega) fun sc hsc _ _ => ?_
  obtain ⟨row, hrow⟩ := (hprepared sc hsc).embed
  obtain ⟨node, hnode, -⟩ := Option.bind_eq_some_iff.mp hrow
  rw [hnode]
  exact ⟨node.id, rfl, rfl⟩

/-- Each column repeats the id of the first predecessor. -/
theorem gatherPrevStateIds_rows : ∃ rows, st.gatherPrevStateIds rbnd = some rows ∧
    List.Forall₂ (fun sc row => ∀ coord chain, HasChain st.container.nodes sc.rnn (coord :: chain) →
      row = List.replicate (st.maxentOrder - 1).toNat (prevId chain 0)) rbnd.scores rows := by
  unfold gatherPrevStateIds
  rw [hcount]
  refine writeRows_forall₂ (by rw [st.ctxIdBuf_length]; omega) fun sc hsc row hrow => ?_
  obtain ⟨coord, chain, hchain⟩ := (hprepared sc hsc).chain
  obtain ⟨prev, hprev, hid⟩ := prevOf_id hchain
  rw [hprev, prevStateRow_some, st.ctxIdBuf_row row hrow]
  refine ⟨_, rfl, fun coord' chain' hchain' => ?_⟩
  obtain ⟨-, rfl⟩ := List.cons.inj (hchain.unique hchain')
  rw [hid]

theorem gatherScoreContext_rows : ∃ rows, st.gatherScoreContext rbnd = some rows ∧
    List.Forall₂ (fun sc row => (st.prevOf sc).bind st.contextOf = some row) rbnd.scores rows := by
  unfold gatherScoreContext
  rw [hcount]
  refine writeRows_forall₂ (by rw [st.contextBuf_length]; omega) fun sc hsc ctxRow hctx => ?_
  obtain ⟨row, hrow⟩ := (hprepared sc hsc).context
  obtain ⟨prev, hprev, hpresent⟩ := Option.bind_eq_some_iff.mp hrow
  have hlength := (length_of_contextOf hpresent).trans (st.contextBuf_row ctxRow hctx).symm
  refine ⟨row, ?_, hrow⟩
  rw [hprev, Option.bind_eq_bind, Option.bind_some, hpresent, Option.bind_eq_bind, Option.bind_some,
    copyBuffer_of_length hlength]
  rfl

theorem gatherNceEmbeds_rows {ids : List Int32}
    (hids : List.Forall₂ (fun sc id => (st.nodeOf sc).map (·.id) = some id) rbnd.scores ids) :
    ∃ rows, st.gatherNceEmbeds ids = some rows ∧
      List.Forall₂ (fun sc row => (st.nodeOf sc).bind (st.nceEmbedOf ·.id) = some row)
        rbnd.scores rows := by
  have hlength := hids.length_eq
  have hembed (id : Int32) (hid : id ∈ ids) : ∃ row, st.nceEmbedOf id = some row := by
    obtain ⟨k, hk, rfl⟩ := List.mem_iff_getElem.mp hid
    have hsc := List.getElem_mem (l := rbnd.scores) (n := k) (by omega)
    obtain ⟨row, hrow⟩ := (hprepared _ hsc).embed
    obtain ⟨node, hnode, hrow⟩ := Option.bind_eq_some_iff.mp hrow
    have hget := hids.get (i := k) (by omega) hk
    simp only [List.get_eq_getElem] at hget
    rw [hnode, Option.map_some, Option.some.injEq] at hget
    exact ⟨row, hget ▸ hrow⟩
  have hrows : ∃ rows, st.gatherNceEmbeds ids = some rows ∧
      List.Forall₂ (fun id row => st.nceEmbedOf id = some row) ids rows := by
    refine writeRows_forall₂ (by rw [st.embBuf_length]; omega) fun id hid target htarget => ?_
    obtain ⟨row, hrow⟩ := hembed id hid
    have hsame := (length_of_nceEmbedOf hrow).trans (st.embBuf_row target htarget).symm
    refine ⟨row, ?_, hrow⟩
    rw [hrow, Option.bind_eq_bind, Option.bind_some, copyBuffer_of_length hsame]
    rfl
  obtain ⟨rows, hgather, hall⟩ := hrows
  refine ⟨rows, hgather, (forall₂_comp hids hall).imp fun sc row => ?_⟩
  rintro ⟨id, hid, hrow⟩
  obtain ⟨node, hnode, rfl⟩ := Option.map_eq_some_iff.mp hid
  rw [hnode]
  exact hrow

/-- The rows come in the order of the scores; a row of ids is right exactly when the ids before the
node do not differ as far as the row goes. -/
theorem gathered_iff : (∃ psd, st.parallelStepData rbnd = some psd ∧ st.Gathered rbnd psd) ↔
    ∀ sc ∈ rbnd.scores, ∀ coord chain, HasChain st.container.nodes sc.rnn (coord :: chain) →
      ∀ j < (st.maxentOrder - 1).toNat, prevId chain j = prevId chain 0 := by
  obtain ⟨ids, hids, hidRows⟩ := gatherScoreIds_rows hcount hle hprepared
  obtain ⟨prevs, hprevs, hprevRows⟩ := gatherPrevStateIds_rows hcount hle hprepared
  obtain ⟨context, hcontext, hcontextRows⟩ := gatherScoreContext_rows hcount hle hprepared
  obtain ⟨embeds, hembeds, hembedRows⟩ := gatherNceEmbeds_rows hcount hle hprepared hidRows
  have hpsd : st.parallelStepData rbnd = some ⟨prevs, ids, context, embeds⟩ := by
    unfold parallelStepData
    rw [hids, hprevs, hcontext]
    simp only [Option.bind_eq_bind, Option.bind_some, hembeds]
    rfl
  constructor
  · rintro ⟨psd, hdata, hgathered⟩
    rw [hpsd, Option.some.injEq] at hdata
    subst hdata
    have hboth := hgathered.contextIds.mp (fun sc row hright hrow => And.intro (a := ∀ coord chain,
      HasChain st.container.nodes sc.rnn (coord :: chain) →
        ∀ j < (st.maxentOrder - 1).toNat, prevId chain j = prevId chain 0) (b := True)
      (fun coord chain hchain => replicate_eq_range_iff.mp
        ((hrow coord chain hchain).symm.trans (hright coord chain hchain))) trivial) hprevRows
    exact ((List.forall₂_and_left _ _).mp hboth).1
  · intro hsame
    refine ⟨_, hpsd, hidRows, ?_, hcontextRows, hembedRows⟩
    refine ((List.forall₂_and_left _ _).mpr ⟨hsame, hprevRows⟩).imp fun sc row h coord chain hchain => ?_
    exact (h.2 coord chain hchain).trans (replicate_eq_range_iff.mpr (h.1 coord chain hchain))

end GbeamRnnState

/-! ## A chain of three nodes -/

/-- The nodes with the ids 5, 7 and 9 one after another, and scores of one of them. -/
def chainContainer (rnn : RnnNodePtr) : RnnIdContainer :=
  { RnnIdContainer.reset 6 with
    nodes := RnnIdContainer.bosNodes ++
      [⟨5, 0, 2, 1, some 1, [], 0⟩, ⟨7, 0, 3, 1, some 2, [], 0⟩, ⟨9, 0, 4, 1, some 3, [], 0⟩]
    boundaries := List.replicate 6 ⟨[rnn], [⟨.null, rnn⟩], 1, 1⟩ }

def chainState (rnn : RnnNodePtr) : GbeamRnnState Nat where
  container := chainContainer rnn
  globalBeamSize := 1
  embedSize := 1
  maxentOrder := 3
  nceEmbeddings := List.replicate 10 [0]
  ctxIdBuf := [[0, 0]]
  rightIdBuf := [0]
  contextBuf := [[0]]
  embBuf := [[0]]
  contexts := List.replicate 6 [[1]]
  bos1_id := rfl
  ctxIdBuf_length := rfl
  rightIdBuf_length := rfl
  contextBuf_length := rfl
  embBuf_length := rfl
  ctxIdBuf_row := by decide
  contextBuf_row := by decide
  embBuf_row := by decide
  contexts_row := by decide
  nceEmbeddings_row := by decide

theorem hasChain_five (rnn : RnnNodePtr) :
    HasChain (chainState rnn).container.nodes 2 [⟨2, 1, 5⟩] :=
  @HasChain.node _ 2 1 ⟨5, 0, 2, 1, some 1, [], 0⟩ [] (by decide) rfl rfl .bos

theorem hasChain_nine (rnn : RnnNodePtr) :
    HasChain (chainState rnn).container.nodes 4 [⟨4, 1, 9⟩, ⟨3, 1, 7⟩, ⟨2, 1, 5⟩] :=
  @HasChain.node _ 4 3 ⟨9, 0, 4, 1, some 3, [], 0⟩ _ (by decide) rfl rfl
    (@HasChain.node _ 3 2 ⟨7, 0, 3, 1, some 2, [], 0⟩ _ (by decide) rfl rfl (hasChain_five rnn))

namespace GbeamRnnState

/-- Before the first node there is nothing but BOS. -/
theorem gathered_iff_five : ∃ psd, (chainState 2).parallelStepData ⟨[2], [⟨.null, 2⟩], 1, 1⟩ =
    some psd ∧ (chainState 2).Gathered ⟨[2], [⟨.null, 2⟩], 1, 1⟩ psd := by
  refine (gathered_iff rfl (Nat.le_refl 1) ?_).mpr ?_
  · intro sc hsc
    obtain rfl := List.mem_singleton.mp hsc
    exact ⟨⟨_, _, hasChain_five 2⟩, ⟨[1], rfl⟩, ⟨[0], rfl⟩⟩
  · intro sc hsc coord chain hchain j _
    obtain rfl := List.mem_singleton.mp hsc
    obtain ⟨-, rfl⟩ := List.cons.inj (hchain.unique (hasChain_five 2))
    rfl

/-- The row of the third node is 7, 7 and not 7, 5. -/
theorem third_not_gathered :
    ¬∃ psd, (chainState 4).parallelStepData ⟨[4], [⟨.null, 4⟩], 1, 1⟩ = some psd ∧
      (chainState 4).Gathered ⟨[4], [⟨.null, 4⟩], 1, 1⟩ psd := by
  rintro ⟨psd, hdata, hgathered⟩
  cases hdata
  cases hgathered.contextIds with
  | cons hrow _ => exact absurd (hrow _ _ (hasChain_nine 4)) (by decide)

end GbeamRnnState

end Jumanpp.Core.Analysis.Rnn
