import Jumanpp.Core.Analysis.AnalysisPath
import Jumanpp.Core.Training.FeatureDiff

/-!
# The comparison of the gold path with the best one

`computeComparison` walks over both paths at once: nodes that start at one boundary are paired, and
where the segmentations differ the node that starts first stands alone.
-/

namespace Jumanpp.Core.Training

open Jumanpp.Lib Jumanpp.Core.Analysis

/-! ## The best path with its cursor -/

/-- An `AnalysisPath` over the elements that its pointers lead to; nothing sets the cursor of a path
that was never filled in. -/
structure PathCursor where
  elems_ : List ConnectionBeamElement
  offsets_ : List Nat
  currentChunk_ : Option Int
  currentNode_ : Int

namespace PathCursor

def numBoundaries (p : PathCursor) : Int := p.offsets_.length - 1

def nextBoundary (p : PathCursor) : Except Failure (Bool × PathCursor) :=
  match p.currentChunk_ with
  | none => .error .undefined
  | some c =>
      .ok (decide (c + 1 < p.numBoundaries), { p with currentChunk_ := some (c + 1), currentNode_ := -1 })

/-- A checked index into `offsets_`. -/
def offsetAt (p : PathCursor) (idx : Int) : Except Failure Nat :=
  if 0 ≤ idx then
    match p.offsets_[idx.toNat]? with
    | none => .error .undefined
    | some offset => .ok offset
  else .error .undefined

def elemAt (p : PathCursor) (idx : Nat) : Except Failure ConnectionBeamElement :=
  match p.elems_[idx]? with
  | none => .error .undefined
  | some e => .ok e

def chunk (p : PathCursor) : Except Failure Int :=
  match p.currentChunk_ with
  | none => .error .undefined
  | some c => .ok c

def totalNodesInChunk (p : PathCursor) : Except Failure Int := do
  let c ← p.chunk
  let idx := p.offsets_.length - c - 1
  let end_ ← p.offsetAt idx
  let begin_ ← p.offsetAt (idx - 1)
  return end_ - begin_

def currentBoundary (p : PathCursor) : Except Failure Nat := do
  let c ← p.chunk
  let begin_ ← p.offsetAt (p.offsets_.length - c - 2)
  let e ← p.elemAt begin_
  return e.ptr.boundary

/-- `nullptr` is `none`. -/
def nextBeamPtr (p : PathCursor) : Except Failure (Option ConnectionBeamElement × PathCursor) := do
  let node := p.currentNode_ + 1
  let p := { p with currentNode_ := node }
  let total ← p.totalNodesInChunk
  if total - node > 0 then
    let c ← p.chunk
    let begin_ ← p.offsetAt (p.offsets_.length - c - 2)
    let e ← p.elemAt (begin_ + node.toNat)
    return (some e, p)
  else return (none, p)

/-- At the beginning of a chunk of a path that was filled in: every chunk has one node, and the chunks
are in the order of the text. -/
structure At (p : PathCursor) (c : Nat) : Prop where
  offsets : p.offsets_ = List.range (p.elems_.length + 1)
  chunk : p.currentChunk_ = some (c : Int)
  node : p.currentNode_ = -1

variable {p : PathCursor} {c : Nat} {e : ConnectionBeamElement}

theorem offsetAt_eq (h : p.offsets_ = List.range (p.elems_.length + 1)) {i : Nat}
    (hi : i ≤ p.elems_.length) {idx : Int} (hidx : idx = i) : p.offsetAt idx = .ok i := by
  rw [offsetAt, if_pos (by omega), h, hidx, Int.toNat_natCast, List.getElem?_range (by omega)]

theorem lt_length_of_getElem? (hc : p.elems_.reverse[c]? = some e) : c < p.elems_.length := by
  have hlt := (List.getElem?_eq_some_iff.mp hc).1
  rwa [List.length_reverse] at hlt

theorem elemAt_eq (hc : p.elems_.reverse[c]? = some e) {i : Nat}
    (hi : i = p.elems_.length - 1 - c) : p.elemAt i = .ok e := by
  have hlt := lt_length_of_getElem? hc
  rw [List.getElem?_reverse hlt] at hc
  rw [elemAt, hi, hc]

theorem chunk_eq (h : p.currentChunk_ = some (c : Int)) : p.chunk = .ok (c : Int) := by
  rw [chunk, h]

theorem At.currentBoundary (h : p.At c) (hc : p.elems_.reverse[c]? = some e) :
    p.currentBoundary = .ok e.ptr.boundary := by
  have hlt := lt_length_of_getElem? hc
  have hlength := congrArg List.length h.offsets
  rw [List.length_range] at hlength
  have hoffset := offsetAt_eq h.offsets (show p.elems_.length - 1 - c ≤ p.elems_.length by omega)
    (show ((p.offsets_.length : Int) - (c : Int) - 2) = _ by omega)
  unfold PathCursor.currentBoundary
  simp only [chunk_eq h.chunk, ok_bind, hoffset, elemAt_eq hc rfl]
  rfl

theorem totalNodesInChunk_eq (h : p.offsets_ = List.range (p.elems_.length + 1))
    (hchunk : p.currentChunk_ = some (c : Int)) (hc : c < p.elems_.length) :
    p.totalNodesInChunk = .ok 1 := by
  have hlength := congrArg List.length h
  rw [List.length_range] at hlength
  have hend := offsetAt_eq h (show p.elems_.length - c ≤ p.elems_.length by omega)
    (show ((p.offsets_.length : Int) - (c : Int) - 1) = _ by omega)
  have hbegin := offsetAt_eq h (show p.elems_.length - c - 1 ≤ p.elems_.length by omega)
    (show ((p.offsets_.length : Int) - (c : Int) - 1 - 1) = _ by omega)
  unfold PathCursor.totalNodesInChunk
  simp only [chunk_eq hchunk, ok_bind, hend, hbegin]
  exact congrArg Except.ok (by omega)

/-- The node of the chunk. -/
theorem At.nextBeamPtr (h : p.At c) (hc : p.elems_.reverse[c]? = some e) :
    p.nextBeamPtr = .ok (some e, { p with currentNode_ := 0 }) := by
  have hlt := lt_length_of_getElem? hc
  have hlength := congrArg List.length h.offsets
  rw [List.length_range] at hlength
  have hoffset := @offsetAt_eq { p with currentNode_ := 0 } h.offsets (p.elems_.length - 1 - c)
    (by show _ ≤ p.elems_.length; omega) ((p.offsets_.length : Int) - (c : Int) - 2) (by omega)
  have htotal := @totalNodesInChunk_eq { p with currentNode_ := 0 } c h.offsets h.chunk hlt
  have helem := @elemAt_eq { p with currentNode_ := 0 } c e hc (p.elems_.length - 1 - c + 0) rfl
  have hchunk := @chunk_eq { p with currentNode_ := 0 } c h.chunk
  unfold PathCursor.nextBeamPtr
  simp only [h.node, Int.reduceNeg, Int.reduceAdd, ok_bind, htotal, hchunk, hoffset]
  exact congrArg (· >>= fun e => Except.ok (some e, { p with currentNode_ := 0 })) helem

/-- There is no other node. -/
theorem At.nextBeamPtr_end (h : p.At c) (hc : c < p.elems_.length) :
    PathCursor.nextBeamPtr { p with currentNode_ := 0 } =
      .ok (none, { p with currentNode_ := 1 }) := by
  have htotal := @totalNodesInChunk_eq { p with currentNode_ := 1 } c h.offsets h.chunk hc
  unfold PathCursor.nextBeamPtr
  simp only [Int.reduceAdd, htotal, ok_bind]
  rfl

/-- On to the next chunk, if there is one. -/
theorem nextBoundary_eq (h : p.offsets_ = List.range (p.elems_.length + 1))
    (hchunk : p.currentChunk_ = some (c : Int)) :
    p.nextBoundary = .ok (decide (c + 1 < p.elems_.length),
      { p with currentChunk_ := some ((c + 1 : Nat) : Int), currentNode_ := -1 }) := by
  have hlength := congrArg List.length h
  rw [List.length_range] at hlength
  unfold PathCursor.nextBoundary PathCursor.numBoundaries
  rw [hchunk, hlength]
  have hiff : ((c : Int) + 1 < ((p.elems_.length + 1 : Nat) : Int) - 1) ↔ c + 1 < p.elems_.length := by
    omega
  exact congrArg (fun b => Except.ok (b, _)) (decide_eq_decide.mpr hiff)

/-- The cursor behind `n` chunks. -/
def behind (p : PathCursor) (n : Nat) : PathCursor :=
  { p with currentChunk_ := some (n : Int), currentNode_ := -1 }

end PathCursor

/-! ## The steps -/

namespace Comparison

/-- A step with all that it stores; `W` are the weights. -/
structure ComparisonStep (W : Type) where
  cmpClass : ComparitionClass
  lastGoldScore : Score
  violation : Score
  mismatchWeight : W
  numMismatches : Int
  boundary : Nat
  topPtr : Option ConnectionBeamElement
  goldPosition : Int
  numGold : Int
  goldInBeam : Bool

structure TrainingField (W : Type) where
  fieldIdx : Nat
  weight : W

/-- What the comparison reads of a lattice after the analysis. -/
structure ScoredLattice where
  createdBoundaryCount : Nat
  entryData : LatticeNodePtr → List Int
  beams : Beams

section Model

-- The weights are floats: their sum and its order are all that is used of them.
variable {W : Type} [Zero W] [One W] [Neg W] [Add W] [LT W] [DecidableLT W]
  (lattice : ScoredLattice) (specFlds : List (TrainingField W)) (gold : List LatticeNodePtr)
  (goldScores : List Score)

/-- The number and the weight of the fields that differ. -/
def mismatches (topData goldData : List Int) : Int × W :=
  specFlds.foldl (fun (numMismatches, mismatchWeight) sf =>
    if topData.getD sf.fieldIdx 0 ≠ goldData.getD sf.fieldIdx 0 then
      (numMismatches + 1, mismatchWeight + sf.weight)
    else (numMismatches, mismatchWeight)) (0, 0)

structure Worst (W : Type) where
  maxNumMismatches : Int
  maxMismatchWeight : W
  worstPtr : Option ConnectionBeamElement

/-- The loop over the nodes of the chunk. -/
def findWorstFrom (bndIdx goldPos : Nat) : (turns : Nat) → Worst W → PathCursor →
    Except Failure (Worst W × PathCursor)
  | 0, _, _ => .error .undefined
  | turns + 1, worst, top1 => do
      let (ptr, top1) ← top1.nextBeamPtr
      match ptr with
      | none => return (worst, top1)
      | some ptr =>
          let topData := lattice.entryData ⟨bndIdx, ptr.ptr.right⟩
          let (numMismatches, mismatchWeight) :=
            mismatches specFlds topData (lattice.entryData ⟨bndIdx, goldPos⟩)
          let worst := if worst.maxMismatchWeight < mismatchWeight then
              ⟨numMismatches, mismatchWeight, some ptr⟩
            else worst
          findWorstFrom bndIdx goldPos turns worst top1

/-- `none` when no node was found. -/
def findWorstTopNode (goldPos : Nat) (top1 : PathCursor) :
    Except Failure (Option (Nat × ConnectionBeamElement × Worst W) × PathCursor) := do
  let bndIdx ← top1.currentBoundary
  let (worst, top1) ← findWorstFrom lattice specFlds bndIdx goldPos (top1.elems_.length + 1)
    ⟨-1, -1, none⟩ top1
  return (worst.worstPtr.map fun ptr => (bndIdx, ptr, worst), top1)

/-- The loop over the beam, before its first fake element. -/
def stillInBeam (prevGoldPtr : LatticeNodePtr) : List ConnectionBeamElement → Bool
  | [] => false
  | be :: beam =>
      if isFake be then false
      else match be.ptr.previous with
        | .null => false
        | .conn boundary _ right _ _ =>
            if boundary = prevGoldPtr.boundary ∧ right = prevGoldPtr.position then true
            else stillInBeam prevGoldPtr beam

def isGoldStillInBeam (beam : List ConnectionBeamElement) (goldPos : Nat) : Except Failure Bool :=
  if goldPos = 0 then .ok true
  else match gold[goldPos - 1]? with
    | none => .error .undefined
    | some prevGoldPtr => .ok (stillInBeam prevGoldPtr beam)

def goldScoreAt (curGold : Nat) : Except Failure Score :=
  match goldScores[curGold]? with
  | none => .error .undefined
  | some score => .ok score

structure State (W : Type) where
  hasNextTop : Bool
  top1 : PathCursor
  curGold : Nat
  goldScore : Score
  comparison : List (ComparisonStep W)

/-- The boundaries match. -/
def bothTurn (curTopBnd : Nat) (curGoldPtr : LatticeNodePtr) (st : State W) :
    Except Failure (State W) := do
  let (found, top1) ← findWorstTopNode lattice specFlds curGoldPtr.position st.top1
  match found with
  | none => throw (.status s!"could not find a worst top node for position #{curTopBnd}")
  | some (bndIdx, topPtr, worst) =>
      let goldScore ← goldScoreAt goldScores st.curGold
      let goldInBeam ←
        isGoldStillInBeam gold (beamAt lattice.beams ⟨curTopBnd, curGoldPtr.position⟩) st.curGold
      let step : ComparisonStep W :=
        ⟨.Both, goldScore, topPtr.totalScore - goldScore, worst.maxMismatchWeight,
          worst.maxNumMismatches, bndIdx, some topPtr, curGoldPtr.position, st.curGold, goldInBeam⟩
      let (hasNextTop, top1) ← top1.nextBoundary
      return ⟨hasNextTop, top1, st.curGold + 1, goldScore, st.comparison ++ [step]⟩

/-- The top boundary comes first. -/
def topTurn (curTopBnd : Nat) (st : State W) : Except Failure (State W) := do
  let (ptr, top1) ← st.top1.nextBeamPtr
  match ptr with
  | none => throw (.status s!"boundary #{curTopBnd} did not have any nodes")
  | some ptr =>
      let step : ComparisonStep W :=
        ⟨.TopOnly, st.goldScore, ptr.totalScore - st.goldScore, 0, 0, curTopBnd, some ptr, -1, -1,
          false⟩
      let (hasNextTop, top1) ← top1.nextBoundary
      return ⟨hasNextTop, top1, st.curGold, st.goldScore, st.comparison ++ [step]⟩

/-- The gold boundary comes first. -/
def goldTurn (st : State W) : Except Failure (State W) := do
  match gold[st.curGold]? with
  | none => throw .undefined
  | some goldPtr =>
      let goldScore ← goldScoreAt goldScores st.curGold
      let goldInBeam ← isGoldStillInBeam gold (beamAt lattice.beams goldPtr) st.curGold
      let step : ComparisonStep W :=
        ⟨.GoldOnly, goldScore, 0, 0, 0, goldPtr.boundary, none, goldPtr.position, st.curGold,
          goldInBeam⟩
      return ⟨st.hasNextTop, st.top1, st.curGold + 1, goldScore, st.comparison ++ [step]⟩

def topBoundary (eosPos : Nat) (st : State W) : Except Failure Nat :=
  if st.hasNextTop then st.top1.currentBoundary else .ok eosPos

def turn (eosPos : Nat) (st : State W) : Except Failure (State W) := do
  let curGoldPtr := gold.getD st.curGold ⟨eosPos, 0⟩
  let curTopBnd ← topBoundary eosPos st
  if curGoldPtr.boundary = curTopBnd then
    bothTurn lattice specFlds gold goldScores curTopBnd curGoldPtr st
  else if curGoldPtr.boundary > curTopBnd then topTurn curTopBnd st
  else goldTurn lattice gold goldScores st

/-- The loop, with a bound on its turns. -/
def turns (eosPos : Nat) : Nat → State W → Except Failure (State W)
  | 0, _ => .error .undefined
  | fuel + 1, st =>
      if st.hasNextTop ∨ st.curGold < gold.length then do
        let st ← turn lattice specFlds gold goldScores eosPos st
        turns eosPos fuel st
      else .ok st

def eosStep (eosPos : Nat) (st : State W) : Except Failure (ComparisonStep W) := do
  match (beamAt lattice.beams ⟨eosPos, 0⟩)[0]? with
  | none => throw .undefined
  | some eosTopNode =>
      let goldScore ← goldScoreAt goldScores st.curGold
      let goldInBeam ←
        isGoldStillInBeam gold (beamAt lattice.beams ⟨eosPos, 0⟩) st.curGold
      return ⟨.Both, goldScore, eosTopNode.totalScore - goldScore, 0, 0, eosPos, some eosTopNode, 0,
        st.curGold, goldInBeam⟩

/-- A turn goes on along one of the paths, so their lengths bound the turns. -/
def computeComparison (top1 : PathCursor) : Except Failure (List (ComparisonStep W)) := do
  let (hasNextTop, top1) ← top1.nextBoundary
  let eosPos := u16 (lattice.createdBoundaryCount - 1)
  let st ← turns lattice specFlds gold goldScores eosPos
    (gold.length + top1.elems_.length + 1) ⟨hasNextTop, top1, 0, 0, []⟩
  let step ← eosStep lattice gold goldScores eosPos st
  return st.comparison ++ [step]

end Model

/-! ## What a comparison is -/

section Merges

variable {W : Type}

/-- The gold node of the step. -/
def ComparisonStep.goldNode (step : ComparisonStep W) : Option LatticeNodePtr :=
  if step.cmpClass = .TopOnly then none else some ⟨step.boundary, step.goldPosition.toNat⟩

/-- The node of the best path of the step. -/
def ComparisonStep.topNode (step : ComparisonStep W) : Option ConnectionBeamElement :=
  if step.cmpClass = .GoldOnly then none else step.topPtr

/-- The steps hold every node of both paths once, in the order of the boundaries, and pair two nodes
exactly where both start at one boundary. -/
structure Merges (golds : List LatticeNodePtr) (tops : List ConnectionBeamElement)
    (steps : List (ComparisonStep W)) : Prop where
  order : steps.Pairwise fun s s' => s.boundary < s'.boundary
  gold : steps.filterMap (·.goldNode) = golds
  top : steps.filterMap (·.topNode) = tops
  both : ∀ step ∈ steps, step.cmpClass = .Both ↔
    (∃ g ∈ golds, g.boundary = step.boundary) ∧ ∃ t ∈ tops, t.ptr.boundary = step.boundary
  topPtr : ∀ step ∈ steps, step.cmpClass ≠ .GoldOnly →
    ∃ t, step.topPtr = some t ∧ t.ptr.boundary = step.boundary

theorem merges_nil : Merges [] [] ([] : List (ComparisonStep W)) := by
  constructor
  · exact .nil
  · rfl
  · rfl
  · exact fun step h => absurd h List.not_mem_nil
  · exact fun step h => absurd h List.not_mem_nil

theorem ComparisonStep.boundary_of_goldNode {step : ComparisonStep W} {g : LatticeNodePtr}
    (h : step.goldNode = some g) : g.boundary = step.boundary := by
  unfold goldNode at h
  split at h
  · cases h
  · rw [← Option.some.inj h]

theorem ComparisonStep.boundary_of_topNode {step : ComparisonStep W} {t : ConnectionBeamElement}
    (hstep : step.cmpClass ≠ .GoldOnly → ∃ t, step.topPtr = some t ∧ t.ptr.boundary = step.boundary)
    (h : step.topNode = some t) : t.ptr.boundary = step.boundary := by
  unfold topNode at h
  split at h
  · cases h
  · obtain ⟨t', ht', hboundary⟩ := hstep ‹_›
    rw [ht'] at h
    rwa [← Option.some.inj h]

variable {golds : List LatticeNodePtr} {tops : List ConnectionBeamElement}
  {steps : List (ComparisonStep W)}

theorem Merges.gold_lt (h : Merges golds tops steps) {b : Nat} (hb : ∀ s ∈ steps, s.boundary < b) :
    ∀ g ∈ golds, g.boundary < b := by
  intro g hg
  rw [← h.gold, List.mem_filterMap] at hg
  obtain ⟨s, hs, hnode⟩ := hg
  rw [ComparisonStep.boundary_of_goldNode hnode]
  exact hb s hs

theorem Merges.top_lt (h : Merges golds tops steps) {b : Nat} (hb : ∀ s ∈ steps, s.boundary < b) :
    ∀ t ∈ tops, t.ptr.boundary < b := by
  intro t ht
  rw [← h.top, List.mem_filterMap] at ht
  obtain ⟨s, hs, hnode⟩ := ht
  rw [ComparisonStep.boundary_of_topNode (h.topPtr s hs) hnode]
  exact hb s hs

/-- Every step has a node. -/
theorem Merges.boundary_lt (h : Merges golds tops steps) {b : Nat} (hg : ∀ g ∈ golds, g.boundary < b)
    (ht : ∀ t ∈ tops, t.ptr.boundary < b) : ∀ s ∈ steps, s.boundary < b := by
  intro s hs
  by_cases hclass : s.cmpClass = .GoldOnly
  · have hnode : s.goldNode = some ⟨s.boundary, s.goldPosition.toNat⟩ := by
      rw [ComparisonStep.goldNode, if_neg (by rw [hclass]; decide)]
    exact hg _ (h.gold ▸ List.mem_filterMap.mpr ⟨s, hs, hnode⟩)
  · obtain ⟨t, htop, hboundary⟩ := h.topPtr s hs hclass
    have hnode : s.topNode = some t := by
      rw [ComparisonStep.topNode, if_neg hclass, htop]
    rw [← hboundary]
    exact ht t (h.top ▸ List.mem_filterMap.mpr ⟨s, hs, hnode⟩)

/-- A step behind all the others. -/
theorem Merges.append (h : Merges golds tops steps) {step : ComparisonStep W}
    (hlt : ∀ s ∈ steps, s.boundary < step.boundary)
    (htop : step.cmpClass ≠ .GoldOnly → ∃ t, step.topPtr = some t ∧ t.ptr.boundary = step.boundary) :
    Merges (golds ++ step.goldNode.toList) (tops ++ step.topNode.toList) (steps ++ [step]) := by
  have hgolds := h.gold_lt hlt
  have htops := h.top_lt hlt
  have hgoldNew : ∀ g ∈ step.goldNode.toList, g.boundary = step.boundary := fun g hg =>
    ComparisonStep.boundary_of_goldNode (Option.mem_toList.mp hg)
  have htopNew : ∀ t ∈ step.topNode.toList, t.ptr.boundary = step.boundary := fun t ht =>
    ComparisonStep.boundary_of_topNode htop (Option.mem_toList.mp ht)
  constructor
  · rw [List.pairwise_append]
    refine ⟨h.order, List.pairwise_singleton _ _, ?_⟩
    intro s hs s' hs'
    rw [List.mem_singleton.mp hs']
    exact hlt s hs
  · rw [List.filterMap_append, h.gold]
    cases hnode : step.goldNode with
    | none => simp [hnode]
    | some g => simp [hnode]
  · rw [List.filterMap_append, h.top]
    cases hnode : step.topNode with
    | none => simp [hnode]
    | some t => simp [hnode]
  · intro s hs
    rcases List.mem_append.mp hs with hs | hs
    · -- the new nodes start behind this step
      have hs' := hlt s hs
      rw [h.both s hs]
      constructor
      · rintro ⟨⟨g, hg, hgb⟩, t, ht, htb⟩
        exact ⟨⟨g, List.mem_append_left _ hg, hgb⟩, t, List.mem_append_left _ ht, htb⟩
      · rintro ⟨⟨g, hg, hgb⟩, t, ht, htb⟩
        refine ⟨⟨g, ?_, hgb⟩, t, ?_, htb⟩
        · rcases List.mem_append.mp hg with hg | hg
          · exact hg
          · have hnew := hgoldNew g hg
            omega
        · rcases List.mem_append.mp ht with ht | ht
          · exact ht
          · have hnew := htopNew t ht
            omega
    · obtain rfl := List.mem_singleton.mp hs
      constructor
      · intro hboth
        obtain ⟨t, ht, htb⟩ := htop (by rw [hboth]; decide)
        refine ⟨⟨⟨s.boundary, s.goldPosition.toNat⟩, List.mem_append_right _ ?_, rfl⟩, t,
          List.mem_append_right _ ?_, htb⟩
        · rw [Option.mem_toList, ComparisonStep.goldNode, if_neg (by rw [hboth]; decide)]
        · rw [Option.mem_toList, ComparisonStep.topNode, if_neg (by rw [hboth]; decide)]
          exact ht
      · rintro ⟨⟨g, hg, hgb⟩, t, ht, htb⟩
        have hgold : s.cmpClass ≠ .TopOnly := by
          intro htopOnly
          rw [ComparisonStep.goldNode, if_pos htopOnly, Option.toList_none, List.append_nil] at hg
          have hlt := hgolds g hg
          omega
        have htopOnly : s.cmpClass ≠ .GoldOnly := by
          intro hgoldOnly
          rw [ComparisonStep.topNode, if_pos hgoldOnly, Option.toList_none, List.append_nil] at ht
          have hlt := htops t ht
          omega
        cases hclass : s.cmpClass with
        | Both => rfl
        | TopOnly => exact absurd hclass hgold
        | GoldOnly => exact absurd hclass htopOnly
  · intro s hs
    rcases List.mem_append.mp hs with hs | hs
    · exact h.topPtr s hs
    · obtain rfl := List.mem_singleton.mp hs
      exact htop

end Merges

end Comparison

end Jumanpp.Core.Training
