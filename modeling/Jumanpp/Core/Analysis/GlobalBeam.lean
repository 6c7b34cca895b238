import Jumanpp.Core.Analysis.FullBeam

/-!
# The global-beam scoring pass

`computeScoresGbeam` first merges the beams of all left nodes of a boundary into one global beam,
and scores each right node against its elements only.  The patterns of the T1 and T2 nodes are
gathered into tables; every T1 node has one row there however many elements share it.
-/

namespace Jumanpp.Core.Analysis

open Jumanpp.Lib Jumanpp.Util

/-- A pointer to a beam element. -/
structure BeamAddr where
  node : LatticeNodePtr
  beam : Nat
deriving DecidableEq

def BeamAddr.deref (addr : BeamAddr) (beams : Beams) : ConnectionBeamElement :=
  (beamAt beams addr.node).getD addr.beam fake

/-- The global beam of a boundary: the candidates, and the elements they were made from. -/
structure GlobalBeam where
  cands : List BeamCandidate
  ptrs : List BeamAddr

/-- What is known of the left side of a boundary when its right nodes are scored. -/
structure GbeamContext (P : Type) where
  boundary : Nat
  nodes : Nat
  beams : Beams
  ends : List LatticeNodePtr
  gbeam : GlobalBeam
  /-- `t1positions_`: the row of the T1 table for each element of the global beam. -/
  t1Ptrs : List Nat
  t1data : Nat → P
  t2data : List P

/-- What one right node gets: its beam, and the score stored for each element of the global beam. -/
structure T0Result where
  row : List ConnectionBeamElement
  stored : List (BeamCandidate × Score)

structure BoundaryResult where
  rows : List (List ConnectionBeamElement)
  scores : LatticeBoundaryScores

/-- `t1PtrData_`: the T1 nodes with their rows. -/
abbrev T1Map := List (LatticeNodePtr × Nat)

/-- `findOrInsert` with the current size as the new value. -/
def T1Map.findOrInsert (map : T1Map) (ptr : LatticeNodePtr) : Nat × T1Map :=
  match map.find? (·.1 == ptr) with
  | some (_, idx) => (idx, map)
  | none => (map.length, map ++ [(ptr, map.length)])

/-- The rows for each element of the global beam, and the map they were looked up in. -/
def dedupT1 (ends : List LatticeNodePtr) :
    List BeamCandidate → T1Map → List Nat × T1Map
  | [], map => ([], map)
  | cand :: gbeam, map =>
      let (idx, map) := map.findOrInsert (ends.getD cand.left ⟨0, 0⟩)
      let (subset, map) := dedupT1 ends gbeam map
      (idx :: subset, map)

def storeT0Scores (t0idx : Nat) (stored : List (BeamCandidate × Score))
    (scores : LatticeBoundaryScores) : LatticeBoundaryScores :=
  stored.foldl
    (fun scores (cand, v) => fun right beam left =>
      if right = t0idx ∧ beam = cand.beam ∧ left = cand.left then v else scores right beam left)
    scores

/-- The loops over the right nodes; each comes with its position in the order of processing. -/
def forT0 (turn : Nat → Nat → Option T0Result) :
    List (Nat × Nat) → BoundaryResult → Option BoundaryResult
  | [], res => some res
  | (t0idx, t0pos) :: order, res =>
      match turn t0pos t0idx with
      | none => none
      | some t0 =>
          forT0 turn order ⟨res.rows.set t0idx t0.row, storeT0Scores t0idx t0.stored res.scores⟩

namespace AnalyzerImpl

variable {P : Type} (a : AnalyzerImpl P)

/-- All live elements to the left of a boundary. -/
def gbeamCandidates (ends : List LatticeNodePtr) (beams : Beams) : List BeamCandidate :=
  ends.zipIdx.flatMap fun (ptr, left) =>
    (activeBeam (beamAt beams ptr)).zipIdx.map fun (el, beamIdx) =>
      .pack a.platform el.totalScore left (u16 beamIdx)

def makeGlobalBeam (ends : List LatticeNodePtr) (beams : Beams) (maxElems : Nat) :
    Option GlobalBeam :=
  match a.processBeamCandidates (a.gbeamCandidates ends beams) maxElems with
  | none => none
  | some res => some ⟨res, res.map fun el => ⟨ends.getD el.left ⟨0, 0⟩, el.beam⟩⟩

/-- A row that nothing was copied to holds some older contents. -/
def gatherT1 (map : T1Map) : Nat → P :=
  map.foldl (fun rows (ptr, row) => Function.update rows row (a.patterns ptr))
    fun _ => a.patterns ⟨0, 0⟩

def gatherT2 (ends : List LatticeNodePtr) (beams : Beams) (gbeam : List BeamCandidate) : List P :=
  gbeam.map fun c =>
    let beamPtr := (beamAt beams (ends.getD c.left ⟨0, 0⟩)).getD c.beam fake
    a.patterns beamPtr.ptr.previous.latticeNodePtr

def gbeamContext (boundary : Nat) (bnd : LatticeBoundary) (beams : Beams) (gbeam : GlobalBeam) :
    GbeamContext P where
  boundary := boundary
  nodes := bnd.localNodeCount
  beams := beams
  ends := bnd.ends
  gbeam := gbeam
  t1Ptrs := (dedupT1 bnd.ends gbeam.cands []).1
  t1data := a.gatherT1 (dedupT1 bnd.ends gbeam.cands []).2
  t2data := a.gatherT2 bnd.ends beams gbeam.cands

variable (ctx : GbeamContext P)

/-- Bigram and trigram scores of a right node, one for each row of the T2 table. -/
def applyBiTri (t0idx : Nat) (t2data : List P) (t1idxs : List Nat) : List Score :=
  List.zipWith
    (fun t1idx t2 =>
      let t0 := a.patterns ⟨ctx.boundary, t0idx⟩
      a.scorer.bi t0 (ctx.t1data t1idx) + a.scorer.tri t0 (ctx.t1data t1idx) t2)
    t1idxs t2data

/-- The connection of a right node to an element of the global beam, as the plugin sees it. -/
def pluginPtr (t0idx : Nat) (cand : BeamCandidate) : ConnectionPtr :=
  let t1beam := (beamAt ctx.beams (ctx.ends.getD cand.left ⟨0, 0⟩)).getD cand.beam fake
  .conn (u16 ctx.boundary) cand.left (u16 t0idx) cand.beam t1beam.ptr

def applyPluginToGbeam (t0idx : Nat) (gbeam : List BeamCandidate) (scores : List Score) :
    List Score :=
  List.zipWith (fun cand v => v + a.pluginScore (pluginPtr ctx t0idx cand)) gbeam scores

/-- The totals and the stored scores. -/
def copyT0Scores (gbeam : List BeamCandidate) (scores : List Score) (t0Score : Score) :
    List Score × List (BeamCandidate × Score) :=
  (List.zipWith (fun gb v => (v + t0Score) + gb.score) gbeam scores,
    List.zipWith (fun gb v => (gb, v + t0Score)) gbeam scores)

/-- The comparator of `makeT0Beam`. -/
def betterScore (scores : List Score) (i1 i2 : Nat) : Bool :=
  decide (scores.getD i2 0 < scores.getD i1 0)

def gbeamElement (t0idx : Nat) (gbeam : List BeamCandidate) (scores : List Score) (i : Nat) :
    ConnectionBeamElement :=
  let prev := gbeam.getD i ⟨0, 0, 0⟩
  let prevPtr := (ctx.gbeam.ptrs.getD i ⟨⟨0, 0⟩, 0⟩).deref ctx.beams
  ⟨.conn (u16 ctx.boundary) prev.left (u16 t0idx) prev.beam prevPtr.ptr, scores.getD i 0⟩

/-- The offsets of the best elements of the global beam. -/
def t0BeamOrder (size : Nat) (scores : List Score) : Option (List Nat) :=
  let idxes := List.range size
  let comp := betterScore scores
  let partitionBoundary := a.beamSize * 4 / 3
  if idxes.length > partitionBoundary then
    match partition comp idxes a.beamSize partitionBoundary with
    | none => none
    | some (idxes, itr) => some ((a.platform.sort comp (idxes.take itr)).take a.beamSize)
  else some ((a.platform.sort comp idxes).take a.beamSize)

def makeT0Beam (t0idx : Nat) (gbeam : List BeamCandidate) (scores : List Score) :
    Option (List ConnectionBeamElement) :=
  match a.t0BeamOrder gbeam.length scores with
  | none => none
  | some order =>
      some (order.map (gbeamElement ctx t0idx gbeam scores) ++
        List.replicate (a.beamSize - order.length) fake)

/-- A turn of the branch without the right check. -/
def scoreT0 (t0idx : Nat) : Option T0Result :=
  let gbeam := ctx.gbeam.cands
  let result := a.applyBiTri ctx t0idx ctx.t2data ctx.t1Ptrs
  let result := a.applyPluginToGbeam ctx t0idx gbeam result
  let t0Score := a.applyT0 ctx.boundary t0idx
  let (result, stored) := copyT0Scores gbeam result t0Score
  match a.makeT0Beam ctx t0idx gbeam result with
  | none => none
  | some row => some ⟨row, stored⟩

/-- The scores of a right node against the whole global beam, as the plain branch computes them. -/
def plainScores (t0idx : Nat) : List Score × List (BeamCandidate × Score) :=
  copyT0Scores ctx.gbeam.cands
    (a.applyPluginToGbeam ctx t0idx ctx.gbeam.cands
      (a.applyBiTri ctx t0idx ctx.t2data ctx.t1Ptrs))
    (a.applyT0 ctx.boundary t0idx)

theorem scoreT0_eq (t0idx : Nat) :
    a.scoreT0 ctx t0idx =
      match a.makeT0Beam ctx t0idx ctx.gbeam.cands (a.plainScores ctx t0idx).1 with
      | none => none
      | some row => some ⟨row, (a.plainScores ctx t0idx).2⟩ :=
  rfl

/-- `t0prescores_` before the plugin: the full scores for the first elements of the global beam. -/
def computeT0Prescores : List ScoreBuffer :=
  List.zipWith
    (fun t1idx t2 => fun t0 =>
      let t0pat := a.patterns ⟨ctx.boundary, t0⟩
      a.applyT0 ctx.boundary t0 + a.scorer.bi t0pat (ctx.t1data t1idx) +
        a.scorer.tri t0pat (ctx.t1data t1idx) t2)
    (ctx.t1Ptrs.take (min a.rightGbeamCheck ctx.gbeam.cands.length))
    (ctx.t2data.take (min a.rightGbeamCheck ctx.gbeam.cands.length))

def applyPluginToPrescores (gbeam : List BeamCandidate) (prescores : List ScoreBuffer) :
    List ScoreBuffer :=
  List.zipWith (fun cand scores => fun t0 => scores t0 + a.pluginScore (pluginPtr ctx t0 cand))
    gbeam prescores

/-- The order of the right nodes in `t0cutoffIdxBuffer_`. -/
def makeT0cutoffBeam (prescores : List ScoreBuffer) (rightBeam : Nat) : List Nat :=
  let idxBuf := List.range ctx.nodes
  if ctx.nodes ≤ rightBeam then idxBuf
  else
    let cutoffScores : ScoreBuffer := fun i => (prescores.map fun row => row i).sum
    a.platform.nthElement (fun x y => decide (cutoffScores y < cutoffScores x)) rightBeam idxBuf

def fullBeamApplySize : Nat :=
  min (min a.rightGbeamCheck ctx.nodes) ctx.gbeam.cands.length

/-- The scores of a right node against the head of the global beam, taken from the prescores. -/
def headScores (prescores : List ScoreBuffer) (t0idx : Nat) :
    List Score × List (BeamCandidate × Score) :=
  copyT0Scores (ctx.gbeam.cands.take (a.fullBeamApplySize ctx))
    (prescores.map fun row => row t0idx) 0

/-- The scores of a right node against the tail of the global beam. -/
def tailScores (t0idx : Nat) : List Score × List (BeamCandidate × Score) :=
  let full := a.fullBeamApplySize ctx
  let gbeamTail := ctx.gbeam.cands.drop full
  let result := a.applyBiTri ctx t0idx (ctx.t2data.drop full) (ctx.t1Ptrs.drop full)
  let result := a.applyPluginToGbeam ctx t0idx gbeamTail result
  copyT0Scores gbeamTail result (a.applyT0 ctx.boundary t0idx)

/-- A turn of the branch with the right check: the first `toKeep` nodes of the cutoff order are
scored against the whole global beam, the others against its head. -/
def scoreT0Checked (prescores : List ScoreBuffer) (toKeep t0pos t0idx : Nat) : Option T0Result :=
  let (head, headStored) := a.headScores ctx prescores t0idx
  if t0pos < toKeep then
    let (tail, tailStored) := a.tailScores ctx t0idx
    match a.makeT0Beam ctx t0idx ctx.gbeam.cands (head ++ tail) with
    | none => none
    | some row => some ⟨row, headStored ++ tailStored⟩
  else
    match a.makeT0Beam ctx t0idx (ctx.gbeam.cands.take (a.fullBeamApplySize ctx)) head with
    | none => none
    | some row => some ⟨row, headStored⟩

/-- `t0prescores_` when the cutoff beam is made. -/
def t0prescores : List ScoreBuffer :=
  a.applyPluginToPrescores ctx (ctx.gbeam.cands.take (a.fullBeamApplySize ctx))
    (a.computeT0Prescores ctx)

/-- The order in which the right nodes are processed. -/
def t0Order : List Nat :=
  if 0 < a.rightGbeamCheck then
    a.makeT0cutoffBeam ctx (a.t0prescores ctx) (min a.rightGbeamSize ctx.nodes)
  else List.range ctx.nodes

def scoreT0Turn (t0pos t0idx : Nat) : Option T0Result :=
  if 0 < a.rightGbeamCheck then
    a.scoreT0Checked ctx (a.t0prescores ctx) (min a.rightGbeamSize ctx.nodes) t0pos t0idx
  else a.scoreT0 ctx t0idx

def computeGbeamScores : Option BoundaryResult :=
  forT0 (a.scoreT0Turn ctx) (a.t0Order ctx).zipIdx
    ⟨List.replicate ctx.nodes [], .empty⟩

end AnalyzerImpl

/-- The lattice data that the pass fills in, for each boundary that is done. -/
structure GbeamState where
  beams : Beams
  scores : List LatticeBoundaryScores
  globalBeams : List GlobalBeam

namespace AnalyzerImpl

variable {P : Type} (a : AnalyzerImpl P)

/-- One turn of the loop over the boundaries; one without nodes is skipped. -/
def scoreBoundaryGbeam (bnd : LatticeBoundary) (st : GbeamState) : Option GbeamState :=
  if bnd.localNodeCount = 0 then
    some ⟨st.beams ++ [[]], st.scores ++ [.empty], st.globalBeams ++ [⟨[], []⟩]⟩
  else
    match a.makeGlobalBeam bnd.ends st.beams a.globalBeamSize with
    | none => none
    | some gbeam =>
        match a.computeGbeamScores (a.gbeamContext st.beams.length bnd st.beams gbeam) with
        | none => none
        | some res =>
            some ⟨st.beams ++ [res.rows], st.scores ++ [res.scores], st.globalBeams ++ [gbeam]⟩

def scoreBoundariesGbeam : List LatticeBoundary → GbeamState → Option GbeamState
  | [], st => some st
  | bnd :: bnds, st =>
      match a.scoreBoundaryGbeam bnd st with
      | none => none
      | some st => scoreBoundariesGbeam bnds st

def bootstrapState : GbeamState where
  beams := a.bootstrapAnalysis
  scores := List.replicate 2 .empty
  globalBeams := List.replicate 2 ⟨[], []⟩

/-- The pass without additional scorers. -/
def computeScoresGbeam (lat : Lattice) : Option GbeamState :=
  if lat.createdBoundaryCount ≤ 3 then some a.bootstrapState
  else a.scoreBoundariesGbeam (lat.boundaries.drop 2) a.bootstrapState

end AnalyzerImpl

end Jumanpp.Core.Analysis
