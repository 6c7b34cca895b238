import Jumanpp.Core.Analysis.GlobalBeam

/-!
# Additional scorers

After the global-beam pass the additional scorers fill their own columns of the scores.  The totals
of the elements in the global beams are then recomputed from all columns, and the EOS beam is made
again.
-/

namespace Jumanpp.Core.Analysis

open Jumanpp.Lib

/-- One column of scores: those of one scorer, by boundary. -/
abbrev ScoreColumn := List LatticeBoundaryScores

/-- `ScoreComputer::scoreLattice`: what a scorer stores in its own column. -/
abbrev ScoreComputer := Lattice → GbeamState → ScoreColumn

/-- The weighted sum of the scores of one connection. -/
def weightedScore (columns : List ScoreColumn) (scoreWeights : List Score)
    (boundary right beam left : Nat) : Score :=
  (List.zipWith (fun column weight => (column.getD boundary .empty) right beam left * weight)
    columns scoreWeights).sum

/-- The address of the element that a connection points back to. -/
def prevAddr (lat : Lattice) (ptr : ConnectionPtr) : BeamAddr :=
  ⟨(lat.boundary ptr.boundary).ends.getD ptr.left ⟨0, 0⟩, ptr.beam⟩

def setTotal (beams : Beams) (el : BeamAddr) (totalScore : Score) : Beams :=
  beams.modify el.node.boundary fun rows =>
    rows.modify el.node.position fun row =>
      row.modify el.beam fun e => { e with totalScore := totalScore }

/-- The turn of `adjustBeamScores` for one element of a global beam. -/
def adjustElement (lat : Lattice) (columns : List ScoreColumn) (scoreWeights : List Score)
    (beams : Beams) (el : BeamAddr) : Beams :=
  let ptr := (el.deref beams).ptr
  let score := weightedScore columns scoreWeights ptr.boundary ptr.right ptr.beam ptr.left
  setTotal beams el (score + ((prevAddr lat ptr).deref beams).totalScore)

/-- The global beams stand on the end side, so that of the third boundary is the first one with
nodes of the input in it. -/
def adjustBeamScores (lat : Lattice) (columns : List ScoreColumn) (scoreWeights : List Score)
    (globalBeams : List GlobalBeam) (beams : Beams) : Beams :=
  (List.range' 3 (lat.createdBoundaryCount - 3)).foldl
    (fun beams latBnd =>
      if (lat.boundary latBnd).localNodeCount = 0 then beams
      else (globalBeams.getD latBnd ⟨[], []⟩).ptrs.foldl (adjustElement lat columns scoreWeights)
        beams)
    beams

namespace AnalyzerImpl

variable {P : Type} (a : AnalyzerImpl P)

/-- The candidates of the EOS boundary with the adjusted totals. -/
def lastGbeam (gbeam : GlobalBeam) (beams : Beams) : List BeamCandidate :=
  List.zipWith
    (fun cand el => .pack a.platform (el.deref beams).totalScore cand.left cand.beam)
    gbeam.cands gbeam.ptrs

def eosScores (columns : List ScoreColumn) (scoreWeights : List Score) (eos : Nat)
    (gbeam : GlobalBeam) (beams : Beams) : List Score :=
  List.zipWith
    (fun cand el =>
      weightedScore columns scoreWeights eos 0 cand.beam cand.left + (el.deref beams).totalScore)
    gbeam.cands gbeam.ptrs

def remakeEosBeam (lat : Lattice) (columns : List ScoreColumn) (scoreWeights : List Score)
    (globalBeams : List GlobalBeam) (beams : Beams) : Option Beams :=
  let eos := lat.createdBoundaryCount - 1
  let fullGbeam := globalBeams.getD eos ⟨[], []⟩
  let ctx := a.gbeamContext eos (lat.boundary eos) beams fullGbeam
  match a.makeT0Beam ctx 0 (a.lastGbeam fullGbeam beams)
      (eosScores columns scoreWeights eos fullGbeam beams) with
  | none => none
  | some row => some (beams.modify eos fun rows => rows.set 0 row)

/-- The end of the pass. -/
def scoreAdditional (lat : Lattice) (scorers : List ScoreComputer) (scoreWeights : List Score)
    (st : GbeamState) : Option GbeamState :=
  if scorers.isEmpty then some st
  else
    let columns := st.scores :: scorers.map fun s => s lat st
    let beams := adjustBeamScores lat columns scoreWeights st.globalBeams st.beams
    match a.remakeEosBeam lat columns scoreWeights st.globalBeams beams with
    | none => none
    | some beams => some { st with beams := beams }

/-- The pass with additional scorers. -/
def computeScoresGbeamScorers (lat : Lattice) (scorers : List ScoreComputer)
    (scoreWeights : List Score) : Option GbeamState :=
  match a.computeScoresGbeam lat with
  | none => none
  | some st =>
      if lat.createdBoundaryCount ≤ 3 then some st
      else a.scoreAdditional lat scorers scoreWeights st

end AnalyzerImpl

end Jumanpp.Core.Analysis
