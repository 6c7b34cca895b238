import Jumanpp.Core.Analysis.ScoreProcessor
import Jumanpp.Lib.Loops
import Mathlib.Data.List.GetD
import Mathlib.Tactic.Ring

/-!
# The full scoring pass

`computeScoresFull` scores every pair of a right node and an active beam element of a left node of
the boundary and keeps the best candidates of each right node.
-/

namespace Jumanpp.Core.Analysis

open Jumanpp.Lib Jumanpp.Util

namespace AnalyzerImpl

variable {P : Type} (a : AnalyzerImpl P)

/-- The beams of the two BOS nodes. -/
def bootstrapAnalysis : Beams :=
  let bos : ConnectionBeamElement := ⟨.conn 0 0 0 0 .null, 0⟩
  let bos1 : ConnectionBeamElement := ⟨.conn 1 0 0 0 bos.ptr, 0⟩
  [[bos :: List.replicate (a.beamSize - 1) fake], [bos1 :: List.replicate (a.beamSize - 1) fake]]

/-- The inner loop of the pass: the beam of one left node. -/
def scoreBeam (boundary nodes : Nat) (beams : Beams) (scores : LatticeBoundaryScores)
    (left : LatticeNodePtr × Nat) : LatticeBoundaryScores :=
  let (t1node, t1idx) := left
  let bufferT1 := a.applyT1 boundary t1node (a.applyT0 boundary)
  (activeBeam (beamAt beams t1node)).zipIdx.foldl
    (fun scores (prev, beamIdx) =>
      let bufferT2 := a.applyT2 boundary t1node prev bufferT1
      let bufferT2 := a.applyPluginToFullBeam boundary t1idx beamIdx prev bufferT2
      importBeamScore t1idx beamIdx nodes bufferT2 scores)
    scores

/-- The loops of the pass over the left nodes of a boundary and over their beams. -/
def scoreConnections (boundary : Nat) (bnd : LatticeBoundary) (beams : Beams) :
    LatticeBoundaryScores :=
  bnd.ends.zipIdx.foldl (a.scoreBeam boundary bnd.localNodeCount beams) .empty

/-- The beam element that a candidate turns into. -/
def beamElement (boundary node : Nat) (ends : List LatticeNodePtr) (beams : Beams)
    (cand : BeamCandidate) : ConnectionBeamElement :=
  let prevNode := beamAt beams (ends.getD cand.left ⟨0, 0⟩)
  let prev := prevNode.getD cand.beam fake
  ⟨.conn (u16 boundary) cand.left (u16 node) cand.beam prev.ptr, cand.score⟩

/-- One turn of `makeBeams`.  The counter of the loop that fills the beam is a `u16`: it never
reaches a size of 2^16 or more. -/
def makeBeam (boundary : Nat) (bnd : LatticeBoundary) (beams : Beams)
    (scores : LatticeBoundaryScores) (node : Nat) : Option (List ConnectionBeamElement) :=
  match a.processBeamCandidates (a.fillBeamCandidates beams bnd.ends (scores node)) a.beamSize with
  | none => none
  | some res =>
      if res.length < 2 ^ 16 then
        some (res.map (beamElement boundary node bnd.ends beams) ++
          List.replicate (a.beamSize - res.length) fake)
      else none

def makeBeams (boundary : Nat) (bnd : LatticeBoundary) (beams : Beams)
    (scores : LatticeBoundaryScores) : Option (List (List ConnectionBeamElement)) :=
  (List.range bnd.localNodeCount).mapM (a.makeBeam boundary bnd beams scores)

def scoreBoundaryFull (boundary : Nat) (bnd : LatticeBoundary) (beams : Beams) :
    Option (List (List ConnectionBeamElement)) :=
  a.makeBeams boundary bnd beams (a.scoreConnections boundary bnd beams)

/-- The loop over the boundaries; `none` when it does not come to its end. -/
def scoreBoundariesFull : List LatticeBoundary → Beams → Option Beams
  | [], beams => some beams
  | bnd :: bnds, beams =>
      match a.scoreBoundaryFull beams.length bnd beams with
      | none => none
      | some rows => scoreBoundariesFull bnds (beams ++ [rows])

def computeScoresFull (lat : Lattice) : Option Beams :=
  if lat.createdBoundaryCount ≤ 3 then some a.bootstrapAnalysis
  else a.scoreBoundariesFull (lat.boundaries.drop 2) a.bootstrapAnalysis

/-- What the pass stores for one connection. -/
def localScore (boundary : Nat) (t1 : LatticeNodePtr) (left beam : Nat)
    (prev : ConnectionBeamElement) (t0 : Nat) : Score :=
  a.applyPluginToFullBeam boundary left beam prev
    (a.applyT2 boundary t1 prev (a.applyT1 boundary t1 (a.applyT0 boundary))) t0

/-- Every score is read back from the place where it was stored. -/
theorem scoreConnections_eq (boundary : Nat) (bnd : LatticeBoundary) (beams : Beams)
    {left beam t0 : Nat} {t1 : LatticeNodePtr} {prev : ConnectionBeamElement}
    (hleft : (t1, left) ∈ bnd.ends.zipIdx)
    (hprev : (prev, beam) ∈ (activeBeam (beamAt beams t1)).zipIdx)
    (ht0 : t0 < bnd.localNodeCount) :
    a.scoreConnections boundary bnd beams t0 beam left =
      a.localScore boundary t1 left beam prev t0 := by
  let written : LatticeBoundaryScores → LatticeNodePtr → Nat → Prop := fun scores t1 left =>
    ∀ prev beam, (prev, beam) ∈ (activeBeam (beamAt beams t1)).zipIdx →
      scores t0 beam left = a.localScore boundary t1 left beam prev t0
  have hwrite : ∀ scores t1 left, written
      (a.scoreBeam boundary bnd.localNodeCount beams scores (t1, left)) t1 left := by
    intro scores t1 left
    unfold scoreBeam
    refine foldl_zipIdx_holds (P := fun scores prev beam =>
      scores t0 beam left = a.localScore boundary t1 left beam prev t0) _ 0 scores ?_ ?_
    · intro scores prev beam _
      simp [importBeamScore, ht0, localScore]
    · intro scores x i prev beam hlt hscores
      rw [← hscores]
      simp only [importBeamScore]
      rw [if_neg (by omega)]
  have hkeep : ∀ scores x i t1 left, left < i → written scores t1 left →
      written (a.scoreBeam boundary bnd.localNodeCount beams scores (x, i)) t1 left := by
    intro scores x i t1 left hlt hscores prev beam hprev
    unfold scoreBeam
    refine foldl_zipIdx_keeps (P := fun scores =>
      scores t0 beam left = a.localScore boundary t1 left beam prev t0) _ 0 scores ?_
      (hscores prev beam hprev)
    intro scores x' i' _ hscores
    rw [← hscores]
    simp only [importBeamScore]
    rw [if_neg (by omega)]
  exact foldl_zipIdx_holds (P := written) bnd.ends 0 _ (fun scores t1 left _ => hwrite scores t1 left)
    hkeep t1 left hleft prev beam hprev

/-- The candidates of a right node, computed from the beams alone. -/
def candidates (boundary : Nat) (bnd : LatticeBoundary) (beams : Beams) (t0 : Nat) :
    List BeamCandidate :=
  bnd.ends.zipIdx.flatMap fun (t1, left) =>
    (activeBeam (beamAt beams t1)).zipIdx.map fun (prev, beam) =>
      .pack a.platform (prev.totalScore + a.localScore boundary t1 left beam prev t0) left beam

theorem fillBeamCandidates_eq (boundary : Nat) (bnd : LatticeBoundary) (beams : Beams) {t0 : Nat}
    (ht0 : t0 < bnd.localNodeCount) :
    a.fillBeamCandidates beams bnd.ends (a.scoreConnections boundary bnd beams t0) =
      a.candidates boundary bnd beams t0 := by
  unfold fillBeamCandidates candidates
  refine List.flatMap_congr fun (t1, left) hleft => ?_
  refine List.map_congr_left fun (prev, beam) hprev => ?_
  simp only [a.scoreConnections_eq boundary bnd beams hleft hprev ht0]

/-- The number of candidates does not depend on the scores. -/
theorem length_candidates (boundary : Nat) (bnd : LatticeBoundary) (beams : Beams) (t0 : Nat) :
    (a.candidates boundary bnd beams t0).length =
      (bnd.ends.map fun t1 => (activeBeam (beamAt beams t1)).length).sum := by
  unfold candidates
  rw [List.length_flatMap]
  simp only [List.length_map, List.length_zipIdx]
  rw [map_zipIdx_fst fun t1 => (activeBeam (beamAt beams t1)).length]

end AnalyzerImpl

/-- The path of a beam element of the node `ptr`. -/
def ConnectionBeamElement.path (ptr : LatticeNodePtr) (e : ConnectionBeamElement) :
    List LatticeNodePtr :=
  ptr :: e.ptr.previous.nodes

/-- An element of the beam of `ptr` points to the active element that it continues. -/
structure Linked (lat : Lattice) (beams : Beams) (ptr : LatticeNodePtr)
    (e : ConnectionBeamElement) (left : LatticeNodePtr) (prev : ConnectionBeamElement) : Prop where
  ends : (lat.boundary ptr.boundary).ends[e.ptr.left]? = some left
  beam : (activeBeam (beamAt beams left))[e.ptr.beam]? = some prev
  ptr_eq : e.ptr = .conn (u16 ptr.boundary) e.ptr.left (u16 ptr.position) e.ptr.beam prev.ptr

theorem beamAt_append {beams : Beams} {ptr : LatticeNodePtr} (h : ptr.boundary < beams.length)
    (rows : Beams) : beamAt (beams ++ rows) ptr = beamAt beams ptr := by
  unfold beamAt
  rw [List.getD_append _ _ _ _ h]

theorem Linked.append {lat : Lattice} {beams : Beams} {ptr left : LatticeNodePtr}
    {e prev : ConnectionBeamElement} (h : Linked lat beams ptr e left prev)
    (hptr : 2 ≤ ptr.boundary) (hlength : ptr.boundary ≤ beams.length) (rows : Beams) :
    Linked lat (beams ++ rows) ptr e left prev where
  ends := h.ends
  beam := by
    have hback := lat.ends_back ptr.boundary hptr left (List.mem_of_getElem? h.ends)
    rw [beamAt_append (by omega)]
    exact h.beam
  ptr_eq := h.ptr_eq

theorem beamAt_last (beams : Beams) (rows : List (List ConnectionBeamElement)) (node : Nat) :
    beamAt (beams ++ [rows]) ⟨beams.length, node⟩ = rows.getD node [] := by
  unfold beamAt
  rw [List.getD_append_right _ _ _ _ (Nat.le_refl _), Nat.sub_self]
  rfl

theorem getD_of_getElem?_activeBeam {row : List ConnectionBeamElement} {i : Nat}
    {e : ConnectionBeamElement} (h : (activeBeam row)[i]? = some e) : row.getD i fake = e := by
  have hprefix : activeBeam row <+: row := List.takeWhile_prefix _
  obtain ⟨hi, rfl⟩ := List.getElem?_eq_some_iff.mp h
  rw [List.getD_eq_getElem?_getD, List.prefix_iff_getElem?.mp hprefix i hi]
  rfl

namespace AnalyzerImpl

variable {P : Type} (a : AnalyzerImpl P) (lat : Lattice)

/-- The score of a path: one step of the scorer for each node after BOS. -/
def pathScore : List LatticeNodePtr → Score
  | t0 :: t1 :: t2 :: rest =>
      a.scorer.uni (a.patterns t0) + a.scorer.bi (a.patterns t0) (a.patterns t1) +
        a.scorer.tri (a.patterns t0) (a.patterns t1) (a.patterns t2) + pathScore (t1 :: t2 :: rest)
  | _ => 0

/-- Only the n-grams are scored, and the packed scores are not clobbered. -/
structure Plain : Prop where
  noPlugin : a.plugin = none
  ends_length : ∀ b, (lat.boundary b).ends.length < 2 ^ 15

/-- In addition the step of the scorer depends on the two adjacent nodes only. -/
structure Exact : Prop extends a.Plain lat where
  adjacent : ∀ t0 t1 t2 t2', a.scorer.tri t0 t1 t2 = a.scorer.tri t0 t1 t2'

def NotWorse (path path' : List LatticeNodePtr) : Prop :=
  a.pathScore path' ≤ a.pathScore path

/-- What the full pass establishes for the beam `row` of a node. -/
structure NodeInv (beams : Beams) (ptr : LatticeNodePtr) (row : List ConnectionBeamElement) :
    Prop where
  length_eq : (activeBeam row).length = min a.beamSize (lat.paths ptr).length
  own : ∀ e ∈ activeBeam row, ∃ left beam b l r m p,
    e.ptr = .conn (u16 ptr.boundary) left (u16 ptr.position) beam (.conn b l r m p)
  path : ∀ e ∈ activeBeam row, e.path ptr ∈ lat.paths ptr
  linked : 2 ≤ ptr.boundary → ∀ e ∈ activeBeam row, ∃ left prev, Linked lat beams ptr e left prev
  best : a.Exact lat → IsTopK a.NotWorse a.beamSize (lat.paths ptr)
    ((activeBeam row).map (·.path ptr))
  total : a.Plain lat → ∀ e ∈ activeBeam row, e.totalScore = a.pathScore (e.path ptr)

/-- The first `n` boundaries are done. -/
structure RunInv (n : Nat) (beams : Beams) : Prop where
  length_eq : beams.length = n
  two_le : 2 ≤ n
  node : ∀ ptr, 1 ≤ ptr.boundary → ptr.boundary < n →
    ptr.position < (lat.boundary ptr.boundary).localNodeCount →
      a.NodeInv lat beams ptr (beamAt beams ptr)

variable {a lat}

theorem runInv_bootstrap : a.RunInv lat 2 a.bootstrapAnalysis where
  length_eq := rfl
  two_le := le_refl 2
  node ptr hptr hlt hposition := by
    have hone : ptr = ⟨1, 0⟩ := by
      have hbos := lat.bosNodes 1 (by omega)
      have hboundary : ptr.boundary = 1 := by omega
      rw [hboundary] at hposition
      change ptr.position < (boundaryAt lat.boundaries 1).localNodeCount at hposition
      cases ptr
      simp only [LatticeNodePtr.mk.injEq]
      simp only at hboundary hposition
      omega
    subst hone
    have hactive : activeBeam (beamAt a.bootstrapAnalysis ⟨1, 0⟩) =
        [⟨.conn 1 0 0 0 (.conn 0 0 0 0 .null), 0⟩] := by
      let bos1 : ConnectionBeamElement := ⟨.conn 1 0 0 0 (.conn 0 0 0 0 .null), 0⟩
      have hreal : ∀ e ∈ [bos1], isFake e = false := by
        intro e he
        obtain rfl := List.mem_singleton.mp he
        rfl
      exact activeBeam_append_fake (a.beamSize - 1) hreal
    have hpaths := lat.paths_bos ⟨1, 0⟩ rfl
    have hpos := a.beamSize_pos
    refine ⟨?_, ?_, ?_, ?_, ?_, ?_⟩
    · rw [hactive, hpaths, List.length_singleton, List.length_singleton]
      omega
    · rw [hactive]
      rintro e he
      obtain rfl := List.mem_singleton.mp he
      exact ⟨0, 0, 0, 0, 0, 0, .null, rfl⟩
    · rw [hactive, hpaths]
      rintro e he
      obtain rfl := List.mem_singleton.mp he
      exact List.mem_singleton.mpr rfl
    · intro htwo
      exact absurd htwo (by decide)
    · intro _
      rw [hactive, hpaths]
      refine ⟨List.pairwise_singleton _ _, ?_, [], List.Perm.refl _, by simp⟩
      simp only [List.length_map, List.length_singleton]
      omega
    · rw [hactive]
      rintro - e he
      obtain rfl := List.mem_singleton.mp he
      rfl

section Step

variable {n : Nat} {beams : Beams} (hinv : a.RunInv lat n beams)

include hinv

theorem RunInv.left {t1 : LatticeNodePtr} (ht1 : t1 ∈ (lat.boundary n).ends) :
    a.NodeInv lat beams t1 (beamAt beams t1) := by
  have hback := lat.ends_back n hinv.two_le t1 ht1
  exact hinv.node t1 hback.1 hback.2 (lat.ends_valid n hinv.two_le t1 ht1)

theorem RunInv.nodes_eq_path {t1 : LatticeNodePtr} (ht1 : t1 ∈ (lat.boundary n).ends)
    {prev : ConnectionBeamElement} (hprev : prev ∈ activeBeam (beamAt beams t1)) :
    prev.ptr.nodes = prev.path t1 := by
  obtain ⟨left, beam, b, l, r, m, p, hptr⟩ := (hinv.left ht1).own prev hprev
  have hu16 := lat.ends_u16 n hinv.two_le t1 ht1
  unfold ConnectionBeamElement.path
  rw [hptr, u16_of_lt hu16.1, u16_of_lt hu16.2]
  rfl

/-- As many candidates as the beam can hold, or one for each path. -/
theorem RunInv.min_length_candidates (t0 : Nat) :
    min a.beamSize (a.candidates n (lat.boundary n) beams t0).length =
      min a.beamSize (lat.paths ⟨n, t0⟩).length := by
  have hlengths : ((lat.boundary n).ends.map fun t1 => (activeBeam (beamAt beams t1)).length) =
      (lat.boundary n).ends.map fun t1 => min a.beamSize (lat.paths t1).length :=
    List.map_congr_left fun t1 ht1 => (hinv.left ht1).length_eq
  rw [length_candidates, hlengths, sum_min_eq, lat.paths_node ⟨n, t0⟩ hinv.two_le,
    List.length_flatMap]
  simp only [List.length_map]

omit hinv in
theorem mem_candidates {boundary t0 : Nat} {bnd : LatticeBoundary} {cand : BeamCandidate} :
    cand ∈ a.candidates boundary bnd beams t0 ↔
      ∃ t1 left prev beam, (t1, left) ∈ bnd.ends.zipIdx ∧
        (prev, beam) ∈ (activeBeam (beamAt beams t1)).zipIdx ∧
        cand = .pack a.platform
          (prev.totalScore + a.localScore boundary t1 left beam prev t0) left beam := by
  unfold candidates
  simp only [List.mem_flatMap, List.mem_map, Prod.exists]
  constructor
  · rintro ⟨t1, left, hleft, prev, beam, hprev, rfl⟩
    exact ⟨t1, left, prev, beam, hleft, hprev, rfl⟩
  · rintro ⟨t1, left, prev, beam, hleft, hprev, rfl⟩
    exact ⟨t1, left, hleft, prev, beam, hprev, rfl⟩

omit hinv in
/-- A candidate turns into an element that continues the one it was made from. -/
theorem beamElement_of_mem {boundary node left beam : Nat} {ends : List LatticeNodePtr}
    {t1 : LatticeNodePtr} {prev : ConnectionBeamElement} {cand : BeamCandidate}
    (hleft : ends[left]? = some t1) (hprev : (activeBeam (beamAt beams t1))[beam]? = some prev)
    (hcandLeft : cand.left = left) (hcandBeam : cand.beam = beam) :
    beamElement boundary node ends beams cand =
      ⟨.conn (u16 boundary) left (u16 node) beam prev.ptr, cand.score⟩ := by
  unfold beamElement
  rw [hcandLeft, hcandBeam, List.getD_eq_getElem?_getD, hleft]
  simp only [Option.getD_some]
  rw [getD_of_getElem?_activeBeam hprev]

/-- The paths of the elements that the candidates of a node turn into. -/
theorem RunInv.map_path_candidates (t0 : Nat) :
    (a.candidates n (lat.boundary n) beams t0).map (fun cand =>
        (beamElement n t0 (lat.boundary n).ends beams cand).path ⟨n, t0⟩) =
      (lat.boundary n).ends.flatMap fun t1 =>
        ((activeBeam (beamAt beams t1)).map (·.path t1)).map (⟨n, t0⟩ :: ·) := by
  rw [← flatMap_zipIdx_fst fun t1 =>
    ((activeBeam (beamAt beams t1)).map (·.path t1)).map (⟨n, t0⟩ :: ·)]
  unfold candidates
  rw [List.map_flatMap]
  refine List.flatMap_congr fun (t1, left) hleft => ?_
  rw [List.map_map, List.map_map]
  let extend : ConnectionBeamElement → List LatticeNodePtr := fun prev => ⟨n, t0⟩ :: prev.path t1
  refine Eq.trans ?_ (map_zipIdx_fst extend (activeBeam (beamAt beams t1)))
  refine List.map_congr_left fun (prev, beam) hprev => ?_
  rw [List.mk_mem_zipIdx_iff_getElem?] at hleft hprev
  simp only [Function.comp_apply]
  simp only [extend]
  rw [beamElement_of_mem hleft hprev rfl rfl,
    ← hinv.nodes_eq_path (List.mem_of_getElem? hleft) (List.mem_of_getElem? hprev)]
  rfl

/-- Each candidate carries the score of its path. -/
theorem RunInv.score_candidate (hplain : a.Plain lat) {t0 : Nat} {cand : BeamCandidate}
    (hcand : cand ∈ a.candidates n (lat.boundary n) beams t0) :
    cand.score = a.pathScore
      ((beamElement n t0 (lat.boundary n).ends beams cand).path ⟨n, t0⟩) := by
  rw [mem_candidates] at hcand
  obtain ⟨t1, left, prev, beam, hleft, hprev, rfl⟩ := hcand
  rw [List.mk_mem_zipIdx_iff_getElem?] at hleft hprev
  have ht1 := List.mem_of_getElem? hleft
  have hprevMem := List.mem_of_getElem? hprev
  have hlt : left < 2 ^ 15 := by
    obtain ⟨hlt, -⟩ := List.getElem?_eq_some_iff.mp hleft
    exact lt_trans hlt (hplain.ends_length n)
  rw [beamElement_of_mem hleft hprev rfl rfl, BeamCandidate.pack_of_lt hlt]
  obtain ⟨l', m', b, l, r, m, p, hptr⟩ := (hinv.left ht1).own prev hprevMem
  have hpath : prev.ptr.nodes = t1 :: prev.ptr.previous.latticeNodePtr :: p.nodes := by
    rw [hinv.nodes_eq_path ht1 hprevMem]
    unfold ConnectionBeamElement.path
    rw [hptr]
    rfl
  have htotal : prev.totalScore = a.pathScore prev.ptr.nodes := by
    rw [hinv.nodes_eq_path ht1 hprevMem]
    exact (hinv.left ht1).total hplain prev hprevMem
  change prev.totalScore + a.localScore n t1 left beam prev t0 =
    a.pathScore (⟨n, t0⟩ :: prev.ptr.nodes)
  rw [htotal, hpath]
  simp only [pathScore, localScore, applyPluginToFullBeam, applyT2, applyT1, applyT0, pluginScore,
    hplain.noPlugin, add_zero]
  ring

/-- The turn of `makeBeams` for one node. -/
theorem RunInv.makeBeam_spec (t0 : Nat) (ht0 : t0 < (lat.boundary n).localNodeCount) :
    ∃ row, a.makeBeam n (lat.boundary n) beams (a.scoreConnections n (lat.boundary n) beams) t0 =
        (if min a.beamSize (lat.paths ⟨n, t0⟩).length < 2 ^ 16 then some row else none) ∧
      a.NodeInv lat beams ⟨n, t0⟩ row := by
  let ptr : LatticeNodePtr := ⟨n, t0⟩
  let ends := (lat.boundary n).ends
  let cands := a.candidates n (lat.boundary n) beams t0
  obtain ⟨res, hres, htop⟩ := a.processBeamCandidates_spec cands a.beamSize a.beamSize_pos
  have hlength : res.length = min a.beamSize (lat.paths ptr).length := by
    rw [htop.length_eq]
    exact hinv.min_length_candidates t0
  let row := res.map (beamElement n t0 ends beams) ++
    List.replicate (a.beamSize - res.length) fake
  -- every candidate continues an active element of the beam of a left node
  have hcand : ∀ cand ∈ cands, ∃ t1 prev, ends[cand.left]? = some t1 ∧
      (activeBeam (beamAt beams t1))[cand.beam]? = some prev ∧
      beamElement n t0 ends beams cand =
        ⟨.conn (u16 n) cand.left (u16 t0) cand.beam prev.ptr, cand.score⟩ := by
    intro cand hmem
    obtain ⟨t1, left, prev, beam, hleft, hprev, rfl⟩ := mem_candidates.mp hmem
    rw [List.mk_mem_zipIdx_iff_getElem?] at hleft hprev
    exact ⟨t1, prev, hleft, hprev, beamElement_of_mem hleft hprev rfl rfl⟩
  have hactive : activeBeam row = res.map (beamElement n t0 ends beams) := by
    refine activeBeam_append_fake _ fun e he => ?_
    obtain ⟨cand, hmem, rfl⟩ := List.mem_map.mp he
    obtain ⟨t1, prev, hleft, -, helem⟩ := hcand cand (htop.subset hmem)
    obtain ⟨hlt, -⟩ := List.getElem?_eq_some_iff.mp hleft
    have hends := lat.ends_length n
    have hne : cand.left ≠ 0xffff := by
      change ends.length < 2 ^ 16 at hends
      omega
    rw [helem]
    simp [isFake, hne]
  refine ⟨row, ?_, ?_, ?_, ?_, ?_, ?_, ?_⟩
  · unfold makeBeam
    rw [fillBeamCandidates_eq a n (lat.boundary n) beams ht0, hres]
    change _ = if min a.beamSize (lat.paths ptr).length < 2 ^ 16 then some row else none
    rw [← hlength]
  · rw [hactive, List.length_map]
    exact hlength
  · rw [hactive]
    intro e he
    obtain ⟨cand, hmem, rfl⟩ := List.mem_map.mp he
    obtain ⟨t1, prev, hleft, hprev, helem⟩ := hcand cand (htop.subset hmem)
    obtain ⟨l', m', b, l, r, m, p, hptr⟩ :=
      (hinv.left (List.mem_of_getElem? hleft)).own prev (List.mem_of_getElem? hprev)
    rw [helem]
    exact ⟨cand.left, cand.beam, _, _, _, _, _, by rw [hptr]⟩
  · rw [hactive]
    intro e he
    obtain ⟨cand, hmem, rfl⟩ := List.mem_map.mp he
    have hpath : (beamElement n t0 ends beams cand).path ptr ∈
        cands.map fun cand => (beamElement n t0 ends beams cand).path ptr :=
      List.mem_map_of_mem (htop.subset hmem)
    rw [hinv.map_path_candidates t0] at hpath
    rw [lat.paths_node ptr hinv.two_le]
    simp only [List.mem_flatMap, List.mem_map] at hpath ⊢
    obtain ⟨t1, ht1, _, ⟨prev, hprev, rfl⟩, heq⟩ := hpath
    exact ⟨t1, ht1, prev.path t1, (hinv.left ht1).path prev hprev, heq⟩
  · rw [hactive]
    intro _ e he
    obtain ⟨cand, hmem, rfl⟩ := List.mem_map.mp he
    obtain ⟨t1, prev, hleft, hprev, helem⟩ := hcand cand (htop.subset hmem)
    rw [helem]
    exact ⟨t1, prev, hleft, hprev, rfl⟩
  · intro hexact
    rw [hactive, List.map_map]
    have hmapped : IsTopK a.NotWorse a.beamSize
        (cands.map fun cand => (beamElement n t0 ends beams cand).path ptr)
        (res.map fun cand => (beamElement n t0 ends beams cand).path ptr) := by
      refine htop.map _ fun c hc c' hc' hnotAfter => ?_
      unfold NotWorse
      rw [← hinv.score_candidate hexact.toPlain hc, ← hinv.score_candidate hexact.toPlain hc']
      exact BeamCandidate.score_ge_of_notAfter hnotAfter
    rw [hinv.map_path_candidates t0] at hmapped
    rw [lat.paths_node ptr hinv.two_le]
    refine isTopK_flatMap (fun _ => le_refl _) (fun _ _ _ h h' => le_trans h' h) ?_ hmapped
    intro t1 ht1
    refine ((hinv.left ht1).best hexact).map _ fun path hpath path' hpath' hle => ?_
    -- both paths end in t1: the new step adds the same score to each
    have hpaths := lat.paths_cons_cons t1 (lat.ends_back n hinv.two_le t1 ht1).1
    obtain ⟨t2, rest, rfl⟩ := hpaths path hpath
    obtain ⟨t2', rest', rfl⟩ := hpaths path' hpath'
    have hadjacent := hexact.adjacent (a.patterns ptr) (a.patterns t1) (a.patterns t2)
      (a.patterns t2')
    change a.pathScore (ptr :: t1 :: t2' :: rest') ≤ a.pathScore (ptr :: t1 :: t2 :: rest)
    rw [pathScore, pathScore, hadjacent]
    exact add_le_add_right hle _
  · intro hplain
    rw [hactive]
    intro e he
    obtain ⟨cand, hmem, rfl⟩ := List.mem_map.mp he
    have hscore := hinv.score_candidate hplain (htop.subset hmem)
    rw [← hscore]
    rfl

omit hinv in
theorem NodeInv.append {ptr : LatticeNodePtr} {row : List ConnectionBeamElement}
    (h : a.NodeInv lat beams ptr row) (hlength : ptr.boundary ≤ beams.length) (rows : Beams) :
    a.NodeInv lat (beams ++ rows) ptr row where
  length_eq := h.length_eq
  own := h.own
  path := h.path
  linked hptr e he := by
    obtain ⟨left, prev, hlinked⟩ := h.linked hptr e he
    exact ⟨left, prev, hlinked.append hptr hlength rows⟩
  best := h.best
  total := h.total

/-- The beam of a node has to fit the counter of the loop that fills it. -/
def Fits (a : AnalyzerImpl P) (lat : Lattice) (ptr : LatticeNodePtr) : Prop :=
  min a.beamSize (lat.paths ptr).length < 2 ^ 16

theorem RunInv.scoreBoundaryFull_some_iff :
    (∃ rows, a.scoreBoundaryFull n (lat.boundary n) beams = some rows) ↔
      ∀ t0 < (lat.boundary n).localNodeCount, a.Fits lat ⟨n, t0⟩ := by
  unfold scoreBoundaryFull makeBeams
  rw [exists_mapM_iff]
  simp only [List.mem_range]
  refine forall_congr' fun t0 => forall_congr' fun ht0 => ?_
  obtain ⟨row, hrow, -⟩ := hinv.makeBeam_spec t0 ht0
  rw [hrow]
  unfold Fits
  split_ifs with hfits
  · exact ⟨fun _ => hfits, fun _ => ⟨row, rfl⟩⟩
  · exact ⟨fun ⟨_, h⟩ => (nomatch h), fun h => absurd h hfits⟩

/-- One turn of the loop over the boundaries. -/
theorem RunInv.step {rows : List (List ConnectionBeamElement)}
    (hrows : a.scoreBoundaryFull n (lat.boundary n) beams = some rows) :
    a.RunInv lat (n + 1) (beams ++ [rows]) where
  length_eq := by rw [List.length_append, hinv.length_eq, List.length_singleton]
  two_le := by have := hinv.two_le; omega
  node ptr hptr hlt hposition := by
    have hlength := hinv.length_eq
    by_cases hold : ptr.boundary < n
    · rw [beamAt_append (by omega)]
      exact (hinv.node ptr hptr hold hposition).append (by omega) [rows]
    · obtain ⟨b, t0⟩ := ptr
      obtain rfl : b = n := by simp only at hlt hold; omega
      obtain ⟨row, hsome, hget⟩ := getElem?_of_mapM_range hrows t0 hposition
      obtain ⟨row', hrow', hnode⟩ := hinv.makeBeam_spec t0 hposition
      have hrowEq : row = row' := by
        rw [hrow'] at hsome
        split_ifs at hsome
        exact (Option.some.inj hsome).symm
      subst hrowEq
      have hbeamAt : beamAt (beams ++ [rows]) ⟨b, t0⟩ = row := by
        rw [← hlength, beamAt_last, List.getD_eq_getElem?_getD, hget]
        rfl
      rw [hbeamAt]
      exact hnode.append (by simp only; omega) [rows]

end Step

/-- The run over the remaining boundaries: it comes to its end if and only if every beam fits, and
then all nodes have the beams they should have. -/
theorem RunInv.run {n : Nat} {beams : Beams} (hinv : a.RunInv lat n beams)
    (bnds : List LatticeBoundary) (hbnds : lat.boundaries.drop n = bnds)
    (hn : n ≤ lat.createdBoundaryCount) :
    ((∃ beams', a.scoreBoundariesFull bnds beams = some beams') ↔
        ∀ ptr, lat.IsNode ptr → n ≤ ptr.boundary → a.Fits lat ptr) ∧
      ∀ beams', a.scoreBoundariesFull bnds beams = some beams' →
        a.RunInv lat lat.createdBoundaryCount beams' := by
  induction bnds generalizing n beams with
  | nil =>
      have hend : n = lat.createdBoundaryCount := by
        rw [List.drop_eq_nil_iff] at hbnds
        exact le_antisymm hn hbnds
      refine ⟨⟨fun _ ptr hptr hle => ?_, fun _ => ⟨beams, rfl⟩⟩, fun beams' h => ?_⟩
      · have := hptr.2.1
        omega
      · cases h
        exact hend ▸ hinv
  | cons bnd bnds ih =>
      have hlt : n < lat.boundaries.length := by
        by_contra hge
        rw [List.drop_eq_nil_of_le (by omega)] at hbnds
        cases hbnds
      rw [List.drop_eq_getElem_cons hlt] at hbnds
      obtain ⟨hbnd, hrest⟩ := List.cons.inj hbnds
      have hboundary : lat.boundary n = bnd := by
        unfold Lattice.boundary boundaryAt
        rw [List.getD_eq_getElem _ _ hlt, hbnd]
      have hsome := hinv.scoreBoundaryFull_some_iff
      rw [hboundary] at hsome
      unfold scoreBoundariesFull
      rw [hinv.length_eq]
      cases hstep : a.scoreBoundaryFull n bnd beams with
      | none =>
          refine ⟨⟨fun ⟨_, h⟩ => (nomatch h), fun hfits => ?_⟩, fun _ h => (nomatch h)⟩
          rw [hstep] at hsome
          obtain ⟨_, h⟩ := hsome.mpr fun t0 ht0 =>
            hfits ⟨n, t0⟩ ⟨hinv.two_le, hlt, by rw [hboundary]; exact ht0⟩ (le_refl n)
          cases h
      | some rows =>
          have hfitsHere := hsome.mp ⟨rows, hstep⟩
          obtain ⟨hiff, hrun⟩ := ih (hinv.step (by rw [hboundary]; exact hstep)) hrest hlt
          refine ⟨hiff.trans ⟨fun hfits ptr hptr hle => ?_, fun hfits ptr hptr hle => ?_⟩, hrun⟩
          · by_cases hhere : ptr.boundary = n
            · obtain ⟨b, t0⟩ := ptr
              obtain rfl : b = n := hhere
              have hposition := hptr.2.2
              rw [hboundary] at hposition
              exact hfitsHere t0 hposition
            · exact hfits ptr hptr (by omega)
          · exact hfits ptr hptr (by omega)

/-- `computeScoresFull` from the bootstrapped beams. -/
theorem computeScoresFull_spec (a : AnalyzerImpl P) (lat : Lattice) :
    ((∃ beams, a.computeScoresFull lat = some beams) ↔ ∀ ptr, lat.IsNode ptr → a.Fits lat ptr) ∧
      ∀ beams, a.computeScoresFull lat = some beams →
        a.RunInv lat lat.createdBoundaryCount beams := by
  have hlength := lat.four_le_length
  have hcount : ¬ lat.createdBoundaryCount ≤ 3 := by
    unfold Lattice.createdBoundaryCount
    omega
  unfold computeScoresFull
  rw [if_neg hcount]
  have hbootstrap : a.RunInv lat 2 a.bootstrapAnalysis := runInv_bootstrap
  obtain ⟨hiff, hrun⟩ := hbootstrap.run (lat.boundaries.drop 2) rfl (by omega)
  refine ⟨hiff.trans ⟨fun h ptr hptr => h ptr hptr hptr.1, fun h ptr hptr _ => h ptr hptr⟩, hrun⟩

/-- The total of an element is the score of its path. -/
theorem totalScore_of_computeScoresFull {a : AnalyzerImpl P} {lat : Lattice} (hplain : a.Plain lat)
    {beams : Beams} (hbeams : a.computeScoresFull lat = some beams) {ptr : LatticeNodePtr}
    (hptr : lat.IsNode ptr) {e : ConnectionBeamElement}
    (he : e ∈ activeBeam (beamAt beams ptr)) : e.totalScore = a.pathScore (e.path ptr) := by
  have hinv := (computeScoresFull_spec a lat).2 beams hbeams
  have hnode := hinv.node ptr (le_trans (by omega) hptr.1) hptr.2.1 hptr.2.2
  exact hnode.total hplain e he

end AnalyzerImpl

end Jumanpp.Core.Analysis
