import Jumanpp.Core.Analysis.RightCheck
import Jumanpp.Core.Analysis.Viterbi
import Mathlib.Tactic.Linarith

/-!
# The global beam against the full pass

With a global beam that has room for every live element and no right check, both passes choose from
the same candidates with the same scores.
-/

namespace Jumanpp.Core.Analysis

open Jumanpp.Lib

namespace AnalyzerImpl

variable {P : Type} {a : AnalyzerImpl P} {lat : Lattice}

/-- The live elements to the left of a boundary. -/
def liveCandidates (bnd : LatticeBoundary) (beams : Beams) : Nat :=
  (bnd.ends.map fun t1 => (activeBeam (beamAt beams t1)).length).sum

/-- The candidate of the full pass for an element of the global beam. -/
def rescore (a : AnalyzerImpl P) (boundary : Nat) (ends : List LatticeNodePtr) (beams : Beams)
    (t0 : Nat) (cand : BeamCandidate) : BeamCandidate :=
  ⟨a.gbeamLocalScore boundary ends beams t0 cand + cand.score, cand.left, cand.beam⟩

section Boundary

variable {n : Nat} {beams : Beams} (hinv : a.RunInv lat n beams)
  (hends : ∀ b, (lat.boundary b).ends.length < 2 ^ 15)
  (hfits : ∀ ptr, lat.IsNode ptr → a.Fits lat ptr)

include hinv hends hfits

omit hends in
theorem length_activeBeam_lt {t1 : LatticeNodePtr} (ht1 : t1 ∈ (lat.boundary n).ends)
    (hn : n ≤ lat.createdBoundaryCount) : (activeBeam (beamAt beams t1)).length < 2 ^ 16 := by
  have hnode := hinv.left ht1
  have hback := lat.ends_back n hinv.two_le t1 ht1
  rw [hnode.length_eq]
  by_cases hbos : t1.boundary = 1
  · rw [lat.paths_bos t1 hbos, List.length_singleton]
    omega
  · exact hfits t1 ⟨by omega, by omega, lat.ends_valid n hinv.two_le t1 ht1⟩

/-- Both passes score the same pairs. -/
theorem candidates_eq_map_rescore (t0 : Nat) (hn : n ≤ lat.createdBoundaryCount) :
    a.candidates n (lat.boundary n) beams t0 =
      (a.gbeamCandidates (lat.boundary n).ends beams).map
        (a.rescore n (lat.boundary n).ends beams t0) := by
  unfold candidates gbeamCandidates
  rw [List.map_flatMap]
  refine List.flatMap_congr fun (t1, left) hleft => ?_
  rw [List.map_map]
  refine List.map_congr_left fun (prev, beam) hprev => ?_
  rw [List.mk_mem_zipIdx_iff_getElem?] at hleft hprev
  have ht1 := List.mem_of_getElem? hleft
  have hleftLt : left < 2 ^ 15 := by
    obtain ⟨hlt, -⟩ := List.getElem?_eq_some_iff.mp hleft
    exact lt_trans hlt (hends n)
  have hbeamLt : beam < 2 ^ 16 := by
    obtain ⟨hlt, -⟩ := List.getElem?_eq_some_iff.mp hprev
    exact lt_trans hlt (length_activeBeam_lt hinv hfits ht1 hn)
  have hnode : (lat.boundary n).ends.getD left ⟨0, 0⟩ = t1 := by
    rw [List.getD_eq_getElem?_getD, hleft]
    rfl
  have hprevElement : prevElement (lat.boundary n).ends beams
      ⟨prev.totalScore, left, beam⟩ = prev := by
    unfold prevElement
    simp only
    rw [hnode]
    exact getD_of_getElem?_activeBeam hprev
  have hleft16 : u16 left = left := u16_of_lt (by omega)
  have hbeam16 : u16 beam = beam := u16_of_lt hbeamLt
  simp only [Function.comp_apply]
  rw [BeamCandidate.pack_of_lt hleftLt, BeamCandidate.pack_of_lt hleftLt, hbeam16]
  unfold rescore gbeamLocalScore localScore applyPluginToFullBeam
  simp only
  rw [hprevElement, hnode, hleft16, hbeam16, add_comm]

omit hinv hends hfits in
/-- The global beam holds every live element. -/
theorem makeGlobalBeam_all (hlive : liveCandidates (lat.boundary n) beams ≤ a.globalBeamSize)
    (hpos : 0 < a.globalBeamSize) :
    ∃ gbeam, a.makeGlobalBeam (lat.boundary n).ends beams a.globalBeamSize = some gbeam ∧
      gbeam.cands.Perm (a.gbeamCandidates (lat.boundary n).ends beams) ∧
      gbeam.ptrs = gbeam.cands.map fun el =>
        ⟨(lat.boundary n).ends.getD el.left ⟨0, 0⟩, el.beam⟩ := by
  obtain ⟨res, hres, htop⟩ := a.processBeamCandidates_spec
    (a.gbeamCandidates (lat.boundary n).ends beams) a.globalBeamSize hpos
  refine ⟨⟨res, res.map fun el => ⟨(lat.boundary n).ends.getD el.left ⟨0, 0⟩, el.beam⟩⟩, ?_, ?_,
    rfl⟩
  · unfold makeGlobalBeam
    rw [hres]
  · have hlength : (a.gbeamCandidates (lat.boundary n).ends beams).length =
        liveCandidates (lat.boundary n) beams := by
      unfold gbeamCandidates liveCandidates
      rw [List.length_flatMap]
      simp only [List.length_map, List.length_zipIdx]
      rw [map_zipIdx_fst fun t1 => (activeBeam (beamAt beams t1)).length]
    obtain ⟨rest, hperm, -⟩ := htop.exists_rest
    have hrest : rest = [] := by
      have htotal := hperm.length_eq
      have hbest := htop.length_eq
      rw [List.length_append] at htotal
      exact List.length_eq_zero_iff.mp (by omega)
    rw [hrest, List.append_nil] at hperm
    exact hperm

/-- The distinct scores leave only one order of the candidates, whichever pass sorts them. -/
theorem scoreT0_eq_makeBeam {gbeam : GlobalBeam} {t0 : Nat} {row : List ConnectionBeamElement}
    (hn : n ≤ lat.createdBoundaryCount) (ht0 : t0 < (lat.boundary n).localNodeCount)
    (hdistinct : ((a.candidates n (lat.boundary n) beams t0).map BeamCandidate.score).Nodup)
    (hcands : gbeam.cands.Perm (a.gbeamCandidates (lat.boundary n).ends beams))
    (hptrs : gbeam.ptrs = gbeam.cands.map fun el =>
      ⟨(lat.boundary n).ends.getD el.left ⟨0, 0⟩, el.beam⟩)
    (hrow : a.makeBeam n (lat.boundary n) beams
      (a.scoreConnections n (lat.boundary n) beams) t0 = some row) :
    ∃ stored, a.scoreT0 (a.gbeamContext n (lat.boundary n) beams gbeam) t0 =
      some ⟨row, stored⟩ := by
  let ends := (lat.boundary n).ends
  let ctx := a.gbeamContext n (lat.boundary n) beams gbeam
  let cands := a.candidates n (lat.boundary n) beams t0
  let scores := gbeam.cands.map fun cand => a.gbeamLocalScore n ends beams t0 cand + cand.score
  -- the candidate of the full pass at each offset of the global beam
  let f : Nat → BeamCandidate := fun i =>
    a.rescore n ends beams t0 (gbeam.cands.getD i ⟨0, 0, 0⟩)
  have hrange : (List.range gbeam.cands.length).map f =
      gbeam.cands.map (a.rescore n ends beams t0) := by
    refine List.ext_getElem (by simp) fun i hi hi' => ?_
    have hlt : i < gbeam.cands.length := by simpa using hi'
    simp [f, hlt]
  have hperm : ((List.range gbeam.cands.length).map f).Perm cands := by
    have hcandsEq : cands = (a.gbeamCandidates (lat.boundary n).ends beams).map
        (a.rescore n ends beams t0) := candidates_eq_map_rescore hinv hends hfits t0 hn
    rw [hrange, hcandsEq]
    exact hcands.map _
  have hscore : ∀ i < gbeam.cands.length, scores.getD i 0 = (f i).score := by
    intro i hi
    simp [scores, f, rescore, hi]
  have hsame : ∀ c ∈ cands, ∀ c' ∈ cands, c.score = c'.score → c = c' :=
    fun c hc c' hc' heq => List.inj_on_of_nodup_map hdistinct hc hc' heq
  have hmem : ∀ i < gbeam.cands.length, f i ∈ cands := fun i hi =>
    hperm.subset (List.mem_map_of_mem (List.mem_range.mpr hi))
  obtain ⟨res, hres, htop⟩ := a.processBeamCandidates_spec cands a.beamSize a.beamSize_pos
  obtain ⟨order, horder, hbeam⟩ := a.exists_makeT0Beam ctx t0 gbeam.cands scores
  have hmapped : IsTopK (NotAfter BeamCandidate.greater) a.beamSize cands (order.map f) := by
    refine (horder.map f fun i hi j hj hij => ?_).of_perm hperm
    rw [List.mem_range] at hi hj
    unfold NotAfter betterScore at hij
    rw [decide_eq_false_iff_not, not_lt, hscore i hi, hscore j hj] at hij
    rcases lt_or_eq_of_le hij with hlt | heq
    · exact (BeamCandidate.not_greater_iff _ _).mpr (Or.inl hlt)
    · rw [hsame _ (hmem j hj) _ (hmem i hi) heq]
      exact BeamCandidate.strictWeak_greater.notAfter_refl _
  have hunique : res = order.map f := by
    refine htop.unique hmapped (List.Nodup.of_map _ hdistinct) fun c hc c' hc' h h' => ?_
    exact hsame c hc c' hc' (le_antisymm (BeamCandidate.score_ge_of_notAfter h')
      (BeamCandidate.score_ge_of_notAfter h))
  have helements : order.map (gbeamElement ctx t0 gbeam.cands scores) =
      res.map (beamElement n t0 ends beams) := by
    rw [hunique, List.map_map]
    refine List.map_congr_left fun i hi => ?_
    have hi : i < gbeam.cands.length := List.mem_range.mp (horder.subset hi)
    have hptr : ctx.gbeam.ptrs.getD i ⟨⟨0, 0⟩, 0⟩ =
        ⟨ends.getD (gbeam.cands.getD i ⟨0, 0, 0⟩).left ⟨0, 0⟩,
          (gbeam.cands.getD i ⟨0, 0, 0⟩).beam⟩ := by
      change gbeam.ptrs.getD i ⟨⟨0, 0⟩, 0⟩ = _
      rw [hptrs]
      simp [hi, ends]
    unfold gbeamElement
    simp only
    rw [hptr, hscore i hi]
    rfl
  have hrowEq : row = res.map (beamElement n t0 ends beams) ++
      List.replicate (a.beamSize - res.length) fake := by
    unfold makeBeam at hrow
    rw [fillBeamCandidates_eq a n (lat.boundary n) beams ht0, hres] at hrow
    simp only at hrow
    split_ifs at hrow
    exact (Option.some.inj hrow).symm
  refine ⟨(a.plainScores ctx t0).2, ?_⟩
  have hplain : (a.plainScores ctx t0).1 = scores := by
    rw [a.plainScores_eq n (lat.boundary n) beams gbeam t0]
  have hrowBeam : a.makeT0Beam ctx t0 ctx.gbeam.cands (a.plainScores ctx t0).1 = some row := by
    rw [hplain, hrowEq, ← helements, hunique, List.length_map]
    exact hbeam
  rw [scoreT0_eq, hrowBeam]

/-- One boundary: the same beams as the full pass. -/
theorem scoreBoundaryGbeam_eq {st : GbeamState} {rows : List (List ConnectionBeamElement)}
    (hn : n ≤ lat.createdBoundaryCount) (hst : st.beams = beams) (hcheck : a.rightGbeamCheck = 0)
    (hpos : 0 < a.globalBeamSize)
    (hlive : liveCandidates (lat.boundary n) beams ≤ a.globalBeamSize)
    (hdistinct : ∀ t0 < (lat.boundary n).localNodeCount,
      ((a.candidates n (lat.boundary n) beams t0).map BeamCandidate.score).Nodup)
    (hrows : a.scoreBoundaryFull n (lat.boundary n) beams = some rows) :
    ∃ st', a.scoreBoundaryGbeam (lat.boundary n) st = some st' ∧ st'.beams = beams ++ [rows] := by
  have hlength := hinv.length_eq
  have hrowsLength : rows.length = (lat.boundary n).localNodeCount := by
    have hforall := mapM_eq_some_iff.mp hrows
    rw [← hforall.length_eq, List.length_range]
  unfold scoreBoundaryGbeam
  split_ifs with hnodes
  · rw [hnodes, List.length_eq_zero_iff] at hrowsLength
    exact ⟨_, rfl, by rw [hst, hrowsLength]⟩
  · obtain ⟨gbeam, hgbeam, hcands, hptrs⟩ := makeGlobalBeam_all hlive hpos
    obtain ⟨res, hres, hresLength, hresRows⟩ := a.computeGbeamScores_spec
      (a.gbeamContext n (lat.boundary n) beams gbeam)
    have heq : res.rows = rows := by
      refine List.ext_getElem? fun t0 => ?_
      by_cases ht0 : t0 < (lat.boundary n).localNodeCount
      · obtain ⟨t0pos, r, hturn, hr⟩ := hresRows t0 ht0
        obtain ⟨row, hrow, hget⟩ := getElem?_of_mapM_range hrows t0 ht0
        obtain ⟨stored, hscore⟩ := scoreT0_eq_makeBeam hinv hends hfits hn ht0 (hdistinct t0 ht0)
          hcands hptrs hrow
        unfold scoreT0Turn at hturn
        rw [hcheck, if_neg (lt_irrefl 0), hscore, Option.some.injEq] at hturn
        rw [hr, hget, ← hturn]
      · have hnone : res.rows.length ≤ t0 := by rw [hresLength]; exact not_lt.mp ht0
        rw [List.getElem?_eq_none hnone, List.getElem?_eq_none (by omega)]
    rw [hst, hgbeam, hlength]
    simp only
    rw [hres]
    exact ⟨_, rfl, by rw [heq]⟩

end Boundary

/-- The full pass only appends to the beams. -/
theorem scoreBoundariesFull_extends {bnds : List LatticeBoundary} {beams beams' : Beams}
    (h : a.scoreBoundariesFull bnds beams = some beams') : beams <+: beams' := by
  induction bnds generalizing beams with
  | nil =>
      cases h
      exact List.prefix_rfl
  | cons bnd bnds ih =>
      unfold scoreBoundariesFull at h
      cases hrows : a.scoreBoundaryFull beams.length bnd beams with
      | none => simp [hrows] at h
      | some rows =>
          rw [hrows] at h
          exact (List.prefix_append _ _).trans (ih h)

theorem beamAt_extends {beams beams' : Beams} (h : beams <+: beams') {ptr : LatticeNodePtr}
    (hptr : ptr.boundary < beams.length) : beamAt beams' ptr = beamAt beams ptr := by
  obtain ⟨rows, rfl⟩ := h
  exact beamAt_append hptr rows

/-- The candidates of a boundary and their scores only depend on the boundaries before it. -/
theorem candidates_extends (a : AnalyzerImpl P) (lat : Lattice) {beams beams' : Beams} (h : beams <+: beams') (b t0 : Nat)
    (hb : 2 ≤ b) (hlength : b ≤ beams.length) :
    a.candidates b (lat.boundary b) beams' t0 = a.candidates b (lat.boundary b) beams t0 ∧
      liveCandidates (lat.boundary b) beams' = liveCandidates (lat.boundary b) beams := by
  have hbeamAt : ∀ t1 ∈ (lat.boundary b).ends, beamAt beams' t1 = beamAt beams t1 := by
    intro t1 ht1
    have hback := lat.ends_back b hb t1 ht1
    exact beamAt_extends h (by omega)
  constructor
  · unfold candidates
    refine List.flatMap_congr fun (t1, left) hleft => ?_
    have ht1 := List.mem_of_getElem? (List.mk_mem_zipIdx_iff_getElem?.mp hleft)
    simp only [hbeamAt t1 ht1]
  · unfold liveCandidates
    rw [List.map_congr_left fun t1 ht1 => by rw [hbeamAt t1 ht1]]

/-- The global-beam pass follows the full pass boundary by boundary. -/
theorem scoreBoundariesGbeam_eq (hends : ∀ b, (lat.boundary b).ends.length < 2 ^ 15)
    (hfits : ∀ ptr, lat.IsNode ptr → a.Fits lat ptr) (hcheck : a.rightGbeamCheck = 0)
    (hpos : 0 < a.globalBeamSize) {beams' : Beams}
    (hlive : ∀ b, 2 ≤ b → b < lat.createdBoundaryCount →
      liveCandidates (lat.boundary b) beams' ≤ a.globalBeamSize)
    (hdistinct : ∀ ptr, lat.IsNode ptr → ((a.candidates ptr.boundary (lat.boundary ptr.boundary)
      beams' ptr.position).map BeamCandidate.score).Nodup)
    {n : Nat} {beams : Beams} (hinv : a.RunInv lat n beams) {st : GbeamState}
    (hst : st.beams = beams) (bnds : List LatticeBoundary) (hbnds : lat.boundaries.drop n = bnds)
    (hrun : a.scoreBoundariesFull bnds beams = some beams') :
    ∃ st', a.scoreBoundariesGbeam bnds st = some st' ∧ st'.beams = beams' := by
  induction bnds generalizing n beams st with
  | nil =>
      cases hrun
      exact ⟨st, rfl, hst⟩
  | cons bnd bnds ih =>
      have hprefix := scoreBoundariesFull_extends hrun
      have hlt : n < lat.boundaries.length := by
        by_contra hge
        rw [List.drop_eq_nil_of_le (by omega)] at hbnds
        cases hbnds
      rw [List.drop_eq_getElem_cons hlt] at hbnds
      obtain ⟨hbnd, hrest⟩ := List.cons.inj hbnds
      have hboundary : lat.boundary n = bnd := by
        unfold Lattice.boundary boundaryAt
        rw [List.getD_eq_getElem _ _ hlt, hbnd]
      have hlength := hinv.length_eq
      unfold scoreBoundariesFull at hrun
      rw [hlength] at hrun
      cases hrows : a.scoreBoundaryFull n bnd beams with
      | none => simp [hrows] at hrun
      | some rows =>
          rw [hrows] at hrun
          have hsame := fun t0 => candidates_extends a lat hprefix n t0 hinv.two_le (by omega)
          obtain ⟨st', hst', hbeams⟩ := scoreBoundaryGbeam_eq hinv hends hfits
            (le_of_lt hlt) hst hcheck hpos (by rw [← (hsame 0).2]; exact hlive n hinv.two_le hlt)
            (fun t0 ht0 => by
              rw [← (hsame t0).1]
              exact hdistinct ⟨n, t0⟩ ⟨hinv.two_le, hlt, ht0⟩)
            (by rw [hboundary]; exact hrows)
          rw [hboundary] at hst'
          unfold scoreBoundariesGbeam
          rw [hst']
          exact ih (hinv.step (by rw [hboundary]; exact hrows)) hbeams hrest hrun

end AnalyzerImpl

/-- One character and one node. -/
def singleLattice : Lattice :=
  .ofBoundaries
    [⟨[⟨.BOS, 0, 0⟩], []⟩, ⟨[⟨.BOS, 0, 0⟩], [⟨0, 0⟩]⟩, ⟨[⟨0, 0, 1⟩], [⟨1, 0⟩]⟩,
      ⟨[⟨.EOS, 1, 1⟩], [⟨2, 0⟩]⟩]
    (by decide) (by decide) (by decide) (by decide) (by decide) (by decide) (by decide)

def singleAnalyzer : AnalyzerImpl Unit :=
  { flatAnalyzer 5 beamSize_five_pos with globalBeamSize := 1 }

theorem liveCandidates_singleLattice (beams : Beams)
    (hbeams : singleAnalyzer.computeScoresFull singleLattice = some beams) (b : Nat) (hb : 2 ≤ b)
    (hlt : b < singleLattice.createdBoundaryCount) :
    AnalyzerImpl.liveCandidates (singleLattice.boundary b) beams ≤ 1 := by
  have hinv := (AnalyzerImpl.computeScoresFull_spec singleAnalyzer singleLattice).2 beams hbeams
  have hcount : singleLattice.createdBoundaryCount = 4 := by decide
  have htwo : singleLattice.paths ⟨2, 0⟩ = [[⟨2, 0⟩, ⟨1, 0⟩, ⟨0, 0⟩]] := by decide
  unfold AnalyzerImpl.liveCandidates
  rw [hcount] at hlt
  obtain rfl | rfl : b = 2 ∨ b = 3 := by omega
  · have hnode := (hinv.node ⟨1, 0⟩ (by decide) (by decide) (by decide)).length_eq
    rw [singleLattice.paths_bos ⟨1, 0⟩ rfl, List.length_singleton] at hnode
    change (activeBeam (beamAt beams ⟨1, 0⟩)).length + 0 ≤ 1
    omega
  · have hnode := (hinv.node ⟨2, 0⟩ (by decide) (by decide) (by decide)).length_eq
    rw [htwo, List.length_singleton] at hnode
    change (activeBeam (beamAt beams ⟨2, 0⟩)).length + 0 ≤ 1
    omega

/-- The second node of the boundary `b` of `twinLattice` scores `2 ^ b`, the first one nothing: the
score of a path says which nodes it takes. -/
def binaryAnalyzer (beamSize : Nat) (beamSize_pos : 0 < beamSize) : AnalyzerImpl LatticeNodePtr where
  platform := { StdAlgorithm.insertion with overflowScore := fun score _ _ => score }
  patterns := id
  scorer := ⟨fun t0 => t0.position * 2 ^ t0.boundary, fun _ _ => 0, fun _ _ _ => 0⟩
  plugin := none
  beamSize := beamSize
  beamSize_pos := beamSize_pos
  globalBeamSize := 2 ^ 18
  rightGbeamCheck := 0
  rightGbeamSize := 0

section Binary

variable (k : Nat) (hk : 0 < k)

theorem pathScore_cons (ptr : LatticeNodePtr) (left : LatticeNodePtr) (hleft : 1 ≤ left.boundary)
    {path : List LatticeNodePtr} (hpath : path ∈ twinLattice.paths left) :
    (binaryAnalyzer k hk).pathScore (ptr :: path) =
      ptr.position * 2 ^ ptr.boundary + (binaryAnalyzer k hk).pathScore path := by
  obtain ⟨t2, rest, rfl⟩ := twinLattice.paths_cons_cons left hleft path hpath
  rw [AnalyzerImpl.pathScore]
  simp [binaryAnalyzer]

/-- The paths to a node of `twinLattice` by its predecessors. -/
theorem mem_paths_twinLattice (i q : Nat) (hi : i < 16) (path : List LatticeNodePtr) :
    path ∈ twinLattice.paths ⟨i + 3, q⟩ ↔ ∃ p < 2, ∃ rest ∈ twinLattice.paths ⟨i + 2, p⟩,
      path = ⟨i + 3, q⟩ :: rest := by
  rw [Lattice.paths_node _ _ (by simp only; omega), twinLattice_ends i hi]
  simp only [List.flatMap_cons, List.flatMap_nil, List.append_nil, List.mem_append, List.mem_map]
  constructor
  · rintro (⟨rest, hrest, rfl⟩ | ⟨rest, hrest, rfl⟩)
    · exact ⟨0, by omega, rest, hrest, rfl⟩
    · exact ⟨1, by omega, rest, hrest, rfl⟩
  · rintro ⟨p, hp, rest, hrest, rfl⟩
    obtain rfl | rfl : p = 0 ∨ p = 1 := by omega
    · exact Or.inl ⟨rest, hrest, rfl⟩
    · exact Or.inr ⟨rest, hrest, rfl⟩

theorem pathScore_bounds (i q : Nat) (hi : i ≤ 16) :
    ∀ path ∈ twinLattice.paths ⟨i + 2, q⟩,
      (q * 2 ^ (i + 2) : ℚ) ≤ (binaryAnalyzer k hk).pathScore path ∧
        (binaryAnalyzer k hk).pathScore path < (q + 1) * 2 ^ (i + 2) := by
  induction i generalizing q with
  | zero =>
      intro path hpath
      have hpaths : twinLattice.paths ⟨0 + 2, q⟩ = [[⟨2, q⟩, ⟨1, 0⟩, ⟨0, 0⟩]] := by
        rw [Lattice.paths_node _ _ (le_refl 2)]
        rfl
      rw [hpaths, List.mem_singleton] at hpath
      have hbos : [⟨1, 0⟩, ⟨0, 0⟩] ∈ twinLattice.paths ⟨1, 0⟩ := by
        rw [twinLattice.paths_bos ⟨1, 0⟩ rfl]
        simp
      rw [hpath, pathScore_cons k hk ⟨2, q⟩ ⟨1, 0⟩ (le_refl 1) hbos]
      have hzero : (binaryAnalyzer k hk).pathScore [⟨1, 0⟩, ⟨0, 0⟩] = 0 := rfl
      rw [hzero]
      constructor <;> norm_num
  | succ i ih =>
      intro path hpath
      rw [mem_paths_twinLattice i q (by omega)] at hpath
      obtain ⟨p, hp, rest, hrest, rfl⟩ := hpath
      obtain ⟨hlow, hhigh⟩ := ih p (by omega) rest hrest
      rw [pathScore_cons k hk ⟨i + 3, q⟩ ⟨i + 2, p⟩ (by simp only; omega) hrest]
      have hpq : (p : ℚ) + 1 ≤ 2 := by exact_mod_cast hp
      have hpnn : (0 : ℚ) ≤ p := by positivity
      have hpow : (0 : ℚ) < 2 ^ (i + 2) := by positivity
      have hpowSucc : (2 : ℚ) ^ (i + 3) = 2 * 2 ^ (i + 2) := by rw [pow_succ]; ring
      change (q * 2 ^ (i + 3) : ℚ) ≤ q * 2 ^ (i + 3) + (binaryAnalyzer k hk).pathScore rest ∧
        (q * 2 ^ (i + 3) : ℚ) + (binaryAnalyzer k hk).pathScore rest < (q + 1) * 2 ^ (i + 3)
      rw [hpowSucc]
      constructor
      · nlinarith
      · nlinarith

/-- No two paths to a node have the same score. -/
theorem pathScore_injective (i q : Nat) (hi : i ≤ 16) :
    ∀ path ∈ twinLattice.paths ⟨i + 2, q⟩, ∀ path' ∈ twinLattice.paths ⟨i + 2, q⟩,
      (binaryAnalyzer k hk).pathScore path = (binaryAnalyzer k hk).pathScore path' →
        path = path' := by
  induction i generalizing q with
  | zero =>
      intro path hpath path' hpath' _
      have hpaths : twinLattice.paths ⟨0 + 2, q⟩ = [[⟨2, q⟩, ⟨1, 0⟩, ⟨0, 0⟩]] := by
        rw [Lattice.paths_node _ _ (le_refl 2)]
        rfl
      rw [hpaths, List.mem_singleton] at hpath hpath'
      rw [hpath, hpath']
  | succ i ih =>
      intro path hpath path' hpath' hscore
      rw [mem_paths_twinLattice i q (by omega)] at hpath hpath'
      obtain ⟨p, hp, rest, hrest, rfl⟩ := hpath
      obtain ⟨p', hp', rest', hrest', rfl⟩ := hpath'
      rw [pathScore_cons k hk ⟨i + 3, q⟩ ⟨i + 2, p⟩ (by simp only; omega) hrest,
        pathScore_cons k hk ⟨i + 3, q⟩ ⟨i + 2, p'⟩ (by simp only; omega) hrest'] at hscore
      have hrestScore := add_left_cancel hscore
      obtain ⟨hlow, hhigh⟩ := pathScore_bounds k hk i p (by omega) rest hrest
      obtain ⟨hlow', hhigh'⟩ := pathScore_bounds k hk i p' (by omega) rest' hrest'
      have hpow : (0 : ℚ) < 2 ^ (i + 2) := by positivity
      -- the bounds of the two predecessors do not overlap
      have hlt : (p : ℚ) < p' + 1 := lt_of_mul_lt_mul_right (by linarith) (le_of_lt hpow)
      have hlt' : (p' : ℚ) < p + 1 := lt_of_mul_lt_mul_right (by linarith) (le_of_lt hpow)
      have hle : p < p' + 1 := by exact_mod_cast hlt
      have hle' : p' < p + 1 := by exact_mod_cast hlt'
      obtain rfl : p = p' := by omega
      rw [ih p (by omega) rest hrest rest' hrest' hrestScore]

end Binary

end Jumanpp.Core.Analysis
