import Jumanpp.Core.Analysis.AnalysisPath
import Jumanpp.Core.Analysis.ExtraScorers
import Jumanpp.Core.Analysis.RightCheck

/-!
# Live connections in the global-beam pass

However the candidates of a boundary are pruned, what is kept continues live connections, and a node
that a path leads to keeps at least one.
-/

namespace Jumanpp.Core.Analysis

open Jumanpp.Lib

theorem activePtrs_append {beams : Beams} {ptr : LatticeNodePtr} (h : ptr.boundary < beams.length)
    (rows : Beams) : activePtrs (beams ++ rows) ptr = activePtrs beams ptr := by
  unfold activePtrs
  rw [beamAt_append h]

/-- The global beam of a boundary is made of live connections, if there are any. -/
structure GbeamInv (lat : Lattice) (beams : Beams) (n : Nat) (gbeam : GlobalBeam) : Prop where
  ptrs : gbeam.ptrs = gbeam.cands.map fun el =>
    ⟨(lat.boundary n).ends.getD el.left ⟨0, 0⟩, el.beam⟩
  live : ∀ cand ∈ gbeam.cands, ∃ left prev, (lat.boundary n).ends[cand.left]? = some left ∧
    (activePtrs beams left)[cand.beam]? = some prev
  nonempty : ∀ left ∈ (lat.boundary n).ends, activePtrs beams left ≠ [] → gbeam.cands ≠ []

/-- The addresses do not depend on the scores. -/
theorem GbeamInv.congr {lat : Lattice} {beams beams' : Beams} {n : Nat} {gbeam : GlobalBeam}
    (h : GbeamInv lat beams n gbeam)
    (hsame : ∀ left ∈ (lat.boundary n).ends, activePtrs beams' left = activePtrs beams left) :
    GbeamInv lat beams' n gbeam where
  ptrs := h.ptrs
  live cand hcand := by
    obtain ⟨left, prev, hleft, hprev⟩ := h.live cand hcand
    refine ⟨left, prev, hleft, ?_⟩
    rw [hsame left (List.mem_of_getElem? hleft)]
    exact hprev
  nonempty left hleft hlive := by
    rw [hsame left hleft] at hlive
    exact h.nonempty left hleft hlive

theorem LiveInv.congr {lat : Lattice} {n : Nat} {beams beams' : Beams} (h : LiveInv lat n beams)
    (hsame : ∀ ptr, activePtrs beams' ptr = activePtrs beams ptr) : LiveInv lat n beams' where
  live ptr hptr hlt hposition hpaths := by
    rw [hsame]
    exact h.live ptr hptr hlt hposition hpaths
  continues ptr hptr hlt hposition conn hconn := by
    rw [hsame] at hconn
    obtain ⟨left, prev, hcontinues⟩ := h.continues ptr hptr hlt hposition conn hconn
    exact ⟨left, prev, hcontinues.ends, by rw [hsame]; exact hcontinues.beam, hcontinues.eq⟩

/-- One of the paths to a node comes through a left node, which is live. -/
theorem LiveInv.exists_left {lat : Lattice} {n : Nat} {beams : Beams} (h : LiveInv lat n beams)
    {b t0 : Nat} (hb : 2 ≤ b) (hlt : b < n + 1) (hpaths : lat.paths ⟨b, t0⟩ ≠ []) :
    ∃ left ∈ (lat.boundary b).ends, activePtrs beams left ≠ [] := by
  rw [lat.paths_node ⟨b, t0⟩ hb, ne_eq, List.flatMap_eq_nil_iff] at hpaths
  push Not at hpaths
  obtain ⟨left, hleft, hpath⟩ := hpaths
  have hback := lat.ends_back b hb left hleft
  exact ⟨left, hleft, h.live left hback.1 (by omega) (lat.ends_valid b hb left hleft)
    fun hnil => hpath (by rw [hnil]; rfl)⟩

/-- A row for the node `ptr` that may be put into the beams. -/
structure RowInv (lat : Lattice) (beams : Beams) (ptr : LatticeNodePtr)
    (row : List ConnectionBeamElement) : Prop where
  live : ∀ left ∈ (lat.boundary ptr.boundary).ends, activePtrs beams left ≠ [] →
    activeBeam row ≠ []
  continues : ∀ conn ∈ (activeBeam row).map (·.ptr),
    ∃ left prev, Continues lat beams ptr conn left prev

theorem LiveInv.append {lat : Lattice} {n : Nat} {beams : Beams} (h : LiveInv lat n beams)
    (hn : 2 ≤ n) (hlength : beams.length = n) {rows : List (List ConnectionBeamElement)}
    (hrows : ∀ t0 < (lat.boundary n).localNodeCount,
      RowInv lat beams ⟨n, t0⟩ (rows.getD t0 [])) : LiveInv lat (n + 1) (beams ++ [rows]) where
  live ptr hptr hlt hposition hpaths := by
    by_cases hold : ptr.boundary < n
    · rw [activePtrs_append (by omega)]
      exact h.live ptr hptr hold hposition hpaths
    · obtain ⟨b, t0⟩ := ptr
      obtain rfl : b = n := by simp only at hlt hold; omega
      obtain ⟨left, hleft, hlive⟩ := h.exists_left hn hlt hpaths
      unfold activePtrs
      rw [← hlength, beamAt_last, ne_eq, List.map_eq_nil_iff]
      exact (hrows t0 hposition).live left hleft hlive
  continues ptr hptr hlt hposition conn hconn := by
    have hkeep : ∀ left prev, Continues lat beams ptr conn left prev →
        Continues lat (beams ++ [rows]) ptr conn left prev := by
      intro left prev hcontinues
      have hback := lat.ends_back ptr.boundary hptr left (List.mem_of_getElem? hcontinues.ends)
      refine ⟨hcontinues.ends, ?_, hcontinues.eq⟩
      rw [activePtrs_append (by omega)]
      exact hcontinues.beam
    by_cases hold : ptr.boundary < n
    · rw [activePtrs_append (by omega)] at hconn
      obtain ⟨left, prev, hcontinues⟩ := h.continues ptr hptr hold hposition conn hconn
      exact ⟨left, prev, hkeep left prev hcontinues⟩
    · obtain ⟨b, t0⟩ := ptr
      obtain rfl : b = n := by simp only at hlt hold; omega
      unfold activePtrs at hconn
      rw [← hlength, beamAt_last] at hconn
      obtain ⟨left, prev, hcontinues⟩ := (hrows t0 hposition).continues conn hconn
      exact ⟨left, prev, hkeep left prev hcontinues⟩

namespace AnalyzerImpl

variable {P : Type} {a : AnalyzerImpl P} {lat : Lattice} {n : Nat} {beams : Beams}

/-- The candidates that `makeT0Beam` chooses from name the same left elements as those of the global
beam, perhaps only of its head. -/
def SameLeft (cands gbeam : List BeamCandidate) : Prop :=
  ∀ i < cands.length, ∃ cand, gbeam[i]? = some cand ∧
    (cands.getD i ⟨0, 0, 0⟩).left = cand.left ∧ (cands.getD i ⟨0, 0, 0⟩).beam = cand.beam

theorem sameLeft_head {cands gbeam : List BeamCandidate} (h : cands <+: gbeam) :
    SameLeft cands gbeam := by
  intro i hi
  refine ⟨cands[i], List.prefix_iff_getElem?.mp h i hi, ?_⟩
  rw [List.getD_eq_getElem _ _ hi]
  exact ⟨rfl, rfl⟩

/-- A row chosen from live candidates, by whatever scores. -/
theorem rowInv_of_makeT0Beam {gbeam : GlobalBeam} (hgbeam : GbeamInv lat beams n gbeam)
    {t0 : Nat} {cands : List BeamCandidate} (hsame : SameLeft cands gbeam.cands)
    (hcands : gbeam.cands ≠ [] → cands ≠ []) {scores : List Score}
    {row : List ConnectionBeamElement}
    (hrow : a.makeT0Beam (a.gbeamContext n (lat.boundary n) beams gbeam) t0 cands scores =
      some row) : RowInv lat beams ⟨n, t0⟩ row := by
  let ctx := a.gbeamContext n (lat.boundary n) beams gbeam
  obtain ⟨order, htop, hbeam⟩ := a.exists_makeT0Beam ctx t0 cands scores
  rw [hbeam] at hrow
  obtain rfl := Option.some.inj hrow
  have helement : ∀ i ∈ order, ∃ left prev, Continues lat beams ⟨n, t0⟩
      (gbeamElement ctx t0 cands scores i).ptr left prev := by
    intro i hi
    have hlt := List.mem_range.mp (htop.subset hi)
    obtain ⟨cand, hcand, hleftEq, hbeamEq⟩ := hsame i hlt
    obtain ⟨left, prev, hleft, hprev⟩ := hgbeam.live cand (List.mem_of_getElem? hcand)
    obtain ⟨e, he, -, hptr⟩ := getElem?_of_activePtrs hprev
    have hends : (lat.boundary n).ends.getD cand.left ⟨0, 0⟩ = left := by
      rw [List.getD_eq_getElem?_getD, hleft]
      rfl
    have haddr : gbeam.ptrs.getD i ⟨⟨0, 0⟩, 0⟩ = ⟨left, cand.beam⟩ := by
      rw [hgbeam.ptrs, List.getD_eq_getElem?_getD, List.getElem?_map, hcand]
      simp only [Option.map_some, Option.getD_some, hends]
    have hget : (gbeam.ptrs.getD i ⟨⟨0, 0⟩, 0⟩).deref beams = e := by
      rw [haddr]
      unfold BeamAddr.deref
      rw [List.getD_eq_getElem?_getD, he]
      rfl
    have heq : (gbeamElement ctx t0 cands scores i).ptr =
        .conn (u16 n) cand.left (u16 t0) cand.beam prev := by
      unfold gbeamElement
      change ConnectionPtr.conn (u16 n) _ (u16 t0) _
        ((gbeam.ptrs.getD i ⟨⟨0, 0⟩, 0⟩).deref beams).ptr = _
      rw [hget, hptr, hleftEq, hbeamEq]
    rw [heq]
    exact ⟨left, prev, hleft, hprev, rfl⟩
  have hactive : activeBeam (order.map (gbeamElement ctx t0 cands scores) ++
      List.replicate (a.beamSize - order.length) fake) =
        order.map (gbeamElement ctx t0 cands scores) := by
    refine activeBeam_append_fake _ fun e he => ?_
    obtain ⟨i, hi, rfl⟩ := List.mem_map.mp he
    obtain ⟨left, prev, hends, -, heq⟩ := helement i hi
    obtain ⟨hlt, -⟩ := List.getElem?_eq_some_iff.mp hends
    have hlength := lat.ends_length n
    have hne : (gbeamElement ctx t0 cands scores i).ptr.left ≠ 0xffff := by
      change (lat.boundary n).ends.length < 2 ^ 16 at hlength
      change _ < (lat.boundary n).ends.length at hlt
      omega
    unfold isFake
    rw [heq]
    simp [hne]
  refine ⟨fun left hleft hlive hnil => ?_, ?_⟩
  · have hne := hcands (hgbeam.nonempty left hleft hlive)
    have hlength := htop.length_eq
    rw [hactive, List.map_eq_nil_iff] at hnil
    rw [hnil, List.length_nil, List.length_range] at hlength
    have hsize := a.beamSize_pos
    have hpos := List.length_pos_iff.mpr hne
    omega
  · rw [hactive]
    intro conn hconn
    obtain ⟨e, he, rfl⟩ := List.mem_map.mp hconn
    obtain ⟨i, hi, rfl⟩ := List.mem_map.mp he
    exact helement i hi

/-- Both branches choose from the global beam or from its head. -/
theorem exists_makeT0Beam_of_scoreT0Turn (ctx : GbeamContext P) {t0pos t0idx : Nat}
    (ht0 : t0idx < ctx.nodes) {r : T0Result} (hr : a.scoreT0Turn ctx t0pos t0idx = some r) :
    ∃ cands scores, cands <+: ctx.gbeam.cands ∧ (ctx.gbeam.cands ≠ [] → cands ≠ []) ∧
      a.makeT0Beam ctx t0idx cands scores = some r.row := by
  unfold scoreT0Turn at hr
  split at hr
  next hcheck =>
    unfold scoreT0Checked at hr
    simp only at hr
    split at hr
    next hkeep =>
      split at hr
      next => cases hr
      next row hrow =>
        cases hr
        exact ⟨_, _, List.prefix_rfl, id, hrow⟩
    next hrest =>
      split at hr
      next => cases hr
      next row hrow =>
        cases hr
        refine ⟨_, _, List.take_prefix _ _, fun hne hnil => ?_, hrow⟩
        -- the head has at least one element
        have hpos := List.length_pos_iff.mpr hne
        have hlength := congrArg List.length hnil
        rw [List.length_take, List.length_nil] at hlength
        unfold fullBeamApplySize at hlength
        omega
  next =>
    rw [scoreT0_eq] at hr
    split at hr
    next => cases hr
    next row hrow =>
      cases hr
      exact ⟨_, _, List.prefix_rfl, id, hrow⟩

/-- The global beam keeps live connections, and at least one if there is one. -/
theorem makeGlobalBeam_spec (hpos : 0 < a.globalBeamSize) :
    ∃ gbeam, a.makeGlobalBeam (lat.boundary n).ends beams a.globalBeamSize = some gbeam ∧
      GbeamInv lat beams n gbeam := by
  obtain ⟨res, hres, htop⟩ := a.processBeamCandidates_spec
    (a.gbeamCandidates (lat.boundary n).ends beams) a.globalBeamSize hpos
  refine ⟨⟨res, res.map fun el => ⟨(lat.boundary n).ends.getD el.left ⟨0, 0⟩, el.beam⟩⟩, ?_, rfl,
    fun cand hcand => ?_, fun left hleft hlive hnil => ?_⟩
  · unfold makeGlobalBeam
    rw [hres]
  · have hmem := htop.subset hcand
    unfold gbeamCandidates at hmem
    simp only [List.mem_flatMap, List.mem_map, Prod.exists] at hmem
    obtain ⟨t1, left, hleft, el, beamIdx, hel, rfl⟩ := hmem
    rw [List.mk_mem_zipIdx_iff_getElem?] at hleft hel
    obtain ⟨hlt, -⟩ := List.getElem?_eq_some_iff.mp hel
    -- the index of the element may wrap, but then it names an earlier one
    have hwrap : u16 beamIdx < (activePtrs beams t1).length := by
      unfold activePtrs
      rw [List.length_map]
      exact lt_of_le_of_lt (Nat.mod_le _ _) hlt
    exact ⟨t1, (activePtrs beams t1)[u16 beamIdx], hleft, List.getElem?_eq_getElem hwrap⟩
  · have hlength := htop.length_eq
    obtain rfl : res = [] := hnil
    rw [List.length_nil] at hlength
    obtain ⟨conn, hconn⟩ := List.exists_mem_of_ne_nil _ hlive
    obtain ⟨el, hel, -⟩ := List.mem_map.mp hconn
    obtain ⟨i, hi⟩ := List.mem_iff_getElem?.mp hleft
    obtain ⟨j, hj⟩ := List.mem_iff_getElem?.mp hel
    have hmem : BeamCandidate.pack a.platform el.totalScore i (u16 j) ∈
        a.gbeamCandidates (lat.boundary n).ends beams := by
      unfold gbeamCandidates
      simp only [List.mem_flatMap, List.mem_map, Prod.exists]
      exact ⟨left, i, List.mk_mem_zipIdx_iff_getElem?.mpr hi, el, j,
        List.mk_mem_zipIdx_iff_getElem?.mpr hj, rfl⟩
    have hcount := List.length_pos_of_mem hmem
    omega

/-- The first `n` boundaries are done. -/
structure GbeamRunInv (lat : Lattice) (n : Nat) (st : GbeamState) : Prop where
  two_le : 2 ≤ n
  length_beams : st.beams.length = n
  length_globalBeams : st.globalBeams.length = n
  live : LiveInv lat n st.beams
  gbeam : ∀ b, 2 ≤ b → b < n → (lat.boundary b).localNodeCount ≠ 0 →
    GbeamInv lat st.beams b (st.globalBeams.getD b ⟨[], []⟩)

theorem gbeamRunInv_bootstrap : GbeamRunInv lat 2 a.bootstrapState where
  two_le := le_refl 2
  length_beams := rfl
  length_globalBeams := rfl
  live := (runInv_bootstrap (a := a)).liveInv
  gbeam b hb hlt := absurd hlt (by omega)

/-- Appending a boundary leaves the global beams of the earlier ones as they are. -/
theorem GbeamRunInv.gbeam_append {st : GbeamState} (hinv : GbeamRunInv lat n st)
    {rows : List (List ConnectionBeamElement)} {gbeam : GlobalBeam} {b : Nat} (hb : 2 ≤ b)
    (hlt : b < n + 1) (hnodes : (lat.boundary b).localNodeCount ≠ 0)
    (hgbeam : (lat.boundary n).localNodeCount ≠ 0 → GbeamInv lat st.beams n gbeam) :
    GbeamInv lat (st.beams ++ [rows]) b ((st.globalBeams ++ [gbeam]).getD b ⟨[], []⟩) := by
  have hlength := hinv.length_beams
  have hlengthG := hinv.length_globalBeams
  have hsame : ∀ left ∈ (lat.boundary b).ends,
      activePtrs (st.beams ++ [rows]) left = activePtrs st.beams left := by
    intro left hleft
    have hback := lat.ends_back b hb left hleft
    exact activePtrs_append (by omega) _
  by_cases hold : b < n
  · rw [List.getD_append _ _ _ _ (by omega)]
    exact (hinv.gbeam b hb hold hnodes).congr hsame
  · obtain rfl : b = n := by omega
    rw [List.getD_append_right _ _ _ _ (by omega), hlengthG, Nat.sub_self]
    exact (hgbeam hnodes).congr hsame

/-- One turn of the loop over the boundaries. -/
theorem GbeamRunInv.step (hpos : 0 < a.globalBeamSize) {st : GbeamState}
    (hinv : GbeamRunInv lat n st) :
    ∃ st', a.scoreBoundaryGbeam (lat.boundary n) st = some st' ∧ GbeamRunInv lat (n + 1) st' := by
  have hlength := hinv.length_beams
  have htwo := hinv.two_le
  unfold scoreBoundaryGbeam
  split
  next hzero =>
    refine ⟨_, rfl, by omega, by simp [hlength], by simp [hinv.length_globalBeams], ?_, ?_⟩
    · refine hinv.live.append htwo hlength fun t0 ht0 => ?_
      rw [hzero] at ht0
      exact absurd ht0 (Nat.not_lt_zero t0)
    · intro b hb hlt hnodes
      exact hinv.gbeam_append hb hlt hnodes fun hne => absurd hzero hne
  next hnodes =>
    obtain ⟨gbeam, hgbeam, hgbeamInv⟩ := makeGlobalBeam_spec hpos
    obtain ⟨res, hres, hresLength, hresRows⟩ := a.computeGbeamScores_spec
      (a.gbeamContext n (lat.boundary n) st.beams gbeam)
    rw [hgbeam, hlength]
    simp only
    rw [hres]
    refine ⟨_, rfl, by omega, by simp [hlength], by simp [hinv.length_globalBeams], ?_, ?_⟩
    · refine hinv.live.append htwo hlength fun t0 ht0 => ?_
      obtain ⟨t0pos, r, hr, hrow⟩ := hresRows t0 ht0
      obtain ⟨cands, scores, hprefix, hcands, hbeam⟩ :=
        exists_makeT0Beam_of_scoreT0Turn _ ht0 hr
      rw [List.getD_eq_getElem?_getD, hrow, Option.getD_some]
      exact rowInv_of_makeT0Beam hgbeamInv (sameLeft_head hprefix) hcands hbeam
    · intro b hb hlt hnodes
      exact hinv.gbeam_append hb hlt hnodes fun _ => hgbeamInv

theorem GbeamRunInv.run (hpos : 0 < a.globalBeamSize) {st : GbeamState}
    (hinv : GbeamRunInv lat n st) (bnds : List LatticeBoundary)
    (hbnds : lat.boundaries.drop n = bnds) (hn : n ≤ lat.createdBoundaryCount) :
    ∃ st', a.scoreBoundariesGbeam bnds st = some st' ∧
      GbeamRunInv lat lat.createdBoundaryCount st' := by
  induction bnds generalizing n st with
  | nil =>
      rw [List.drop_eq_nil_iff] at hbnds
      have hend : n = lat.createdBoundaryCount := le_antisymm hn hbnds
      exact ⟨st, rfl, hend ▸ hinv⟩
  | cons bnd bnds ih =>
      have hlt : n < lat.boundaries.length := by
        by_contra hge
        rw [List.drop_eq_nil_of_le (by omega)] at hbnds
        cases hbnds
      rw [List.drop_eq_getElem_cons hlt] at hbnds
      obtain ⟨hbnd, hrest⟩ := List.cons.inj hbnds
      have hboundary : lat.boundary n = bnd := by
        unfold Lattice.boundary boundaryAt
        rw [List.getD_eq_getElem _ _ hlt, hbnd]
      obtain ⟨st1, hst1, hinv1⟩ := hinv.step hpos
      rw [hboundary] at hst1
      unfold scoreBoundariesGbeam
      rw [hst1]
      exact ih hinv1 hrest hlt

theorem computeScoresGbeam_spec (a : AnalyzerImpl P) (lat : Lattice)
    (hpos : 0 < a.globalBeamSize) :
    ∃ st, a.computeScoresGbeam lat = some st ∧ GbeamRunInv lat lat.createdBoundaryCount st := by
  have hlength := lat.four_le_length
  have hcount : ¬ lat.createdBoundaryCount ≤ 3 := by
    unfold Lattice.createdBoundaryCount
    omega
  unfold computeScoresGbeam
  rw [if_neg hcount]
  exact gbeamRunInv_bootstrap.run hpos _ rfl (by omega)

end AnalyzerImpl

end Jumanpp.Core.Analysis
