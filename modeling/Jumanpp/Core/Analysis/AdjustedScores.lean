import Jumanpp.Core.Analysis.BestPath

/-!
# Totals after the additional scorers

The elements of the global beams are adjusted boundary by boundary.  The element before one of them was
chosen from the global beam of an earlier boundary, so its total is right when it is read; an element
that is met twice gets the same total again.
-/

namespace Jumanpp.Core.Analysis

open Jumanpp.Lib

/-- The weighted scores of the nodes of a path that stand behind BOS. -/
def pathTotal (columns : List ScoreColumn) (scoreWeights : List Score) : ConnectionPtr → Score
  | .null => 0
  | .conn b l r m previous =>
      if b ≤ 1 then 0
      else weightedScore columns scoreWeights b r m l + pathTotal columns scoreWeights previous

/-- The number of the EOS boundary is not taken from the connection, where it may not fit. -/
structure Rescored (lat : Lattice) (columns : List ScoreColumn) (scoreWeights : List Score)
    (globalBeams : List GlobalBeam) (beams : Beams) : Prop where
  globalBeams : ∀ b, 2 ≤ b → b < lat.createdBoundaryCount → (lat.boundary b).localNodeCount ≠ 0 →
    ∀ el ∈ (globalBeams.getD b ⟨[], []⟩).ptrs, (el.deref beams).totalScore =
      pathTotal columns scoreWeights (el.deref beams).ptr
  eos : ∀ e ∈ activeBeam (beamAt beams ⟨lat.createdBoundaryCount - 1, 0⟩), e.totalScore =
    weightedScore columns scoreWeights (lat.createdBoundaryCount - 1) 0 e.ptr.beam e.ptr.left +
      pathTotal columns scoreWeights e.ptr.previous
  sorted : (activeBeam (beamAt beams ⟨lat.createdBoundaryCount - 1, 0⟩)).Pairwise fun e e' =>
    e'.totalScore ≤ e.totalScore

/-! ## Elements come from global beams -/

namespace AnalyzerImpl

variable {P : Type} {a : AnalyzerImpl P} {lat : Lattice} {n : Nat}

/-- What is kept at a node was chosen from the global beam of its boundary. -/
structure Chosen (lat : Lattice) (n : Nat) (st : GbeamState) : Prop where
  bos : ∃ rest, beamAt st.beams ⟨1, 0⟩ = ⟨.conn 1 0 0 0 (.conn 0 0 0 0 .null), 0⟩ :: rest
  bosActive : activePtrs st.beams ⟨1, 0⟩ = [.conn 1 0 0 0 (.conn 0 0 0 0 .null)]
  cand : ∀ ptr, 2 ≤ ptr.boundary → ptr.boundary < n →
    ptr.position < (lat.boundary ptr.boundary).localNodeCount → ∀ conn ∈ activePtrs st.beams ptr,
      ∃ cand ∈ (st.globalBeams.getD ptr.boundary ⟨[], []⟩).cands,
        cand.left = conn.left ∧ cand.beam = conn.beam

theorem activeBeam_fake_padded (A : List ConnectionBeamElement) (k : Nat) :
    activeBeam (A ++ List.replicate k fake) <+: A := by
  induction A with
  | nil => rw [List.nil_append, activeBeam_replicate_fake]
  | cons e A ih =>
      unfold activeBeam at ih ⊢
      rw [List.cons_append, List.takeWhile_cons]
      split
      · exact List.prefix_cons_inj e |>.mpr ih
      · exact List.nil_prefix

theorem cand_of_makeT0Beam {ctx : GbeamContext P} {t0 : Nat} {cands : List BeamCandidate}
    (hsame : SameLeft cands ctx.gbeam.cands) {scores : List Score}
    {row : List ConnectionBeamElement} (hrow : a.makeT0Beam ctx t0 cands scores = some row) :
    ∀ conn ∈ (activeBeam row).map (·.ptr), ∃ cand ∈ ctx.gbeam.cands,
      cand.left = conn.left ∧ cand.beam = conn.beam := by
  obtain ⟨order, htop, hbeam⟩ := a.exists_makeT0Beam ctx t0 cands scores
  rw [hbeam] at hrow
  obtain rfl := Option.some.inj hrow
  intro conn hconn
  obtain ⟨e, he, rfl⟩ := List.mem_map.mp hconn
  obtain ⟨i, hi, rfl⟩ := List.mem_map.mp ((activeBeam_fake_padded _ _).subset he)
  obtain ⟨cand, hcand, hleft, hbeamEq⟩ := hsame i (List.mem_range.mp (htop.subset hi))
  exact ⟨cand, List.mem_of_getElem? hcand, hleft.symm, hbeamEq.symm⟩

theorem chosen_bootstrap : Chosen lat 2 a.bootstrapState where
  bos := ⟨_, rfl⟩
  bosActive := by
    show (activeBeam (_ :: List.replicate (a.beamSize - 1) fake)).map (·.ptr) = _
    have hbos : isFake ⟨.conn 1 0 0 0 (.conn 0 0 0 0 .null), 0⟩ = false := rfl
    rw [activeBeam, List.takeWhile_cons, hbos]
    show _ :: (activeBeam (List.replicate (a.beamSize - 1) fake)).map (·.ptr) = _
    rw [activeBeam_replicate_fake]
    rfl
  cand ptr hptr hlt := absurd hlt (by omega)

/-- The last boundary is appended; the others stay. -/
theorem Chosen.append {st : GbeamState} (h : Chosen lat n st) (hinv : GbeamRunInv lat n st)
    {rows : List (List ConnectionBeamElement)} {scores : LatticeBoundaryScores} {gbeam : GlobalBeam}
    (hrows : ∀ t0 < (lat.boundary n).localNodeCount,
      ∀ conn ∈ (activeBeam (rows.getD t0 [])).map (·.ptr), ∃ cand ∈ gbeam.cands,
        cand.left = conn.left ∧ cand.beam = conn.beam) :
    Chosen lat (n + 1) ⟨st.beams ++ [rows], st.scores ++ [scores], st.globalBeams ++ [gbeam]⟩ where
  bos := by
    rw [beamAt_append (by have htwo := hinv.two_le; rw [hinv.length_beams]; exact htwo)]
    exact h.bos
  bosActive := by
    rw [activePtrs_append (by have htwo := hinv.two_le; rw [hinv.length_beams]; exact htwo)]
    exact h.bosActive
  cand ptr hptr hlt hposition conn hconn := by
    have hlength := hinv.length_beams
    have hlengthG := hinv.length_globalBeams
    by_cases hold : ptr.boundary < n
    · rw [activePtrs_append (by omega)] at hconn
      rw [List.getD_append _ _ _ _ (by omega)]
      exact h.cand ptr hptr hold hposition conn hconn
    · obtain ⟨b, t0⟩ := ptr
      obtain rfl : b = n := by simp only at hlt hold; omega
      unfold activePtrs at hconn
      rw [← hlength, beamAt_last] at hconn
      rw [List.getD_append_right _ _ _ _ (by omega), hlengthG, Nat.sub_self]
      exact hrows t0 hposition conn hconn

theorem Chosen.step (hpos : 0 < a.globalBeamSize) {st st' : GbeamState} (h : Chosen lat n st)
    (hinv : GbeamRunInv lat n st) (hst : a.scoreBoundaryGbeam (lat.boundary n) st = some st') :
    Chosen lat (n + 1) st' := by
  unfold scoreBoundaryGbeam at hst
  split at hst
  next hzero =>
    cases hst
    exact h.append hinv fun t0 ht0 => absurd (hzero ▸ ht0) (Nat.not_lt_zero t0)
  next hnodes =>
    obtain ⟨gbeam, hgbeam, -⟩ := @makeGlobalBeam_spec P a lat n st.beams hpos
    obtain ⟨res, hres, -, hresRows⟩ := a.computeGbeamScores_spec
      (a.gbeamContext n (lat.boundary n) st.beams gbeam)
    rw [hgbeam, hinv.length_beams] at hst
    simp only at hst
    rw [hres] at hst
    cases hst
    refine h.append hinv fun t0 ht0 => ?_
    obtain ⟨t0pos, r, hr, hrow⟩ := hresRows t0 ht0
    obtain ⟨cands, scores, hprefix, -, hbeam⟩ := exists_makeT0Beam_of_scoreT0Turn _ ht0 hr
    rw [List.getD_eq_getElem?_getD, hrow, Option.getD_some]
    exact cand_of_makeT0Beam (sameLeft_head hprefix) hbeam

theorem Chosen.run (hpos : 0 < a.globalBeamSize) {st st' : GbeamState} (h : Chosen lat n st)
    (hinv : GbeamRunInv lat n st) {bnds : List LatticeBoundary} (hbnds : lat.boundaries.drop n = bnds)
    (hn : n ≤ lat.createdBoundaryCount) (hst : a.scoreBoundariesGbeam bnds st = some st') :
    Chosen lat lat.createdBoundaryCount st' := by
  induction bnds generalizing n st with
  | nil =>
      rw [List.drop_eq_nil_iff] at hbnds
      have hend : n = lat.createdBoundaryCount := le_antisymm hn hbnds
      cases hst
      exact hend ▸ h
  | cons bnd bnds ih =>
      have hlt : n < lat.boundaries.length := by
        by_contra hge
        rw [List.drop_eq_nil_of_le (by omega)] at hbnds
        cases hbnds
      rw [List.drop_eq_getElem_cons hlt] at hbnds
      obtain ⟨hbnd, hrest⟩ := List.cons.inj hbnds
      have hboundary : lat.boundary n = bnd := by
        unfold Lattice.boundary boundaryAt
        rw [List.getD_eq_getElem _ _ hlt, hbnd]
      obtain ⟨st1, hst1, hinv1⟩ := hinv.step hpos
      have hchosen := h.step hpos hinv hst1
      rw [hboundary] at hst1
      unfold scoreBoundariesGbeam at hst
      rw [hst1] at hst
      exact ih hchosen hinv1 hrest hlt hst

end AnalyzerImpl

/-! ## One element -/

section Adjust

variable {lat : Lattice} {columns : List ScoreColumn} {scoreWeights : List Score} {beams : Beams}

/-- The total of a live element is that of its path. -/
def Adjusted (columns : List ScoreColumn) (scoreWeights : List Score) (beams : Beams)
    (addr : BeamAddr) : Prop :=
  ∀ conn, (activePtrs beams addr.node)[addr.beam]? = some conn →
    (addr.deref beams).ptr = conn ∧
      (addr.deref beams).totalScore = pathTotal columns scoreWeights conn

theorem beamAt_setTotal (el : BeamAddr) (totalScore : Score) (ptr : LatticeNodePtr) :
    beamAt (setTotal beams el totalScore) ptr =
      if el.node = ptr then
        (beamAt beams ptr).modify el.beam fun e => { e with totalScore := totalScore }
      else beamAt beams ptr := by
  obtain ⟨⟨b, t0⟩, m⟩ := el
  obtain ⟨b', t0'⟩ := ptr
  unfold beamAt setTotal
  simp only
  rw [getD_modify (by simp)]
  by_cases hb : b = b'
  · rw [if_pos hb, getD_modify (by simp)]
    by_cases ht : t0 = t0'
    · rw [if_pos ht, if_pos (by rw [hb, ht])]
    · rw [if_neg ht, if_neg fun h => ht (LatticeNodePtr.mk.inj h).2]
  · rw [if_neg hb, if_neg fun h => hb (LatticeNodePtr.mk.inj h).1]

theorem deref_setTotal_of_ne {el addr : BeamAddr} (hne : el ≠ addr) (totalScore : Score) :
    addr.deref (setTotal beams el totalScore) = addr.deref beams := by
  unfold BeamAddr.deref
  rw [beamAt_setTotal]
  split
  next hnode =>
    have hbeam : el.beam ≠ addr.beam := by
      intro heq
      apply hne
      cases el
      cases addr
      simp only at hnode heq
      rw [hnode, heq]
    rw [List.getD_eq_getElem?_getD, List.getElem?_modify_ne _ _ hbeam, ← List.getD_eq_getElem?_getD]
  next => rfl

theorem deref_setTotal_self {el : BeamAddr} {totalScore : Score}
    (h : el.beam < (beamAt beams el.node).length) :
    el.deref (setTotal beams el totalScore) = { el.deref beams with totalScore := totalScore } := by
  unfold BeamAddr.deref
  rw [beamAt_setTotal, if_pos rfl, List.getD_eq_getElem?_getD, List.getElem?_modify_eq,
    List.getD_eq_getElem?_getD, List.getElem?_eq_getElem h]
  rfl

theorem deref_of_activePtrs {addr : BeamAddr} {conn : ConnectionPtr}
    (h : (activePtrs beams addr.node)[addr.beam]? = some conn) :
    addr.beam < (beamAt beams addr.node).length ∧ (addr.deref beams).ptr = conn := by
  obtain ⟨e, he, -, hptr⟩ := getElem?_of_activePtrs h
  refine ⟨(List.getElem?_eq_some_iff.mp he).1, ?_⟩
  unfold BeamAddr.deref
  rw [List.getD_eq_getElem?_getD, he]
  exact hptr

theorem prevAddr_eq {ptr left : LatticeNodePtr} {conn prev : ConnectionPtr}
    (hcontinues : Continues lat beams ptr conn left prev) (hu16 : ptr.boundary < 2 ^ 16) :
    prevAddr lat conn = ⟨left, conn.beam⟩ := by
  have hends := hcontinues.ends
  have hboundary : conn.boundary = ptr.boundary := by
    rw [hcontinues.eq]
    exact u16_of_lt hu16
  unfold prevAddr
  rw [hboundary, List.getD_eq_getElem?_getD, hends]
  rfl

/-- The turn for one element, when the element before it has been adjusted. -/
theorem adjusted_adjustElement {el : BeamAddr} {conn prev : ConnectionPtr} {left : LatticeNodePtr}
    (hlive : (activePtrs beams el.node)[el.beam]? = some conn)
    (hcontinues : Continues lat beams el.node conn left prev) (htwo : 2 ≤ el.node.boundary)
    (hu16 : el.node.boundary < 2 ^ 16)
    (hprev : Adjusted columns scoreWeights beams ⟨left, conn.beam⟩) {addr : BeamAddr}
    (haddr : addr = el ∨ Adjusted columns scoreWeights beams addr) :
    Adjusted columns scoreWeights (adjustElement lat columns scoreWeights beams el) addr := by
  obtain ⟨hlt, hptr⟩ := deref_of_activePtrs hlive
  obtain ⟨-, htotal⟩ := hprev prev hcontinues.beam
  have hadjust : adjustElement lat columns scoreWeights beams el =
      setTotal beams el (pathTotal columns scoreWeights conn) := by
    unfold adjustElement
    simp only
    rw [hptr, prevAddr_eq hcontinues hu16, htotal, hcontinues.eq]
    show setTotal beams el (weightedScore columns scoreWeights (u16 el.node.boundary) _ _ _ + _) =
      setTotal beams el (if u16 el.node.boundary ≤ 1 then 0 else _)
    rw [u16_of_lt hu16, if_neg (by omega)]
    rfl
  intro conn' hconn'
  rw [hadjust, activePtrs_setTotal] at hconn'
  rw [hadjust]
  by_cases heq : el = addr
  · subst heq
    obtain rfl : conn = conn' := Option.some.inj (hlive.symm.trans hconn')
    rw [deref_setTotal_self hlt]
    exact ⟨hptr, rfl⟩
  · rw [deref_setTotal_of_ne heq]
    exact haddr.resolve_left (fun h => heq h.symm) conn' hconn'

end Adjust

/-! ## All elements -/

namespace AnalyzerImpl

variable {P : Type} {a : AnalyzerImpl P} {lat : Lattice} {n : Nat} {st : GbeamState}
  {columns : List ScoreColumn} {scoreWeights : List Score}

theorem GbeamInv.exists_live {beams : Beams} {b : Nat} {gbeam : GlobalBeam}
    (h : GbeamInv lat beams b gbeam) {el : BeamAddr} (hel : el ∈ gbeam.ptrs) :
    el.node ∈ (lat.boundary b).ends ∧
      ∃ conn, (activePtrs beams el.node)[el.beam]? = some conn := by
  rw [h.ptrs] at hel
  obtain ⟨cand, hcand, rfl⟩ := List.mem_map.mp hel
  obtain ⟨left, conn, hleft, hconn⟩ := h.live cand hcand
  have hends : (lat.boundary b).ends.getD cand.left ⟨0, 0⟩ = left := by
    rw [List.getD_eq_getElem?_getD, hleft]
    rfl
  simp only [hends]
  exact ⟨List.mem_of_getElem? hleft, conn, hconn⟩

/-- The element before one of a global beam is in the global beam of an earlier boundary. -/
theorem exists_previous (hspans : Spans lat n) (hinv : GbeamRunInv lat (n + 3) st)
    (hchosen : Chosen lat (n + 3) st) {b : Nat} (hb : 3 ≤ b) (hlt : b < n + 3)
    (hnodes : (lat.boundary b).localNodeCount ≠ 0) {el : BeamAddr}
    (hel : el ∈ (st.globalBeams.getD b ⟨[], []⟩).ptrs) :
    ∃ conn left prev, (activePtrs st.beams el.node)[el.beam]? = some conn ∧
      Continues lat st.beams el.node conn left prev ∧ 2 ≤ el.node.boundary ∧
      el.node.boundary < b ∧ el.node.boundary < 2 ^ 16 ∧
      (lat.boundary el.node.boundary).localNodeCount ≠ 0 ∧
      (⟨left, conn.beam⟩ : BeamAddr) ∈
        (st.globalBeams.getD el.node.boundary ⟨[], []⟩).ptrs := by
  obtain ⟨hends, conn, hconn⟩ := GbeamInv.exists_live (hinv.gbeam b (by omega) hlt hnodes) hel
  obtain ⟨info, -, hstart, -, -⟩ := hspans.info b (by omega) hlt el.node hends
  have hback := lat.ends_back b (by omega) el.node hends
  have hvalid := lat.ends_valid b (by omega) el.node hends
  have htwo : 2 ≤ el.node.boundary := by omega
  have hmem := List.mem_of_getElem? hconn
  obtain ⟨left, prev, hcontinues⟩ :=
    hinv.live.continues el.node htwo (by omega) hvalid conn hmem
  obtain ⟨cand, hcand, hleft, hbeam⟩ := hchosen.cand el.node htwo (by omega) hvalid conn hmem
  have hcount : (lat.boundary el.node.boundary).localNodeCount ≠ 0 :=
    fun hzero => absurd (hzero ▸ hvalid) (Nat.not_lt_zero _)
  refine ⟨conn, left, prev, hconn, hcontinues, htwo, hback.2, (lat.ends_u16 b (by omega) _ hends).1,
    hcount, ?_⟩
  rw [(hinv.gbeam el.node.boundary htwo (by omega) hcount).ptrs]
  refine List.mem_map.mpr ⟨cand, hcand, ?_⟩
  rw [hleft, hbeam, List.getD_eq_getElem?_getD, hcontinues.ends]
  rfl

/-- The global beams before the boundary `k` are done. -/
structure AdjustedTo (lat : Lattice) (columns : List ScoreColumn) (scoreWeights : List Score)
    (st : GbeamState) (k : Nat) (beams : Beams) : Prop where
  same : ∀ ptr, activePtrs beams ptr = activePtrs st.beams ptr
  globalBeams : ∀ b, 2 ≤ b → b < k → (lat.boundary b).localNodeCount ≠ 0 →
    ∀ el ∈ (st.globalBeams.getD b ⟨[], []⟩).ptrs, Adjusted columns scoreWeights beams el

/-- Before the third boundary there is BOS only. -/
theorem adjustedTo_start (hinv : GbeamRunInv lat (n + 3) st) (hchosen : Chosen lat (n + 3) st) :
    AdjustedTo lat columns scoreWeights st 3 st.beams where
  same _ := rfl
  globalBeams b hb hlt hnodes el hel := by
    obtain rfl : b = 2 := by omega
    obtain ⟨hends, conn, hconn⟩ :=
      GbeamInv.exists_live (hinv.gbeam 2 (Nat.le_refl 2) (by omega) hnodes) hel
    have hnode : el.node = ⟨1, 0⟩ := by
      rw [show (lat.boundary 2).ends = [⟨1, 0⟩] from lat.firstEnds] at hends
      exact List.mem_singleton.mp hends
    rw [hnode, hchosen.bosActive] at hconn
    obtain ⟨hlt', hget⟩ := List.getElem?_eq_some_iff.mp hconn
    have hbeam : el.beam = 0 := by
      rw [List.length_singleton] at hlt'
      omega
    obtain ⟨rest, hrow⟩ := hchosen.bos
    have hderef : el.deref st.beams = ⟨.conn 1 0 0 0 (.conn 0 0 0 0 .null), 0⟩ := by
      unfold BeamAddr.deref
      rw [hnode, hbeam, hrow]
      rfl
    intro conn' hconn'
    rw [hnode, hchosen.bosActive, hbeam] at hconn'
    cases hconn'
    rw [hderef]
    exact ⟨rfl, rfl⟩

theorem adjusted_foldl (hspans : Spans lat n) (hinv : GbeamRunInv lat (n + 3) st)
    (hchosen : Chosen lat (n + 3) st) {k : Nat} (hk : 3 ≤ k) (hlt : k < n + 3)
    (hnodes : (lat.boundary k).localNodeCount ≠ 0) {els : List BeamAddr}
    (hels : ∀ el ∈ els, el ∈ (st.globalBeams.getD k ⟨[], []⟩).ptrs) {beams : Beams}
    (h : AdjustedTo lat columns scoreWeights st k beams) :
    AdjustedTo lat columns scoreWeights st k
        (els.foldl (adjustElement lat columns scoreWeights) beams) ∧
      ∀ addr, addr ∈ els ∨ Adjusted columns scoreWeights beams addr →
        Adjusted columns scoreWeights (els.foldl (adjustElement lat columns scoreWeights) beams)
          addr := by
  induction els generalizing beams with
  | nil => exact ⟨h, fun addr haddr => haddr.resolve_left (fun hmem => nomatch hmem)⟩
  | cons el els ih =>
      obtain ⟨conn, left, prev, hconn, hcontinues, htwo, hback, hu16, hcount, hmem⟩ :=
        exists_previous hspans hinv hchosen hk hlt hnodes (hels el List.mem_cons_self)
      have hlive : (activePtrs beams el.node)[el.beam]? = some conn := by
        rw [h.same]
        exact hconn
      have hcontinues' : Continues lat beams el.node conn left prev :=
        ⟨hcontinues.ends, by rw [h.same]; exact hcontinues.beam, hcontinues.eq⟩
      have hkeep (addr : BeamAddr) (haddr : addr = el ∨ Adjusted columns scoreWeights beams addr) :
          Adjusted columns scoreWeights (adjustElement lat columns scoreWeights beams el) addr :=
        adjusted_adjustElement hlive hcontinues' htwo hu16
          (h.globalBeams _ htwo hback hcount _ hmem) haddr
      have hnext : AdjustedTo lat columns scoreWeights st k
          (adjustElement lat columns scoreWeights beams el) :=
        ⟨fun ptr => (activePtrs_setTotal _ _ _ ptr).trans (h.same ptr),
          fun b hb hlt' hnodes' addr haddr => hkeep addr (.inr (h.globalBeams b hb hlt' hnodes' addr haddr))⟩
      obtain ⟨hall, hrest⟩ := ih (fun x hx => hels x (List.mem_cons_of_mem _ hx)) hnext
      refine ⟨hall, fun addr haddr => hrest addr ?_⟩
      rcases haddr with haddr | haddr
      · rcases List.mem_cons.mp haddr with heq | haddr
        · exact .inr (hkeep addr (.inl heq))
        · exact .inl haddr
      · exact .inr (hkeep addr (.inr haddr))

theorem adjustedTo_adjustBeamScores (hspans : Spans lat n) (hinv : GbeamRunInv lat (n + 3) st)
    (hchosen : Chosen lat (n + 3) st) :
    AdjustedTo lat columns scoreWeights st (n + 3)
      (adjustBeamScores lat columns scoreWeights st.globalBeams st.beams) := by
  have hloop (m : Nat) (hm : m ≤ n) : AdjustedTo lat columns scoreWeights st (3 + m)
      ((List.range' 3 m).foldl (fun beams latBnd =>
        if (lat.boundary latBnd).localNodeCount = 0 then beams
        else (st.globalBeams.getD latBnd ⟨[], []⟩).ptrs.foldl
          (adjustElement lat columns scoreWeights) beams) st.beams) := by
    induction m with
    | zero => exact adjustedTo_start hinv hchosen
    | succ m ih =>
        have hbefore := ih (by omega)
        rw [List.range'_1_concat, List.foldl_append, List.foldl_cons, List.foldl_nil]
        split
        next hzero =>
          refine ⟨hbefore.same, fun b hb hlt hnodes => ?_⟩
          have hne : b ≠ 3 + m := fun heq => hnodes (heq ▸ hzero)
          exact hbefore.globalBeams b hb (by omega) hnodes
        next hnodes =>
          obtain ⟨hall, hdone⟩ := adjusted_foldl hspans hinv hchosen (by omega) (by omega) hnodes
            (fun el hel => hel) hbefore
          refine ⟨hall.same, fun b hb hlt hnodes' el hel => ?_⟩
          by_cases heq : b = 3 + m
          · subst heq
            exact hdone el (.inl hel)
          · exact hall.globalBeams b hb (by omega) hnodes' el hel
  have hend := hloop n (Nat.le_refl n)
  unfold adjustBeamScores
  rw [hspans.count, Nat.add_sub_cancel, Nat.add_comm n 3]
  exact hend

/-! ## The EOS beam -/

/-- An element of the new EOS beam, from the element `i` of the last global beam. -/
theorem eosElement_spec {eos : Nat} {beams : Beams} {gbeam : GlobalBeam}
    (hgbeam : GbeamInv lat beams eos gbeam) {i : Nat}
    (hi : i < (a.lastGbeam gbeam beams).length) :
    ∃ el ∈ gbeam.ptrs, ∃ b l r m, gbeamElement (a.gbeamContext eos (lat.boundary eos) beams gbeam) 0
        (a.lastGbeam gbeam beams) (eosScores columns scoreWeights eos gbeam beams) i =
      ⟨.conn b l r m (el.deref beams).ptr,
        weightedScore columns scoreWeights eos 0 m l + (el.deref beams).totalScore⟩ := by
  have hlength : i < gbeam.cands.length := by
    unfold lastGbeam at hi
    rw [List.length_zipWith] at hi
    omega
  have hlength' : i < gbeam.ptrs.length := by
    rw [hgbeam.ptrs, List.length_map]
    exact hlength
  refine ⟨gbeam.ptrs[i], List.getElem_mem hlength', u16 eos, gbeam.cands[i].left, u16 0,
    gbeam.cands[i].beam, ?_⟩
  have hcand : (a.lastGbeam gbeam beams).getD i ⟨0, 0, 0⟩ = .pack a.platform
      (gbeam.ptrs[i].deref beams).totalScore gbeam.cands[i].left gbeam.cands[i].beam := by
    unfold lastGbeam
    rw [List.getD_eq_getElem?_getD, List.getElem?_zipWith, List.getElem?_eq_getElem hlength,
      List.getElem?_eq_getElem hlength']
    rfl
  have hscore : (eosScores columns scoreWeights eos gbeam beams).getD i 0 =
      weightedScore columns scoreWeights eos 0 gbeam.cands[i].beam gbeam.cands[i].left +
        (gbeam.ptrs[i].deref beams).totalScore := by
    unfold eosScores
    rw [List.getD_eq_getElem?_getD, List.getElem?_zipWith, List.getElem?_eq_getElem hlength,
      List.getElem?_eq_getElem hlength']
    rfl
  unfold gbeamElement
  rw [hcand, hscore]
  show (⟨.conn _ _ _ _ ((gbeam.ptrs.getD i ⟨⟨0, 0⟩, 0⟩).deref beams).ptr, _⟩ :
    ConnectionBeamElement) = _
  rw [List.getD_eq_getElem _ _ hlength']
  rfl

theorem rescored_of_adjusted (hspans : Spans lat n) (hinv : GbeamRunInv lat (n + 3) st)
    {beams : Beams} (h : AdjustedTo lat columns scoreWeights st (n + 3) beams) :
    ∃ beams', a.remakeEosBeam lat columns scoreWeights st.globalBeams beams = some beams' ∧
      Rescored lat columns scoreWeights st.globalBeams beams' := by
  have hcount := hspans.count
  have hnodes : (lat.boundary (n + 2)).localNodeCount ≠ 0 := by
    unfold LatticeBoundary.localNodeCount
    rw [hspans.eos, List.length_singleton]
    exact Nat.one_ne_zero
  have hgbeamSt := hinv.gbeam (n + 2) (by omega) (by omega) hnodes
  have hgbeam : GbeamInv lat beams (n + 2) (st.globalBeams.getD (n + 2) ⟨[], []⟩) :=
    hgbeamSt.congr fun left _ => h.same left
  obtain ⟨order, htop, hrow⟩ := a.exists_makeT0Beam (a.gbeamContext (n + 2) (lat.boundary (n + 2))
    beams (st.globalBeams.getD (n + 2) ⟨[], []⟩)) 0
    (a.lastGbeam (st.globalBeams.getD (n + 2) ⟨[], []⟩) beams)
    (eosScores columns scoreWeights (n + 2) (st.globalBeams.getD (n + 2) ⟨[], []⟩) beams)
  generalize hrowDef : order.map (gbeamElement _ 0 _ _) ++
    List.replicate (a.beamSize - order.length) fake = row at hrow
  have hlive := hinv.live.live ⟨n + 2, 0⟩ (by simp only; omega) (Nat.lt_succ_self (n + 2))
    (Nat.pos_of_ne_zero hnodes) hspans.paths
  have hne : beamAt beams ⟨n + 2, 0⟩ ≠ [] := by
    intro hnil
    rw [← h.same] at hlive
    apply hlive
    unfold activePtrs
    rw [hnil]
    rfl
  have heos : beamAt (beams.modify (n + 2) fun rows => rows.set 0 row)
      ⟨lat.createdBoundaryCount - 1, 0⟩ = row := by
    rw [hcount]
    exact beamAt_remakeEosBeam hne
  have hactive : activeBeam row <+: order.map _ :=
    hrowDef ▸ activeBeam_fake_padded _ _
  refine ⟨beams.modify (n + 2) fun rows => rows.set 0 row, ?_, ?_, ?_, ?_⟩
  · unfold remakeEosBeam
    rw [hcount]
    simp only [Nat.add_one_sub_one]
    rw [hrow]
  · intro b hb hlt hnodesB el hel
    have hgbeamB := hinv.gbeam b hb (hcount ▸ hlt) hnodesB
    obtain ⟨hends, conn, hconn⟩ := GbeamInv.exists_live hgbeamB hel
    have hne : el.node ≠ ⟨n + 2, 0⟩ := by
      intro heq
      have hback := (lat.ends_back b hb el.node hends).2
      rw [heq, hcount] at *
      simp only at hback
      omega
    have hderef : el.deref (beams.modify (n + 2) fun rows => rows.set 0 row) = el.deref beams := by
      unfold BeamAddr.deref
      rw [beamAt_remakeEosBeam_of_ne hne]
    obtain ⟨hptr, htotal⟩ := h.globalBeams b hb (hcount ▸ hlt) hnodesB el hel conn
      (by rw [h.same]; exact hconn)
    rw [hderef, hptr, htotal]
  · intro e he
    rw [heos] at he
    obtain ⟨i, hi, rfl⟩ := List.mem_map.mp (hactive.subset he)
    obtain ⟨el, hel, b, l, r, m, helement⟩ := @eosElement_spec P a lat columns
      scoreWeights _ beams _ hgbeam i (List.mem_range.mp (htop.subset hi))
    obtain ⟨-, conn, hconn⟩ := GbeamInv.exists_live hgbeam hel
    obtain ⟨hptr, htotal⟩ := h.globalBeams (n + 2) (by omega) (by omega) hnodes el hel conn hconn
    rw [helement, hcount, hptr, htotal]
    rfl
  · rw [heos]
    refine List.Pairwise.sublist hactive.sublist ?_
    rw [List.pairwise_map]
    exact htop.sorted.imp fun hafter => not_lt.mp (of_decide_eq_false hafter)

end AnalyzerImpl

end Jumanpp.Core.Analysis
