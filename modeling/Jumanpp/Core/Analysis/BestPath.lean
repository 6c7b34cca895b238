import Jumanpp.Core.Analysis.GbeamEquivalence
import Jumanpp.Core.Analysis.GbeamLive

/-!
# The best path of an accepted input

Either pass, with or without additional scorers, leaves a best EOS element whose path tiles the
input.
-/

namespace Jumanpp.Core.Analysis

open Jumanpp.Lib

theorem map_ptr_activeBeam (row : List ConnectionBeamElement) :
    (activeBeam row).map (·.ptr) =
      (row.map (·.ptr)).takeWhile fun ptr => !isFake ⟨ptr, 0⟩ := by
  rw [List.takeWhile_map]
  rfl

/-- The total of an element does not matter to where the connections lead. -/
theorem activePtrs_setTotal (beams : Beams) (el : BeamAddr) (totalScore : Score)
    (ptr : LatticeNodePtr) :
    activePtrs (setTotal beams el totalScore) ptr = activePtrs beams ptr := by
  have hrow : ∀ (row : List ConnectionBeamElement) i,
      (row.modify i fun e => { e with totalScore := totalScore }).map (·.ptr) =
        row.map (·.ptr) := by
    intro row i
    ext1 j
    rw [List.getElem?_map, List.getElem?_map, List.getElem?_modify, Option.map_eq_map,
      Option.map_map]
    congr 1
    funext e
    rw [Function.comp_apply]
    split <;> rfl
  have hbeam : (beamAt (setTotal beams el totalScore) ptr).map (·.ptr) =
      (beamAt beams ptr).map (·.ptr) := by
    unfold beamAt setTotal
    rw [getD_modify]
    · split
      · rw [getD_modify]
        · split
          · exact hrow _ _
          · rfl
        · simp
      · rfl
    · simp
  unfold activePtrs
  rw [map_ptr_activeBeam, map_ptr_activeBeam, hbeam]

theorem activePtrs_adjustBeamScores (lat : Lattice) (columns : List ScoreColumn)
    (scoreWeights : List Score) (globalBeams : List GlobalBeam) (beams : Beams)
    (ptr : LatticeNodePtr) :
    activePtrs (adjustBeamScores lat columns scoreWeights globalBeams beams) ptr =
      activePtrs beams ptr := by
  have helements : ∀ els beams, activePtrs
      (List.foldl (adjustElement lat columns scoreWeights) beams els) ptr =
        activePtrs beams ptr := by
    intro els
    induction els with
    | nil => exact fun _ => rfl
    | cons el els ih =>
        intro beams
        rw [List.foldl_cons, ih]
        exact activePtrs_setTotal _ _ _ _
  unfold adjustBeamScores
  generalize List.range' 3 (lat.createdBoundaryCount - 3) = latBnds
  induction latBnds generalizing beams with
  | nil => rfl
  | cons latBnd latBnds ih =>
      rw [List.foldl_cons, ih]
      split
      · rfl
      · exact helements _ _

namespace AnalyzerImpl

variable {P : Type} {a : AnalyzerImpl P} {lat : Lattice}

theorem beamAt_remakeEosBeam_of_ne {eos : Nat} {beams : Beams} {row : List ConnectionBeamElement}
    {ptr : LatticeNodePtr} (hptr : ptr ≠ ⟨eos, 0⟩) :
    beamAt (beams.modify eos fun rows => rows.set 0 row) ptr = beamAt beams ptr := by
  unfold beamAt
  rw [getD_modify rfl]
  split
  next hboundary =>
    have hposition : 0 ≠ ptr.position := by
      intro hzero
      apply hptr
      rw [hboundary, hzero]
    rw [List.getD_eq_getElem?_getD, List.getElem?_set_ne hposition,
      ← List.getD_eq_getElem?_getD]
  next => rfl

theorem activePtrs_remakeEosBeam {eos : Nat} {beams : Beams} {row : List ConnectionBeamElement}
    {ptr : LatticeNodePtr} (hptr : ptr ≠ ⟨eos, 0⟩) :
    activePtrs (beams.modify eos fun rows => rows.set 0 row) ptr = activePtrs beams ptr := by
  unfold activePtrs
  rw [beamAt_remakeEosBeam_of_ne hptr]

theorem beamAt_remakeEosBeam {eos : Nat} {beams : Beams} {row : List ConnectionBeamElement}
    (hne : beamAt beams ⟨eos, 0⟩ ≠ []) :
    beamAt (beams.modify eos fun rows => rows.set 0 row) ⟨eos, 0⟩ = row := by
  unfold beamAt at hne ⊢
  rw [getD_modify rfl, if_pos rfl]
  cases hrows : beams.getD eos [] with
  | nil =>
      simp only at hne
      rw [hrows] at hne
      exact absurd rfl hne
  | cons first rows => rfl

/-- The EOS row may be made again from live candidates. -/
theorem liveInv_setEos {eos : Nat} {beams : Beams} (h : LiveInv lat (eos + 1) beams)
    (htwo : 2 ≤ eos) (hpaths : lat.paths ⟨eos, 0⟩ ≠ [])
    (hnode : 0 < (lat.boundary eos).localNodeCount) {row : List ConnectionBeamElement}
    (hrow : RowInv lat beams ⟨eos, 0⟩ row) :
    LiveInv lat (eos + 1) (beams.modify eos fun rows => rows.set 0 row) := by
  have hlive := h.live ⟨eos, 0⟩ (by simp only; omega) (Nat.lt_succ_self eos) hnode hpaths
  have hne : beamAt beams ⟨eos, 0⟩ ≠ [] := by
    intro hnil
    apply hlive
    unfold activePtrs
    rw [hnil]
    rfl
  have heos : activePtrs (beams.modify eos fun rows => rows.set 0 row) ⟨eos, 0⟩ =
      (activeBeam row).map (·.ptr) := by
    unfold activePtrs
    rw [beamAt_remakeEosBeam hne]
  have hkeep : ∀ ptr conn left prev, 2 ≤ ptr.boundary → ptr.boundary < eos + 1 →
      Continues lat beams ptr conn left prev →
        Continues lat (beams.modify eos fun rows => rows.set 0 row) ptr conn left prev := by
    intro ptr conn left prev hptr hlt hcontinues
    have hback := lat.ends_back ptr.boundary hptr left (List.mem_of_getElem? hcontinues.ends)
    have hleft : left ≠ ⟨eos, 0⟩ := by
      rintro rfl
      simp only at hback
      omega
    refine ⟨hcontinues.ends, ?_, hcontinues.eq⟩
    rw [activePtrs_remakeEosBeam hleft]
    exact hcontinues.beam
  constructor
  · intro ptr hptr hlt hposition hptrPaths
    by_cases hhere : ptr = ⟨eos, 0⟩
    · obtain ⟨left, hleft, hleftLive⟩ := h.exists_left htwo (by omega) hpaths
      rw [hhere, heos, ne_eq, List.map_eq_nil_iff]
      exact hrow.live left hleft hleftLive
    · rw [activePtrs_remakeEosBeam hhere]
      exact h.live ptr hptr hlt hposition hptrPaths
  · intro ptr hptr hlt hposition conn hconn
    by_cases hhere : ptr = ⟨eos, 0⟩
    · subst hhere
      rw [heos] at hconn
      obtain ⟨left, prev, hcontinues⟩ := hrow.continues conn hconn
      exact ⟨left, prev, hkeep _ _ _ _ hptr hlt hcontinues⟩
    · rw [activePtrs_remakeEosBeam hhere] at hconn
      obtain ⟨left, prev, hcontinues⟩ := h.continues ptr hptr hlt hposition conn hconn
      exact ⟨left, prev, hkeep _ _ _ _ hptr hlt hcontinues⟩

theorem sameLeft_lastGbeam {n : Nat} {beams : Beams} {gbeam : GlobalBeam}
    (hgbeam : GbeamInv lat beams n gbeam) (beams' : Beams) :
    SameLeft (a.lastGbeam gbeam beams') gbeam.cands := by
  intro i hi
  have hlength : i < gbeam.cands.length := by
    unfold lastGbeam at hi
    rw [List.length_zipWith] at hi
    omega
  have hcand := List.getElem?_eq_getElem hlength
  refine ⟨gbeam.cands[i], hcand, ?_⟩
  unfold lastGbeam
  rw [List.getD_eq_getElem?_getD, List.getElem?_zipWith, hgbeam.ptrs, List.getElem?_map, hcand]
  exact ⟨rfl, rfl⟩

/-- The additional scorers change totals and the choice of the EOS elements only. -/
theorem scoreAdditional_spec {st : GbeamState} {eos : Nat}
    (hinv : GbeamRunInv lat (eos + 1) st) (hcount : lat.createdBoundaryCount = eos + 1)
    (hpaths : lat.paths ⟨eos, 0⟩ ≠ []) (hnode : 0 < (lat.boundary eos).localNodeCount)
    (htwo : 2 ≤ eos) (scorers : List ScoreComputer) (scoreWeights : List Score) :
    ∃ st', a.scoreAdditional lat scorers scoreWeights st = some st' ∧
      LiveInv lat (eos + 1) st'.beams := by
  unfold scoreAdditional
  split
  next => exact ⟨st, rfl, hinv.live⟩
  next =>
    let columns := st.scores :: scorers.map fun s => s lat st
    let beams := adjustBeamScores lat columns scoreWeights st.globalBeams st.beams
    let gbeam := st.globalBeams.getD eos ⟨[], []⟩
    have hsame : ∀ ptr, activePtrs beams ptr = activePtrs st.beams ptr :=
      activePtrs_adjustBeamScores lat columns scoreWeights st.globalBeams st.beams
    have hgbeam : GbeamInv lat beams eos gbeam :=
      (hinv.gbeam eos htwo (Nat.lt_succ_self eos) (by omega)).congr fun left _ => hsame left
    have hcands : gbeam.cands ≠ [] → a.lastGbeam gbeam beams ≠ [] := by
      intro hne hnil
      have hlength := congrArg List.length hnil
      unfold lastGbeam at hlength
      rw [List.length_zipWith, hgbeam.ptrs, List.length_map, Nat.min_self, List.length_nil] at hlength
      exact hne (List.length_eq_zero_iff.mp hlength)
    obtain ⟨row, hrow⟩ : ∃ row, a.makeT0Beam (a.gbeamContext eos (lat.boundary eos) beams gbeam) 0
        (a.lastGbeam gbeam beams) (eosScores columns scoreWeights eos gbeam beams) = some row :=
      (a.exists_makeT0Beam _ _ _ _).elim fun _ h => ⟨_, h.2⟩
    have hremake : a.remakeEosBeam lat columns scoreWeights st.globalBeams beams =
        some (beams.modify eos fun rows => rows.set 0 row) := by
      unfold remakeEosBeam
      rw [hcount, Nat.add_sub_cancel]
      dsimp only
      rw [hrow]
    refine ⟨{ st with beams := beams.modify eos fun rows => rows.set 0 row }, ?_, ?_⟩
    · dsimp only
      rw [hremake]
    · exact liveInv_setEos (hinv.live.congr hsame) htwo hpaths hnode
        (rowInv_of_makeT0Beam hgbeam (sameLeft_lastGbeam hgbeam beams) hcands hrow)

end AnalyzerImpl

/-- A new builder. -/
def newBuilder : LatticeBuilder :=
  ⟨[], [], [], 0⟩

theorem latticeOf_single :
    latticeOf newBuilder 1 [⟨0, 0, 1⟩] [] = .ok singleLattice.boundaries := by
  decide

/-- Two seeds for each of `n` characters. -/
def twinSeeds (n : Nat) : List LatticeNodeSeed :=
  (List.range n).flatMap fun i => [⟨0, i, i + 1⟩, ⟨2, i, i + 1⟩]

end Jumanpp.Core.Analysis
