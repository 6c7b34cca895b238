import Jumanpp.Core.Analysis.RnnLattice

/-!
# Resolving the ids after the global-beam pass

Nodes of the RNN lattice that are found deeper in the list of a boundary are taken for the head of
that list, so what the resolver makes of the kept paths depends on the order of their chains.
-/

namespace Jumanpp.Core.Analysis.Rnn

open Jumanpp.Lib RnnIdContainer

section Links

variable {lat : Lattice} {n : Nat} {beams : Beams} {paths : List ConnectionPtr}
  (hspans : Spans lat n) (hlive : LiveInv lat (n + 3) beams)
  (hbos : activePtrs beams ⟨1, 0⟩ = [bosPtr])
  (hpaths : ∀ path ∈ paths, Connects lat n beams path ⟨n + 2, 0⟩)

theorem Connects.ne_null {c : ConnectionPtr} {ptr : LatticeNodePtr}
    (h : Connects lat n beams c ptr) : c ≠ .null := by
  obtain ⟨left, prev, hcontinues⟩ := h.continues
  rw [hcontinues.eq]
  exact ConnectionPtr.noConfusion

include hspans in
theorem Connects.connections_eq {c : ConnectionPtr} {ptr : LatticeNodePtr}
    (h : Connects lat n beams c ptr) :
    connections bosPtr c = c :: connections bosPtr c.previous := by
  have hne := h.ne_bos hspans
  cases c with
  | null => exact absurd rfl h.ne_null
  | conn b l r m p =>
      conv_lhs => unfold connections
      rw [if_neg hne]
      rfl

theorem connections_bosPtr : connections bosPtr bosPtr = [] := rfl

include hspans hlive hbos

theorem Connects.of_mem_connections {c x : ConnectionPtr} {ptr : LatticeNodePtr}
    (h : Connects lat n beams c ptr) (hx : x ∈ connections bosPtr c) :
    ∃ ptr, Connects lat n beams x ptr := by
  induction c generalizing ptr with
  | null => cases hx
  | conn b l r m p ih =>
      rw [h.connections_eq hspans, List.mem_cons] at hx
      rcases hx with rfl | hx
      · exact ⟨ptr, h⟩
      · rcases h.previous hlive hbos with hprev | ⟨left, -, hprev⟩
        · rw [hprev] at hx
          cases hx
        · exact ih hprev hx

include hpaths

theorem Kept.connects {c : ConnectionPtr} (hc : Kept paths c) :
    ∃ ptr, Connects lat n beams c ptr := by
  obtain ⟨path, hpath, hmem⟩ := hc
  exact (hpaths path hpath).of_mem_connections hspans hlive hbos hmem

omit hlive hbos in
theorem kept_of_mem {path : ConnectionPtr} (hpath : path ∈ paths) : Kept paths path := by
  refine ⟨path, hpath, ?_⟩
  rw [(hpaths path hpath).connections_eq hspans]
  exact List.mem_cons_self

/-- What the resolver relies on holds for the paths of the global beam. -/
theorem links_of_paths (resolver : RnnIdResolver)
    (hhash : ∀ c c', Kept paths c → Kept paths c' →
      chainHash (chain bosPtr (coordOf resolver lat) c) =
        chainHash (chain bosPtr (coordOf resolver lat) c') →
      (chain bosPtr (coordOf resolver lat) c).map (fun x => (x.rnnId, x.length)) =
        (chain bosPtr (coordOf resolver lat) c').map fun x => (x.rnnId, x.length)) :
    Links bosPtr (coordOf resolver lat) (n + 3) (level n) (Kept paths) := by
  have hconnects : ∀ c, Kept paths c → ∃ ptr, Connects lat n beams c ptr := fun c hc =>
    hc.connects hspans hlive hbos hpaths
  have hprevious : ∀ c, Kept paths c → ∀ ptr, Connects lat n beams c ptr →
      c.previous = bosPtr ∨ Kept paths c.previous ∧ ∃ left,
        left ∈ (lat.boundary ptr.boundary).ends ∧ Connects lat n beams c.previous left := by
    intro c hc ptr hptr
    rcases hptr.previous hlive hbos with hprev | ⟨left, hleft, hprev⟩
    · exact Or.inl hprev
    · obtain ⟨path, hpath, hmem⟩ := hc
      refine Or.inr ⟨⟨path, hpath, connections_subset hmem ?_⟩, left, hleft, hprev⟩
      rw [hptr.connections_eq hspans, hprev.connections_eq hspans]
      simp
  have hkept : ∀ c, Kept paths c → Kept paths c.previous → ∃ ptr left,
      Connects lat n beams c ptr ∧ left ∈ (lat.boundary ptr.boundary).ends ∧
        Connects lat n beams c.previous left := by
    intro c hc hprev
    obtain ⟨ptr, hptr⟩ := hconnects c hc
    rcases hprevious c hc ptr hptr with hbosPtr | ⟨-, left, hleft, hconnect⟩
    · obtain ⟨left, hleft⟩ := hconnects _ hprev
      exact absurd hbosPtr (hleft.ne_bos hspans)
    · exact ⟨ptr, left, hptr, hleft, hconnect⟩
  refine ⟨ConnectionPtr.noConfusion, ?_, ?_, ?_, ?_, ?_, ?_, ?_, ?_, ?_, ?_, ?_, ?_, hhash⟩
  · intro c hc
    obtain ⟨ptr, hptr⟩ := hconnects c hc
    exact hptr.ne_bos hspans
  · intro c hc
    obtain ⟨ptr, hptr⟩ := hconnects c hc
    exact hptr.ne_null
  · intro c hc
    obtain ⟨ptr, hptr⟩ := hconnects c hc
    exact (hprevious c hc ptr hptr).imp_right And.left
  · intro c c' hc hc' hkey
    obtain ⟨ptr, hptr⟩ := hconnects c hc
    obtain ⟨ptr', hptr'⟩ := hconnects c' hc'
    exact hptr.key_inj hspans hptr' hkey
  · intro c hc hkey
    obtain ⟨ptr, hptr⟩ := hconnects c hc
    exact hptr.boundary_ne hspans (congrArg ConnectionKey.boundary hkey)
  · intro c hc
    show (coordinate resolver lat c.latticeNodePtr).boundary = _
    unfold coordinate
    split_ifs with heos hbosNode
    · rfl
    · exact (congrArg LatticeNodePtr.boundary hbosNode).symm
    · rfl
  · intro c hc
    obtain ⟨ptr, hptr⟩ := hconnects c hc
    have hlt := hptr.lt
    rw [hptr.boundary_eq]
    exact lt_of_le_of_lt (Nat.mod_le _ _) hlt
  · intro c hc
    obtain ⟨ptr, hptr⟩ := hconnects c hc
    exact hptr.boundary_ne hspans
  · intro c hc hprev
    obtain ⟨ptr, left, hptr, hleft, hconnect⟩ := hkept c hc hprev
    rw [hptr.level_eq hspans, hconnect.level_eq hspans]
    exact (lat.ends_back _ hptr.two_le left hleft).2
  · intro c c' hc hc' hlevel
    obtain ⟨ptr, hptr⟩ := hconnects c hc
    obtain ⟨ptr', hptr'⟩ := hconnects c' hc'
    rw [hptr.level_eq hspans, hptr'.level_eq hspans] at hlevel
    rw [hptr.boundary_eq, hptr'.boundary_eq, hlevel]
  · intro c c' _ _ hboundary
    unfold level
    rw [hboundary]
  · intro c hc hprev
    obtain ⟨ptr, left, hptr, hleft, hconnect⟩ := hkept c hc hprev
    exact hptr.follows hspans hleft hconnect

end Links

/-! ## The paths of the last global beam -/

section Pass

variable {P : Type} {a : AnalyzerImpl P} {lat : Lattice} {n : Nat} {beams : Beams}
  {gbeam : GlobalBeam}

theorem prefix_scoreBoundariesGbeam {bnds : List LatticeBoundary} {st st' : GbeamState}
    (h : a.scoreBoundariesGbeam bnds st = some st') : st.beams <+: st'.beams := by
  induction bnds generalizing st with
  | nil =>
      cases h
      exact List.prefix_rfl
  | cons bnd bnds ih =>
      unfold AnalyzerImpl.scoreBoundariesGbeam at h
      split at h
      next => cases h
      next st1 hst1 =>
        refine List.IsPrefix.trans ?_ (ih h)
        unfold AnalyzerImpl.scoreBoundaryGbeam at hst1
        split at hst1
        · cases hst1
          exact List.prefix_append _ _
        · split at hst1
          next => cases hst1
          next =>
            split at hst1
            next => cases hst1
            next =>
              cases hst1
              exact List.prefix_append _ _

theorem activePtrs_bos_of_prefix (h : a.bootstrapAnalysis <+: beams) :
    activePtrs beams ⟨1, 0⟩ = [bosPtr] := by
  obtain ⟨rows, hrows⟩ := h
  have hlt : (1 : Nat) < a.bootstrapAnalysis.length := Nat.one_lt_two
  rw [← hrows, activePtrs_append hlt]
  unfold activePtrs
  have hreal : ∀ e ∈ [(⟨bosPtr, 0⟩ : ConnectionBeamElement)], isFake e = false := by
    intro e he
    obtain rfl := List.mem_singleton.mp he
    rfl
  exact congrArg (List.map (·.ptr)) (activeBeam_append_fake (a.beamSize - 1) hreal)

/-- Nothing is added to the beam of BOS. -/
theorem activePtrs_bos {st : GbeamState} (h : a.computeScoresGbeam lat = some st) :
    activePtrs st.beams ⟨1, 0⟩ = [bosPtr] := by
  have hprefix : a.bootstrapAnalysis <+: st.beams := by
    unfold AnalyzerImpl.computeScoresGbeam at h
    split at h
    · cases h
      exact List.prefix_rfl
    · exact prefix_scoreBoundariesGbeam h
  exact activePtrs_bos_of_prefix hprefix

theorem fakeConnections_eq (hptrs : gbeam.ptrs = gbeam.cands.map fun el =>
      ⟨(lat.boundary (n + 2)).ends.getD el.left ⟨0, 0⟩, el.beam⟩) :
    fakeConnections lat beams gbeam = gbeam.cands.map fun cand =>
      fakeConnection (eosPtr lat) ((⟨(lat.boundary (n + 2)).ends.getD cand.left ⟨0, 0⟩,
        cand.beam⟩ : BeamAddr).deref beams) cand := by
  unfold fakeConnections
  rw [hptrs, List.zipWith_map_left, List.zipWith_self]
  rfl

theorem connects_of_mem_fakeConnections (hspans : Spans lat n)
    (hgbeam : GbeamInv lat beams (n + 2) gbeam) {path : ConnectionPtr}
    (hpath : path ∈ fakeConnections lat beams gbeam) :
    Connects lat n beams path ⟨n + 2, 0⟩ := by
  rw [fakeConnections_eq hgbeam.ptrs, List.mem_map] at hpath
  obtain ⟨cand, hcand, rfl⟩ := hpath
  obtain ⟨left, prev, hleft, hprev⟩ := hgbeam.live cand hcand
  have hcount := hspans.count
  refine ⟨by simp, by simp, ?_, by simp, left, prev, hleft, hprev, ?_⟩
  · unfold LatticeBoundary.localNodeCount
    rw [hspans.eos]
    exact Nat.one_pos
  · obtain ⟨e, he, -, hptr⟩ := getElem?_of_activePtrs hprev
    rw [List.getD_eq_getElem?_getD, hleft, Option.getD_some]
    unfold fakeConnection BeamAddr.deref eosPtr
    simp only [List.getD_eq_getElem?_getD, he, Option.getD_some, hptr, hcount]
    rfl

end Pass

/-- One path through two nodes. -/
def singlePath : ConnectionPtr :=
  .conn 3 0 0 0 (.conn 2 0 0 0 bosPtr)

def twoIds : RnnIdResolver where
  idOf ptr := if ptr = ⟨2, 1⟩ then 2 else 1

/-- The first character has three nodes, the first and the last of them with the same id. -/
def forkLattice : Lattice :=
  .ofBoundaries
    [⟨[⟨.BOS, 0, 0⟩], []⟩, ⟨[⟨.BOS, 0, 0⟩], [⟨0, 0⟩]⟩,
      ⟨[⟨0, 0, 1⟩, ⟨2, 0, 1⟩, ⟨4, 0, 1⟩], [⟨1, 0⟩]⟩,
      ⟨[⟨0, 1, 2⟩], [⟨2, 0⟩, ⟨2, 1⟩, ⟨2, 2⟩]⟩, ⟨[⟨.EOS, 2, 2⟩], [⟨3, 0⟩]⟩]
    (by decide) (by decide) (by decide) (by decide) (by decide) (by decide) (by decide)

def forkAnalyzer : AnalyzerImpl Unit :=
  { flatAnalyzer 3 (by decide) with globalBeamSize := 3 }

/-- The second character behind each of the nodes. -/
def forkPtr (i : Nat) : ConnectionPtr :=
  .conn 3 i 0 0 (.conn 2 0 i 0 bosPtr)

def forkPaths : List ConnectionPtr :=
  (List.range 3).map fun i => .conn 4 0 0 (2 - i) (forkPtr i)

end Jumanpp.Core.Analysis.Rnn
