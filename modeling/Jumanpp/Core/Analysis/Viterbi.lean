import Jumanpp.Core.Analysis.FullBeam

/-!
# The full pass as a `k`-best Viterbi search

With a scorer that looks at adjacent nodes only, the full pass leaves in the beam of every node the
`k` best paths to it, provided that the beams fit the `u16` counter of `makeBeams`.
-/

namespace Jumanpp.Core.Analysis

open Jumanpp.Lib

namespace AnalyzerImpl

variable {P : Type} (a : AnalyzerImpl P) (lat : Lattice)

/-- The real elements of every beam are the `k` best paths to the node, with their scores. -/
def KBestBeams (beams : Beams) : Prop :=
  ∀ ptr, lat.IsNode ptr →
    IsKBest a.beamSize a.pathScore (lat.pathSet ptr)
        ((activeBeam (beamAt beams ptr)).map (·.path ptr)) ∧
      ∀ e ∈ activeBeam (beamAt beams ptr), e.totalScore = a.pathScore (e.path ptr)

variable {a lat}

theorem kBestBeams_of_runInv {beams : Beams} (hexact : a.Exact lat)
    (hinv : a.RunInv lat lat.createdBoundaryCount beams) : a.KBestBeams lat beams := by
  intro ptr hptr
  have hone : 1 ≤ ptr.boundary := le_trans (by omega) hptr.1
  have hnode := hinv.node ptr hone hptr.2.1 hptr.2.2
  refine ⟨(hnode.best hexact).isKBest (lat.nodup_paths ptr hone) (fun path => ?_)
    (lat.ncard_pathSet ptr hptr.1), hnode.total hexact.toPlain⟩
  exact lat.mem_paths_iff ptr path hone fun h => by have := hptr.1; omega

end AnalyzerImpl

/-- The boundaries of an input of `n` characters with two nodes for each of them. -/
def twinBoundaries (n : Nat) : List LatticeBoundary :=
  let bos : NodeInfo := ⟨.BOS, 0, 0⟩
  [⟨[bos], []⟩, ⟨[bos], [⟨0, 0⟩]⟩] ++
    (List.range n).map (fun i => ⟨[⟨0, i, i + 1⟩, ⟨2, i, i + 1⟩],
      if i = 0 then [⟨1, 0⟩] else [⟨i + 1, 0⟩, ⟨i + 1, 1⟩]⟩) ++
    [⟨[⟨.EOS, n, n⟩], [⟨n + 1, 0⟩, ⟨n + 1, 1⟩]⟩]

/-- Sixteen characters: 2^16 paths lead to EOS. -/
def twinLattice : Lattice :=
  .ofBoundaries (twinBoundaries 16) (by decide) (by decide) (by decide) (by decide) (by decide)
    (by decide) (by decide)

theorem twinLattice_ends :
    ∀ i < 16, (twinLattice.boundary (i + 3)).ends = [⟨i + 2, 0⟩, ⟨i + 2, 1⟩] := by
  decide

theorem length_paths_twinLattice (i p : Nat) (hi : i ≤ 16) :
    (twinLattice.paths ⟨i + 2, p⟩).length = 2 ^ i := by
  induction i generalizing p with
  | zero =>
      rw [Lattice.paths_node _ _ (le_refl 2)]
      rfl
  | succ i ih =>
      rw [Lattice.paths_node _ _ (by simp only; omega), List.length_flatMap,
        twinLattice_ends i (by omega)]
      simp only [List.length_map, List.map_cons, List.map_nil, List.sum_cons, List.sum_nil]
      rw [ih 0 (by omega), ih 1 (by omega)]
      ring

/-- A scorer that finds all paths equally good. -/
def flatAnalyzer (beamSize : Nat) (beamSize_pos : 0 < beamSize) : AnalyzerImpl Unit where
  platform := { StdAlgorithm.insertion with overflowScore := fun score _ _ => score }
  patterns _ := ()
  scorer := ⟨fun _ => 0, fun _ _ => 0, fun _ _ _ => 0⟩
  plugin := none
  beamSize := beamSize
  beamSize_pos := beamSize_pos
  globalBeamSize := 0
  rightGbeamCheck := 0
  rightGbeamSize := 0

theorem beamSize_five_pos : 0 < 5 := by decide

theorem exact_flatAnalyzer (beamSize : Nat) (hpos : 0 < beamSize) :
    (flatAnalyzer beamSize hpos).Exact twinLattice where
  adjacent _ _ _ _ := rfl
  noPlugin := rfl
  ends_length b := by
    by_cases hb : b < 19
    · have hall : ∀ b < 19, (twinLattice.boundary b).ends.length < 2 ^ 15 := by decide
      exact hall b hb
    · have hlength : twinLattice.boundaries.length = 19 := by decide
      unfold Lattice.boundary boundaryAt
      rw [List.getD_eq_default _ _ (by omega)]
      decide

end Jumanpp.Core.Analysis
