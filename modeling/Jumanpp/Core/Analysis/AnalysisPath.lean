import Jumanpp.Core.Analysis.FullBeam
import Jumanpp.Core.Analysis.LatticeBuilder
import Mathlib.Data.List.TakeWhile

/-!
# The best path

`AnalysisPath::fillIn` follows the back pointers of the best EOS element.  On a lattice that the
builder has made, beams whose live connections lead to live connections give a tiling of the input.
-/

namespace Jumanpp.Core.Analysis

open Jumanpp.Lib

/-- The connections of the path from EOS to BOS, and the offsets of its boundaries. -/
structure AnalysisPath where
  elems : List ConnectionPtr
  offsets : List Nat
deriving DecidableEq

namespace AnalysisPath

def fillLoop (beams : Beams) : ConnectionPtr → Nat → AnalysisPath → Except Failure AnalysisPath
  | .null, _, _ => .error .undefined
  | .conn boundary _ right beam previous, myBeam, path =>
      if boundary > 2 then
        match (beamAt beams ⟨boundary, right⟩)[myBeam]? with
        | none => .error .undefined
        | some topItem =>
            let elems := path.elems ++ [topItem.ptr.previous]
            fillLoop beams previous beam ⟨elems, path.offsets ++ [elems.length]⟩
      else .ok path

def fillIn (lat : Lattice) (beams : Beams) : Except Failure AnalysisPath :=
  let bnds := lat.createdBoundaryCount
  -- the empty string
  if bnds = 3 then .ok ⟨[], []⟩
  else
    match (lat.boundary (bnds - 1)).nodeInfo with
    | [info] =>
        if info.entryPtr ≠ EntryPtr.EOS then .error (.status "last node was not EOS")
        else
          match (beamAt beams ⟨bnds - 1, 0⟩)[0]? with
          | none => .error .undefined
          | some top => fillLoop beams top.ptr 0 ⟨[], [0]⟩
    | _ => .error (.status "last boundary had more than one node!")

end AnalysisPath

/-- The nodes cover the text from one position to another without a gap or an overlap. -/
def Tiles : Nat → List NodeInfo → Nat → Prop
  | first, [], last => first = last
  | first, info :: infos, last =>
      info.start = first ∧ info.start < info.end_ ∧ Tiles info.end_ infos last

theorem tiles_append_singleton {first last : Nat} {infos : List NodeInfo} {info : NodeInfo} :
    Tiles first (infos ++ [info]) last ↔
      Tiles first infos info.start ∧ info.start < info.end_ ∧ info.end_ = last := by
  induction infos generalizing first with
  | nil =>
      simp only [List.nil_append, Tiles]
      exact and_congr_left fun _ => eq_comm
  | cons head infos ih =>
      simp only [List.cons_append, Tiles, ih, and_assoc]

/-- The nodes of the path, in the order of the text, tile the input of `n` code points, and the path
is one of the lattice. -/
structure AnalysisPath.TilesInput (lat : Lattice) (n : Nat) (path : AnalysisPath) : Prop where
  isPath : lat.IsPath (⟨n + 2, 0⟩ :: path.elems.map ConnectionPtr.latticeNodePtr ++
    [⟨1, 0⟩, ⟨0, 0⟩])
  tiles : ∃ infos, List.Forall₂ (fun ptr info =>
      (lat.boundary ptr.boundary).nodeInfo[ptr.right]? = some info) path.elems.reverse infos ∧
    Tiles 0 infos n

/-- The best EOS element is real and its path tiles the input. -/
structure TopOneTiles (lat : Lattice) (n : Nat) (beams : Beams) : Prop where
  real : ∃ e, (beamAt beams ⟨lat.createdBoundaryCount - 1, 0⟩)[0]? = some e ∧ isFake e = false
  path : ∃ path, AnalysisPath.fillIn lat beams = .ok path ∧ path.TilesInput lat n

/-- The connections of the real elements of a node. -/
def activePtrs (beams : Beams) (ptr : LatticeNodePtr) : List ConnectionPtr :=
  (activeBeam (beamAt beams ptr)).map (·.ptr)

/-- A connection of the node `ptr` continues the live connection `prev` of the node `left`. -/
structure Continues (lat : Lattice) (beams : Beams) (ptr : LatticeNodePtr) (conn : ConnectionPtr)
    (left : LatticeNodePtr) (prev : ConnectionPtr) : Prop where
  ends : (lat.boundary ptr.boundary).ends[conn.left]? = some left
  beam : (activePtrs beams left)[conn.beam]? = some prev
  eq : conn = .conn (u16 ptr.boundary) conn.left (u16 ptr.position) conn.beam prev

/-- In the first `n` boundaries every node that a path leads to has a live connection, and every
live connection continues a live one. -/
structure LiveInv (lat : Lattice) (n : Nat) (beams : Beams) : Prop where
  live : ∀ ptr, 1 ≤ ptr.boundary → ptr.boundary < n →
    ptr.position < (lat.boundary ptr.boundary).localNodeCount → lat.paths ptr ≠ [] →
      activePtrs beams ptr ≠ []
  continues : ∀ ptr, 2 ≤ ptr.boundary → ptr.boundary < n →
    ptr.position < (lat.boundary ptr.boundary).localNodeCount → ∀ conn ∈ activePtrs beams ptr,
      ∃ left prev, Continues lat beams ptr conn left prev

/-- What the builder promises of a lattice for `n` code points. -/
structure Spans (lat : Lattice) (n : Nat) : Prop where
  pos : 0 < n
  le_u16 : n + 1 < 2 ^ 16
  count : lat.createdBoundaryCount = n + 3
  eos : (lat.boundary (n + 2)).nodeInfo = [⟨EntryPtr.EOS, n, n⟩]
  info : ∀ b, 2 < b → b < n + 3 → ∀ ptr ∈ (lat.boundary b).ends, ∃ info,
    (lat.boundary ptr.boundary).nodeInfo[ptr.position]? = some info ∧
      info.start + 2 = ptr.boundary ∧ info.end_ + 2 = b ∧ info.start < info.end_
  paths : lat.paths ⟨n + 2, 0⟩ ≠ []

theorem LatticeBuilder.Prepared.spans {bld : LatticeBuilder} {n : Nat} (hbld : bld.Prepared n)
    {lat : Lattice} (hbuilt : bld.buildLattice n = .ok lat.boundaries) : Spans lat n where
  pos := hbld.pos
  le_u16 := hbld.max_u16
  count := length_of_buildLattice hbuilt
  eos := by
    unfold Lattice.boundary
    rw [(hbld.sized.boundaryAt_bnds hbuilt (by omega)).1]
    unfold nodeInfoAt
    rw [if_neg (by omega), if_neg (by omega)]
  info b htwo hb ptr hptr := by
    obtain ⟨hone, -⟩ | ⟨htwo', -⟩ | ⟨seed, i, hseed, hend, rfl⟩ :=
      (hbld.sized.mem_ends hbuilt hb).mp hptr
    · omega
    · omega
    · obtain ⟨-, hboundary, -, -, hinfo⟩ := hbld.sized.endPtr_spec hbuilt hseed
      have hstart := hbld.seeds seed (List.mem_of_getElem? hseed)
      exact ⟨_, hinfo, hboundary.symm, hend, hstart.1⟩
  paths := by
    have hreach : ∀ p, Reaches bld.seeds p → p ≤ n →
        ∃ left ∈ (lat.boundary (p + 2)).ends, lat.paths left ≠ [] := by
      intro p hp
      induction hp with
      | start =>
          intro _
          refine ⟨⟨1, 0⟩, (hbld.sized.mem_ends hbuilt (by omega)).mpr (Or.inr (Or.inl ⟨rfl, rfl⟩)), ?_⟩
          rw [lat.paths_bos ⟨1, 0⟩ rfl]
          exact List.cons_ne_nil _ _
      | @step s hs hstart ih =>
          intro hend
          obtain ⟨i, hi⟩ := List.mem_iff_getElem?.mp hs
          have hlt := hbld.seeds s hs
          obtain ⟨left, hleft, hpaths⟩ := ih (by omega)
          obtain ⟨htwo, hboundary, -⟩ := hbld.sized.endPtr_spec hbuilt hi
          refine ⟨bld.endPtr s i, (hbld.sized.mem_ends hbuilt (by omega)).mpr
            (Or.inr (Or.inr ⟨s, i, hi, rfl, rfl⟩)), ?_⟩
          rw [lat.paths_node _ htwo, hboundary]
          intro hnil
          rw [List.flatMap_eq_nil_iff] at hnil
          exact hpaths (List.map_eq_nil_iff.mp (hnil left hleft))
    obtain ⟨left, hleft, hpaths⟩ := hreach n hbld.connected (le_refl n)
    rw [lat.paths_node ⟨n + 2, 0⟩ (by simp)]
    intro hnil
    rw [List.flatMap_eq_nil_iff] at hnil
    exact hpaths (List.map_eq_nil_iff.mp (hnil left hleft))

section FillIn

variable {lat : Lattice} {n : Nat} {beams : Beams} (hspans : Spans lat n)
  (hinv : LiveInv lat (n + 3) beams)

theorem getElem?_of_activePtrs {ptr : LatticeNodePtr} {i : Nat} {conn : ConnectionPtr}
    (h : (activePtrs beams ptr)[i]? = some conn) :
    ∃ e, (beamAt beams ptr)[i]? = some e ∧ isFake e = false ∧ e.ptr = conn := by
  unfold activePtrs at h
  rw [List.getElem?_map, Option.map_eq_some_iff] at h
  obtain ⟨e, he, rfl⟩ := h
  have hreal := List.mem_takeWhile_imp (List.mem_of_getElem? he)
  rw [Bool.not_eq_true'] at hreal
  have hprefix : activeBeam (beamAt beams ptr) <+: beamAt beams ptr := List.takeWhile_prefix _
  obtain ⟨hi, heq⟩ := List.getElem?_eq_some_iff.mp he
  rw [← heq] at hreal ⊢
  exact ⟨_, List.prefix_iff_getElem?.mp hprefix i hi, hreal, rfl⟩

include hspans hinv

/-- The loop from a live connection: by induction on the boundary of its node. -/
theorem fillLoop_tiles {ptr : LatticeNodePtr} {i : Nat} {conn : ConnectionPtr}
    (htwo : 2 ≤ ptr.boundary) (hlt : ptr.boundary < n + 3) (h16 : ptr.boundary < 2 ^ 16)
    (hposition : ptr.position < (lat.boundary ptr.boundary).localNodeCount)
    (hposition16 : ptr.position < 2 ^ 16) (hconn : (activePtrs beams ptr)[i]? = some conn)
    (path : AnalysisPath) :
    ∃ elems offsets infos,
      AnalysisPath.fillLoop beams conn i path = .ok ⟨path.elems ++ elems, offsets⟩ ∧
      lat.IsPath (ptr :: elems.map ConnectionPtr.latticeNodePtr ++ [⟨1, 0⟩, ⟨0, 0⟩]) ∧
      List.Forall₂ (fun ptr info =>
        (lat.boundary ptr.boundary).nodeInfo[ptr.right]? = some info) elems.reverse infos ∧
      Tiles 0 infos (ptr.boundary - 2) := by
  induction hb : ptr.boundary using Nat.strong_induction_on generalizing ptr i conn path with
  | h b ih =>
      subst hb
      obtain ⟨left, prev, hleft, hprev, heq⟩ :=
        hinv.continues ptr htwo hlt hposition conn (List.mem_of_getElem? hconn)
      have hmem := List.mem_of_getElem? hleft
      rw [u16_of_lt h16, u16_of_lt hposition16] at heq
      rw [heq]
      unfold AnalysisPath.fillLoop
      by_cases hfirst : ptr.boundary = 2
      · -- only BOS is left
        rw [if_neg (by omega)]
        have hbos : (⟨1, 0⟩ : LatticeNodePtr) ∈ (lat.boundary ptr.boundary).ends := by
          rw [hfirst]
          unfold Lattice.boundary
          rw [lat.firstEnds]
          exact List.mem_singleton.mpr rfl
        refine ⟨[], path.offsets, [], by rw [List.append_nil], ?_, .nil, ?_⟩
        · exact .step htwo hbos .bos
        · rw [hfirst]
          rfl
      · obtain ⟨topItem, hrow, -, htop⟩ := getElem?_of_activePtrs hconn
        obtain ⟨info, hinfo, hstart, hend, hne⟩ := hspans.info ptr.boundary (by omega) hlt left hmem
        have hback := lat.ends_back ptr.boundary htwo left hmem
        have hvalid := lat.ends_valid ptr.boundary htwo left hmem
        have hu16 := lat.ends_u16 ptr.boundary htwo left hmem
        have hprevious : topItem.ptr.previous = prev := by
          rw [htop, heq]
          rfl
        rw [if_pos (by omega), hrow]
        simp only [hprevious]
        obtain ⟨elems, offsets, infos, hloop, hpath, hinfos, htiles⟩ :=
          ih left.boundary hback.2 (by omega) (by omega) hu16.1 hvalid hu16.2 hprev
            ⟨path.elems ++ [prev], path.offsets ++ [(path.elems ++ [prev]).length]⟩ rfl
        -- the previous connection is one of the left node
        obtain ⟨left', prev', -, -, hprevEq⟩ := hinv.continues left (by omega) (by omega) hvalid
          prev (List.mem_of_getElem? hprev)
        have hnode : prev.boundary = left.boundary ∧ prev.right = left.position := by
          rw [hprevEq, u16_of_lt hu16.1, u16_of_lt hu16.2]
          exact ⟨rfl, rfl⟩
        have hptr : prev.latticeNodePtr = left := by
          unfold ConnectionPtr.latticeNodePtr
          rw [hnode.1, hnode.2]
        refine ⟨prev :: elems, offsets, infos ++ [info], ?_, ?_, ?_, ?_⟩
        · rw [hloop, List.append_assoc]
          rfl
        · rw [List.map_cons, hptr]
          exact .step htwo hmem hpath
        · rw [List.reverse_cons]
          refine List.rel_append hinfos (.cons ?_ .nil)
          rw [hnode.1, hnode.2]
          exact hinfo
        · rw [tiles_append_singleton]
          have hstart' : info.start = left.boundary - 2 := by omega
          rw [hstart']
          exact ⟨htiles, by omega, by omega⟩

/-- The number of EOS has to fit the boundary of a connection. -/
theorem topOneTiles_iff : TopOneTiles lat n beams ↔ n + 2 < 2 ^ 16 := by
  have hpos := hspans.pos
  have hcount := hspans.count
  have hle := hspans.le_u16
  have heosNode : (lat.boundary (n + 2)).localNodeCount = 1 := by
    unfold LatticeBoundary.localNodeCount
    rw [hspans.eos]
    rfl
  have hlive := hinv.live ⟨n + 2, 0⟩ (by simp) (by simp) (by rw [heosNode]; exact Nat.one_pos)
    hspans.paths
  obtain ⟨conn, conns, hconns⟩ := List.exists_cons_of_ne_nil hlive
  have hconn : (activePtrs beams ⟨n + 2, 0⟩)[0]? = some conn := by rw [hconns]; rfl
  obtain ⟨top, htop, hreal, hptr⟩ := getElem?_of_activePtrs hconn
  have hfill : AnalysisPath.fillIn lat beams =
      AnalysisPath.fillLoop beams conn 0 ⟨[], [0]⟩ := by
    unfold AnalysisPath.fillIn
    simp only [hcount]
    rw [if_neg (by omega), show n + 3 - 1 = n + 2 by omega, hspans.eos]
    simp only [ne_eq, not_true_eq_false, ↓reduceIte]
    rw [htop]
    simp only [hptr]
  constructor
  · intro h
    by_contra hge
    have hn : n + 2 = 2 ^ 16 := by omega
    obtain ⟨path, hpath, htiles⟩ := h.path
    -- the connection of EOS carries the boundary 0, where the loop stops at once
    obtain ⟨left, prev, -, -, heq⟩ := hinv.continues ⟨n + 2, 0⟩ (by simp) (by simp)
      (by rw [heosNode]; exact Nat.one_pos) conn (List.mem_of_getElem? hconn)
    have hzero : u16 (n + 2) = 0 := by rw [hn]; rfl
    rw [hfill, heq] at hpath
    unfold AnalysisPath.fillLoop at hpath
    rw [hzero, if_neg (by omega)] at hpath
    cases hpath
    obtain ⟨infos, hforall, hall⟩ := htiles.tiles
    cases hforall
    have : 0 = n := hall
    omega
  · intro hlt
    obtain ⟨elems, offsets, infos, hloop, hpath, hinfos, htiles⟩ :=
      fillLoop_tiles hspans hinv (by simp) (by simp) hlt
        (by rw [heosNode]; exact Nat.one_pos) (Nat.two_pow_pos 16) hconn ⟨[], [0]⟩
    refine ⟨⟨top, ?_, hreal⟩, ⟨elems, offsets⟩, ?_, hpath, infos, hinfos, htiles⟩
    · rw [hcount]
      exact htop
    · rw [hfill, hloop]
      rfl

end FillIn

/-- The full pass keeps the live connections linked. -/
theorem AnalyzerImpl.RunInv.liveInv {P : Type} {a : AnalyzerImpl P} {lat : Lattice} {n : Nat}
    {beams : Beams} (hinv : a.RunInv lat n beams) : LiveInv lat n beams where
  live ptr hptr hlt hposition hpaths hnil := by
    have hlength := (hinv.node ptr hptr hlt hposition).length_eq
    have hbeam := a.beamSize_pos
    have hpos := List.length_pos_iff.mpr hpaths
    rw [List.map_eq_nil_iff.mp hnil, List.length_nil] at hlength
    omega
  continues ptr hptr hlt hposition conn hconn := by
    obtain ⟨e, he, rfl⟩ := List.mem_map.mp hconn
    obtain ⟨left, prev, hlinked⟩ :=
      (hinv.node ptr (by omega) hlt hposition).linked hptr e he
    refine ⟨left, prev.ptr, hlinked.ends, ?_, hlinked.ptr_eq⟩
    unfold activePtrs
    rw [List.getElem?_map, hlinked.beam]
    rfl

end Jumanpp.Core.Analysis
