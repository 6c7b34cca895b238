import Mathlib
import Jumanpp.Core.Analysis.GbeamEquivalence
import Jumanpp.Core.Analysis.GbeamLive
import Jumanpp.Core.Analysis.ScoreBuffers

/-!
# The indices of the global-beam pass

Every index that the pass uses to reach a buffer of the score processor, in the order of the code.  The
pass stays within its buffers as long as no boundary fills the global beam beyond the configured size.
-/

namespace Jumanpp.Core.Analysis

open Jumanpp.Lib Jumanpp.Util

inductive BufferAccess
  | globalBeam (idx : Nat)
  | t1positions (idx : Nat)
  | t1patBuf (row col : Nat)
  | t2patBuf (row col : Nat)
  | gbeamScoreBuf (idx : Nat)
  | beamIdxBuffer (idx : Nat)
  | t0prescores (row col : Nat)
  | t0cutoffBuffer (idx : Nat)
  | t0cutoffIdxBuffer (idx : Nat)
  /-- `partition` leaves its range when it is called with `minSize > maxSize`. -/
  | pastEnd

def BufferAccess.InBounds (bufs : ScoreBuffers) : BufferAccess → Prop
  | .globalBeam idx => idx < bufs.globalBeam
  | .t1positions idx => idx < bufs.t1positions
  | .t1patBuf row col => row < bufs.t1patBuf.1 ∧ col < bufs.t1patBuf.2
  | .t2patBuf row col => row < bufs.t2patBuf.1 ∧ col < bufs.t2patBuf.2
  | .gbeamScoreBuf idx => idx < bufs.gbeamScoreBuf
  | .beamIdxBuffer idx => idx < bufs.beamIdxBuffer
  | .t0prescores row col => row < bufs.t0prescores.1 ∧ col < bufs.t0prescores.2
  | .t0cutoffBuffer idx => idx < bufs.t0cutoffBuffer
  | .t0cutoffIdxBuffer idx => idx < bufs.t0cutoffIdxBuffer
  | .pastEnd => False

def AllInBounds (bufs : ScoreBuffers) (accesses : List BufferAccess) : Prop :=
  ∀ acc ∈ accesses, acc.InBounds bufs

section AllInBounds

variable {bufs : ScoreBuffers}

@[simp] theorem allInBounds_nil : AllInBounds bufs [] :=
  fun _ hacc => by cases hacc

@[simp] theorem allInBounds_cons {acc : BufferAccess} {accesses : List BufferAccess} :
    AllInBounds bufs (acc :: accesses) ↔ acc.InBounds bufs ∧ AllInBounds bufs accesses :=
  List.forall_mem_cons

@[simp] theorem allInBounds_append {accesses rest : List BufferAccess} :
    AllInBounds bufs (accesses ++ rest) ↔ AllInBounds bufs accesses ∧ AllInBounds bufs rest :=
  List.forall_mem_append

@[simp] theorem allInBounds_flatMap {α : Type} {l : List α} {f : α → List BufferAccess} :
    AllInBounds bufs (l.flatMap f) ↔ ∀ x ∈ l, AllInBounds bufs (f x) :=
  List.forall_mem_flatMap

@[simp] theorem allInBounds_map {α : Type} {l : List α} {f : α → BufferAccess} :
    AllInBounds bufs (l.map f) ↔ ∀ x ∈ l, (f x).InBounds bufs :=
  List.forall_mem_map

end AllInBounds

/-- `maxBeam * 4 / 3`, the product one of `u32`. -/
def partitionBoundary (maxBeam : Nat) : Nat := maxBeam * 4 % 2 ^ 32 / 3

/-- `makeT0Beam` does not call `partition`, or calls it with `minSize ≤ maxSize`. -/
def PartitionFits (maxBeam size : Nat) : Prop :=
  size ≤ partitionBoundary maxBeam ∨ maxBeam ≤ partitionBoundary maxBeam

instance (maxBeam size : Nat) : Decidable (PartitionFits maxBeam size) :=
  inferInstanceAs (Decidable (_ ∨ _))

theorem PartitionFits.mono {maxBeam size size' : Nat} (h : PartitionFits maxBeam size')
    (hle : size ≤ size') : PartitionFits maxBeam size :=
  h.imp hle.trans id

def makeT0BeamAccesses (maxBeam size : Nat) : List BufferAccess :=
  (List.range size).map .beamIdxBuffer ++ (List.range size).map .gbeamScoreBuf ++
    if PartitionFits maxBeam size then [] else [.pastEnd]

namespace AnalyzerImpl

variable {P : Type} (a : AnalyzerImpl P) (patterns : Nat)

def makeGlobalBeamAccesses (bnd : LatticeBoundary) (beams : Beams) : List BufferAccess :=
  (List.range (liveCandidates bnd beams)).map .globalBeam

/-- `dedupT1`, `gatherT1` and `gatherT2`. -/
def gatherAccesses (bnd : LatticeBoundary) (gbeam : GlobalBeam) : List BufferAccess :=
  let size := gbeam.cands.length
  (List.range size).map .t1positions ++
    (dedupT1 bnd.ends gbeam.cands []).2.flatMap (fun (_, row) =>
      (List.range patterns).map (.t1patBuf row)) ++
    (List.range size).flatMap fun i => (List.range patterns).map (.t2patBuf i)

variable (ctx : GbeamContext P)

/-- The patterns for the `i`-th element of the global beam. -/
def elementAccesses (i : Nat) : List BufferAccess :=
  .t1positions i :: (List.range patterns).map (.t1patBuf (ctx.t1Ptrs.getD i 0)) ++
    (List.range patterns).map (.t2patBuf i)

def computeT0PrescoresAccesses : List BufferAccess :=
  (List.range (min a.rightGbeamCheck ctx.gbeam.cands.length)).flatMap fun i =>
    elementAccesses patterns ctx i ++ (List.range ctx.nodes).map (.t0prescores i)

def applyPluginToPrescoresAccesses : List BufferAccess :=
  if a.plugin.isSome then
    (List.range (a.fullBeamApplySize ctx)).flatMap fun t1i =>
      (List.range ctx.nodes).map (.t0prescores t1i)
  else []

def makeT0cutoffBeamAccesses (rightBeam : Nat) : List BufferAccess :=
  (List.range ctx.nodes).map .t0cutoffIdxBuffer ++
    if ctx.nodes ≤ rightBeam then []
    else (List.range ctx.nodes).flatMap fun i =>
      .t0cutoffBuffer i :: (List.range (a.fullBeamApplySize ctx)).map fun j => .t0prescores j i

/-- A turn of the branch without the right check. -/
def scoreT0Accesses : List BufferAccess :=
  let size := ctx.gbeam.cands.length
  (List.range size).flatMap (fun i => elementAccesses patterns ctx i ++ [.gbeamScoreBuf i]) ++
    makeT0BeamAccesses a.beamSize size

def scoreT0CheckedAccesses (toKeep t0pos t0idx : Nat) : List BufferAccess :=
  let size := ctx.gbeam.cands.length
  let full := a.fullBeamApplySize ctx
  .t0cutoffIdxBuffer t0pos ::
    (List.range full).flatMap (fun i => [.t0prescores i t0idx, .gbeamScoreBuf i]) ++
    if t0pos < toKeep then
      ((List.range size).drop full).flatMap (fun i =>
        elementAccesses patterns ctx i ++ [.gbeamScoreBuf i]) ++
        makeT0BeamAccesses a.beamSize size
    else makeT0BeamAccesses a.beamSize full

def computeGbeamScoresAccesses : List BufferAccess :=
  if 0 < a.rightGbeamCheck then
    let toKeep := min a.rightGbeamSize ctx.nodes
    a.computeT0PrescoresAccesses patterns ctx ++ a.applyPluginToPrescoresAccesses ctx ++
      a.makeT0cutoffBeamAccesses ctx toKeep ++
      (a.t0Order ctx).zipIdx.flatMap fun (t0idx, t0pos) =>
        a.scoreT0CheckedAccesses patterns ctx toKeep t0pos t0idx
  else (List.range ctx.nodes).flatMap fun _ => a.scoreT0Accesses patterns ctx

/-- One turn of the loop over the boundaries. -/
def boundaryAccesses (bnd : LatticeBoundary) (st : GbeamState) : List BufferAccess :=
  if bnd.localNodeCount = 0 then []
  else makeGlobalBeamAccesses bnd st.beams ++
    match a.makeGlobalBeam bnd.ends st.beams a.globalBeamSize with
    | none => []
    | some gbeam =>
        gatherAccesses patterns bnd gbeam ++
          a.computeGbeamScoresAccesses patterns (a.gbeamContext st.beams.length bnd st.beams gbeam)

/-- The boundaries that are scored, each with the state before it. -/
def visits : List LatticeBoundary → GbeamState → List (LatticeBoundary × GbeamState)
  | [], _ => []
  | bnd :: bnds, st =>
      (bnd, st) ::
        match a.scoreBoundaryGbeam bnd st with
        | none => []
        | some st => visits bnds st

/-- The EOS beam is made again from the global beam that is still in the buffer. -/
def remakeEosBeamAccesses (bnd : LatticeBoundary) (st : GbeamState) : List BufferAccess :=
  match a.makeGlobalBeam bnd.ends st.beams a.globalBeamSize with
  | none => []
  | some gbeam =>
      (List.range gbeam.cands.length).flatMap (fun i => [.globalBeam i, .gbeamScoreBuf i]) ++
        makeT0BeamAccesses a.beamSize gbeam.cands.length

def latticeVisits (lat : Lattice) : List (LatticeBoundary × GbeamState) :=
  a.visits (lat.boundaries.drop 2) a.bootstrapState

/-- All of `computeScoresGbeam`; the last boundary is that of EOS. -/
def passAccesses (lat : Lattice) (others : Bool) : List BufferAccess :=
  (a.latticeVisits lat).flatMap (fun v => a.boundaryAccesses patterns v.1 v.2) ++
    match others, (a.latticeVisits lat).getLast? with
    | true, some v => a.remakeEosBeamAccesses v.1 v.2
    | _, _ => []

/-- Room for the tables of a boundary. -/
structure Room (bufs : ScoreBuffers) : Prop where
  t1positions : ctx.gbeam.cands.length ≤ bufs.t1positions
  t1rows : ∀ i, i < ctx.gbeam.cands.length → ctx.t1Ptrs.getD i 0 < bufs.t1patBuf.1
  t1patterns : patterns ≤ bufs.t1patBuf.2
  t2rows : ctx.gbeam.cands.length ≤ bufs.t2patBuf.1
  t2patterns : patterns ≤ bufs.t2patBuf.2
  scores : ctx.gbeam.cands.length ≤ bufs.gbeamScoreBuf
  order : ctx.gbeam.cands.length ≤ bufs.beamIdxBuffer
  prescores : a.rightGbeamCheck ≤ bufs.t0prescores.1
  nodes : 0 < a.rightGbeamCheck → ctx.nodes ≤ bufs.t0prescores.2
  cutoff : 0 < a.rightGbeamCheck → ctx.nodes ≤ bufs.t0cutoffBuffer
  cutoffOrder : 0 < a.rightGbeamCheck → ctx.nodes ≤ bufs.t0cutoffIdxBuffer

theorem fullBeamApplySize_le : a.fullBeamApplySize ctx ≤ ctx.gbeam.cands.length :=
  min_le_right _ _

theorem fullBeamApplySize_le_check : a.fullBeamApplySize ctx ≤ a.rightGbeamCheck :=
  (min_le_left _ _).trans (min_le_left _ _)

namespace Room

variable {a patterns ctx} {bufs : ScoreBuffers} (h : a.Room patterns ctx bufs)

include h

theorem elementAccesses {i : Nat} (hi : i < ctx.gbeam.cands.length) :
    AllInBounds bufs (elementAccesses patterns ctx i) := by
  unfold AnalyzerImpl.elementAccesses
  rw [List.cons_append, allInBounds_cons, allInBounds_append, allInBounds_map, allInBounds_map]
  refine ⟨hi.trans_le h.t1positions, ?_, ?_⟩
  · intro col hcol
    exact ⟨h.t1rows i hi, (List.mem_range.mp hcol).trans_le h.t1patterns⟩
  · intro col hcol
    exact ⟨hi.trans_le h.t2rows, (List.mem_range.mp hcol).trans_le h.t2patterns⟩

theorem makeT0BeamAccesses {maxBeam size : Nat} (hsize : size ≤ ctx.gbeam.cands.length)
    (hfits : PartitionFits maxBeam size) : AllInBounds bufs (makeT0BeamAccesses maxBeam size) := by
  unfold Analysis.makeT0BeamAccesses
  rw [if_pos hfits, List.append_nil, allInBounds_append, allInBounds_map, allInBounds_map]
  constructor
  · intro i hi
    exact (List.mem_range.mp hi).trans_le (hsize.trans h.order)
  · intro i hi
    exact (List.mem_range.mp hi).trans_le (hsize.trans h.scores)

theorem computeT0PrescoresAccesses (hcheck : 0 < a.rightGbeamCheck) :
    AllInBounds bufs (a.computeT0PrescoresAccesses patterns ctx) := by
  unfold AnalyzerImpl.computeT0PrescoresAccesses
  rw [allInBounds_flatMap]
  intro i hi
  obtain ⟨hrow, helement⟩ := lt_min_iff.mp (List.mem_range.mp hi)
  rw [allInBounds_append, allInBounds_map]
  refine ⟨h.elementAccesses helement, ?_⟩
  intro t0 ht0
  exact ⟨hrow.trans_le h.prescores, (List.mem_range.mp ht0).trans_le (h.nodes hcheck)⟩

theorem prescoreAccess (hcheck : 0 < a.rightGbeamCheck) {i t0 : Nat}
    (hi : i < a.fullBeamApplySize ctx) (ht0 : t0 < ctx.nodes) :
    (BufferAccess.t0prescores i t0).InBounds bufs :=
  ⟨hi.trans_le ((a.fullBeamApplySize_le_check ctx).trans h.prescores), ht0.trans_le (h.nodes hcheck)⟩

theorem applyPluginToPrescoresAccesses (hcheck : 0 < a.rightGbeamCheck) :
    AllInBounds bufs (a.applyPluginToPrescoresAccesses ctx) := by
  unfold AnalyzerImpl.applyPluginToPrescoresAccesses
  split_ifs
  · rw [allInBounds_flatMap]
    intro i hi
    rw [allInBounds_map]
    intro t0 ht0
    exact h.prescoreAccess hcheck (List.mem_range.mp hi) (List.mem_range.mp ht0)
  · exact allInBounds_nil

theorem makeT0cutoffBeamAccesses (hcheck : 0 < a.rightGbeamCheck) (rightBeam : Nat) :
    AllInBounds bufs (a.makeT0cutoffBeamAccesses ctx rightBeam) := by
  unfold AnalyzerImpl.makeT0cutoffBeamAccesses
  rw [allInBounds_append, allInBounds_map]
  constructor
  · intro i hi
    exact (List.mem_range.mp hi).trans_le (h.cutoffOrder hcheck)
  · split_ifs
    · exact allInBounds_nil
    · rw [allInBounds_flatMap]
      intro i hi
      rw [allInBounds_cons, allInBounds_map]
      refine ⟨(List.mem_range.mp hi).trans_le (h.cutoff hcheck), ?_⟩
      intro j hj
      exact h.prescoreAccess hcheck (List.mem_range.mp hj) (List.mem_range.mp hi)

theorem scoreT0Accesses (hfits : PartitionFits a.beamSize ctx.gbeam.cands.length) :
    AllInBounds bufs (a.scoreT0Accesses patterns ctx) := by
  unfold AnalyzerImpl.scoreT0Accesses
  rw [allInBounds_append, allInBounds_flatMap]
  refine ⟨?_, h.makeT0BeamAccesses le_rfl hfits⟩
  intro i hi
  have hlt := List.mem_range.mp hi
  rw [allInBounds_append, allInBounds_cons]
  exact ⟨h.elementAccesses hlt, hlt.trans_le h.scores, allInBounds_nil⟩

theorem scoreT0CheckedAccesses (hcheck : 0 < a.rightGbeamCheck)
    (hfits : PartitionFits a.beamSize ctx.gbeam.cands.length) {toKeep t0pos t0idx : Nat}
    (hpos : t0pos < ctx.nodes) (hidx : t0idx < ctx.nodes) :
    AllInBounds bufs (a.scoreT0CheckedAccesses patterns ctx toKeep t0pos t0idx) := by
  have hfull := a.fullBeamApplySize_le ctx
  unfold AnalyzerImpl.scoreT0CheckedAccesses
  rw [allInBounds_append, allInBounds_cons, allInBounds_flatMap]
  refine ⟨⟨hpos.trans_le (h.cutoffOrder hcheck), ?_⟩, ?_⟩
  · intro i hi
    have hlt := List.mem_range.mp hi
    rw [allInBounds_cons, allInBounds_cons]
    exact ⟨h.prescoreAccess hcheck hlt hidx, (hlt.trans_le hfull).trans_le h.scores, allInBounds_nil⟩
  · split_ifs
    · rw [allInBounds_append, allInBounds_flatMap]
      refine ⟨?_, h.makeT0BeamAccesses le_rfl hfits⟩
      intro i hi
      have hlt := List.mem_range.mp (List.mem_of_mem_drop hi)
      rw [allInBounds_append, allInBounds_cons]
      exact ⟨h.elementAccesses hlt, hlt.trans_le h.scores, allInBounds_nil⟩
    · exact h.makeT0BeamAccesses hfull (hfits.mono hfull)

theorem computeGbeamScoresAccesses (hfits : PartitionFits a.beamSize ctx.gbeam.cands.length) :
    AllInBounds bufs (a.computeGbeamScoresAccesses patterns ctx) := by
  unfold AnalyzerImpl.computeGbeamScoresAccesses
  split_ifs with hcheck
  · rw [allInBounds_append, allInBounds_append, allInBounds_append, allInBounds_flatMap]
    refine ⟨⟨⟨h.computeT0PrescoresAccesses hcheck, h.applyPluginToPrescoresAccesses hcheck⟩,
      h.makeT0cutoffBeamAccesses hcheck _⟩, ?_⟩
    intro t0 ht0
    have hpos := (List.mem_zipIdx' ht0).1
    have hmem := List.fst_mem_of_mem_zipIdx ht0
    rw [(a.t0Order_perm ctx).length_eq, List.length_range] at hpos
    rw [(a.t0Order_perm ctx).mem_iff, List.mem_range] at hmem
    exact h.scoreT0CheckedAccesses hcheck hfits hpos hmem
  · rw [allInBounds_flatMap]
    intro _ _
    exact h.scoreT0Accesses hfits

end Room

omit patterns ctx in
theorem length_gbeamCandidates (bnd : LatticeBoundary) (beams : Beams) :
    (a.gbeamCandidates bnd.ends beams).length = liveCandidates bnd beams := by
  unfold gbeamCandidates liveCandidates
  rw [List.length_flatMap]
  simp only [List.length_map, List.length_zipIdx]
  rw [map_zipIdx_fst fun t1 => (activeBeam (beamAt beams t1)).length]

theorem left_lt_of_mem_gbeamCandidates {ends : List LatticeNodePtr} {beams : Beams}
    {cand : BeamCandidate} (hcand : cand ∈ a.gbeamCandidates ends beams) : cand.left < ends.length := by
  unfold gbeamCandidates at hcand
  simp only [List.mem_flatMap, List.mem_map, Prod.exists] at hcand
  obtain ⟨_, left, hleft, _, _, -, rfl⟩ := hcand
  exact (List.mem_zipIdx' hleft).1

/-- The global beam has as many elements as are live, up to the size of the beam. -/
theorem exists_makeGlobalBeam (hsize : 0 < a.globalBeamSize) (bnd : LatticeBoundary) (beams : Beams) :
    ∃ gbeam, a.makeGlobalBeam bnd.ends beams a.globalBeamSize = some gbeam ∧
      gbeam.cands.length = min a.globalBeamSize (liveCandidates bnd beams) ∧
      ∀ cand ∈ gbeam.cands, cand.left < bnd.ends.length := by
  obtain ⟨res, hres, htop⟩ :=
    a.processBeamCandidates_spec (a.gbeamCandidates bnd.ends beams) a.globalBeamSize hsize
  unfold makeGlobalBeam
  rw [hres]
  refine ⟨_, rfl, ?_, ?_⟩
  · rw [← a.length_gbeamCandidates]
    exact htop.length_eq
  · intro cand hcand
    exact a.left_lt_of_mem_gbeamCandidates (htop.subset hcand)

section Dedup

/-- The keys of the map are left nodes, each of them once. -/
structure KeysIn (ends : List LatticeNodePtr) (map : T1Map) : Prop where
  nodup : (map.map Prod.fst).Nodup
  subset : map.map Prod.fst ⊆ ends

theorem keysIn_findOrInsert {ends : List LatticeNodePtr} {map : T1Map} (h : KeysIn ends map)
    {ptr : LatticeNodePtr} (hptr : ptr ∈ ends) : KeysIn ends (map.findOrInsert ptr).2 := by
  unfold T1Map.findOrInsert
  cases hfind : map.find? (·.1 == ptr) with
  | some entry => exact h
  | none =>
      rw [List.find?_eq_none] at hfind
      have hnew : ptr ∉ map.map Prod.fst := by
        intro hmem
        obtain ⟨entry, hentry, heq⟩ := List.mem_map.mp hmem
        apply hfind entry hentry
        rw [heq, beq_self_eq_true]
      constructor
      · rw [List.map_append, List.nodup_append]
        refine ⟨h.nodup, List.nodup_singleton _, ?_⟩
        intro x hx y hy heq
        rw [List.map_singleton, List.mem_singleton] at hy
        rw [heq, hy] at hx
        exact hnew hx
      · intro x hx
        rw [List.map_append, List.mem_append, List.map_singleton, List.mem_singleton] at hx
        rcases hx with hx | rfl
        · exact h.subset hx
        · exact hptr

theorem keysIn_dedupT1 {ends : List LatticeNodePtr} {gbeam : List BeamCandidate}
    (hgbeam : ∀ cand ∈ gbeam, cand.left < ends.length) {map : T1Map} (h : KeysIn ends map) :
    KeysIn ends (dedupT1 ends gbeam map).2 := by
  induction gbeam generalizing map with
  | nil => exact h
  | cons cand gbeam ih =>
      obtain ⟨hcand, hrest⟩ := List.forall_mem_cons.mp hgbeam
      have hptr : ends.getD cand.left ⟨0, 0⟩ ∈ ends := by
        rw [List.getD_eq_getElem _ _ hcand]
        exact List.getElem_mem hcand
      exact ih hrest (keysIn_findOrInsert h hptr)

theorem length_dedupT1_le {ends : List LatticeNodePtr} {gbeam : List BeamCandidate}
    (hgbeam : ∀ cand ∈ gbeam, cand.left < ends.length) :
    (dedupT1 ends gbeam []).2.length ≤ ends.length := by
  have hkeys : KeysIn ends (dedupT1 ends gbeam []).2 :=
    keysIn_dedupT1 hgbeam ⟨List.nodup_nil, List.nil_subset _⟩
  have hlength := (hkeys.nodup.subperm hkeys.subset).length_le
  rwa [List.length_map] at hlength

/-- Every row that is looked up is a row of the table. -/
theorem t1Ptrs_lt {ends : List LatticeNodePtr} {gbeam : List BeamCandidate} {i : Nat}
    (hi : i < gbeam.length) :
    (dedupT1 ends gbeam []).1.getD i 0 < (dedupT1 ends gbeam []).2.length := by
  obtain ⟨horder, -, hforall⟩ := dedupT1_spec ends gbeam [] rfl
  have hlt : i < (dedupT1 ends gbeam []).1.length := hforall.length_eq ▸ hi
  rw [List.getD_eq_getElem _ _ hlt]
  have hmem := (List.forall₂_iff_get.mp hforall).2 i hi hlt
  have hrow := List.mem_map_of_mem (f := Prod.snd) hmem
  unfold T1Map.InOrder at horder
  rw [horder, List.mem_range] at hrow
  exact hrow

end Dedup

end AnalyzerImpl

theorem le_of_forall_range {n m : Nat} (h : ∀ i ∈ List.range n, i < m) : n ≤ m := by
  by_contra hlt
  exact Nat.lt_irrefl m (h m (List.mem_range.mpr (Nat.not_le.mp hlt)))

theorem partitionFits_of_allInBounds {bufs : ScoreBuffers} {maxBeam size : Nat}
    (h : AllInBounds bufs (makeT0BeamAccesses maxBeam size)) : PartitionFits maxBeam size := by
  unfold makeT0BeamAccesses at h
  rw [allInBounds_append] at h
  by_contra hfits
  rw [if_neg hfits, allInBounds_cons] at h
  exact h.2.1

namespace AnalyzerImpl

variable {P : Type} (a : AnalyzerImpl P) (hsize : 0 < a.globalBeamSize)

include hsize

theorem exists_scoreBoundaryGbeam (bnd : LatticeBoundary) (st : GbeamState) :
    ∃ st', a.scoreBoundaryGbeam bnd st = some st' := by
  unfold scoreBoundaryGbeam
  split_ifs
  · exact ⟨_, rfl⟩
  · obtain ⟨gbeam, hgbeam, -⟩ := a.exists_makeGlobalBeam hsize bnd st.beams
    obtain ⟨res, hres, -⟩ :=
      a.computeGbeamScores_spec (a.gbeamContext st.beams.length bnd st.beams gbeam)
    rw [hgbeam]
    simp only [hres]
    exact ⟨_, rfl⟩

theorem map_fst_visits (bnds : List LatticeBoundary) (st : GbeamState) :
    (a.visits bnds st).map Prod.fst = bnds := by
  induction bnds generalizing st with
  | nil => rfl
  | cons bnd bnds ih =>
      obtain ⟨st', hst'⟩ := a.exists_scoreBoundaryGbeam hsize bnd st
      unfold visits
      rw [hst', List.map_cons, ih]

theorem mem_boundaries_of_visit {lat : Lattice} {v : LatticeBoundary × GbeamState}
    (hv : v ∈ a.latticeVisits lat) : v.1 ∈ lat.boundaries.drop 2 := by
  have hmap := a.map_fst_visits hsize (lat.boundaries.drop 2) a.bootstrapState
  rw [← hmap]
  exact List.mem_map_of_mem hv

/-- The last boundary is that of EOS, which has a node. -/
theorem localNodeCount_of_getLast? {lat : Lattice} {v : LatticeBoundary × GbeamState}
    (hv : (a.latticeVisits lat).getLast? = some v) : v.1.localNodeCount = 1 := by
  have hmap := a.map_fst_visits hsize (lat.boundaries.drop 2) a.bootstrapState
  have hlength := lat.four_le_length
  have hlast : (lat.boundaries.drop 2).getLast? = some v.1 := by
    have hmapped : ((a.latticeVisits lat).map Prod.fst).getLast? = some v.1 := by
      rw [List.getLast?_map, hv]
      rfl
    rw [← hmap]
    exact hmapped
  rw [List.getLast?_drop, if_neg (by omega), List.getLast?_eq_getElem?] at hlast
  have heos := lat.eosNode
  unfold boundaryAt at heos
  rw [List.getD_eq_getElem?_getD, hlast] at heos
  exact heos

end AnalyzerImpl

/-- What the pass reads apart from the sizes; `others` is for the additional scorers. -/
structure Scoring (P : Type) where
  platform : Platform
  patterns : LatticeNodePtr → P
  scorer : FeatureScorer P
  plugin : Option (ConnectionPtr → Score)
  others : Bool

namespace AnalyzerState

variable {P : Type} (s : AnalyzerState) (sc : Scoring P)

/-- The sizes that the pass works with. -/
def analyzer (hbeam : 0 < s.latticeConfig.beamSize.toNat) : AnalyzerImpl P where
  platform := sc.platform
  patterns := sc.patterns
  scorer := sc.scorer
  plugin := sc.plugin
  beamSize := s.latticeConfig.beamSize.toNat
  beamSize_pos := hbeam
  globalBeamSize := s.latticeConfig.globalBeamSize.toNat
  rightGbeamCheck := s.cfg.rightGbeamCheck.toNatClampNeg
  rightGbeamSize := s.cfg.rightGbeamSize.toUInt32.toNat

/-- The beams have room for an element, and every index is one of the buffer that it is used for. -/
def PassSafe (proc : ScoreProcessor) : Prop :=
  ∃ hbeam : 0 < s.latticeConfig.beamSize.toNat, 1 ≤ s.latticeConfig.globalBeamSize.toInt32 ∧
    AllInBounds proc.buffers ((s.analyzer sc hbeam).passAccesses
      s.latticeConfig.numFeaturePatterns.toNat proc.lattice sc.others)

/-- What the live elements to the left of a boundary ask of the two configurations. -/
structure FitsLive (maxEnds live : Nat) : Prop where
  globalBeam : live ≤ maxEnds * s.latticeConfig.beamSize.toNat % 2 ^ 32
  kept : min s.latticeConfig.globalBeamSize.toNat live ≤ s.cfg.globalBeamSize.toNatClampNeg
  partition : PartitionFits s.latticeConfig.beamSize.toNat
    (min s.latticeConfig.globalBeamSize.toNat live)

/-- The two configurations agree on every boundary that is scored, as it is found. -/
def SizesAgree (proc : ScoreProcessor) : Prop :=
  ∃ hbeam : 0 < s.latticeConfig.beamSize.toNat, 1 ≤ s.latticeConfig.globalBeamSize.toInt32 ∧
    ∀ v ∈ (s.analyzer sc hbeam).latticeVisits proc.lattice, v.1.localNodeCount ≠ 0 →
      s.FitsLive proc.lattice.runStats.maxEnds (AnalyzerImpl.liveCandidates v.1 v.2.beams)

variable {s sc}

theorem globalBeamSize_pos (h : 1 ≤ s.latticeConfig.globalBeamSize.toInt32)
    (hbeam : 0 < s.latticeConfig.beamSize.toNat) : 0 < (s.analyzer sc hbeam).globalBeamSize := by
  apply Nat.pos_of_ne_zero
  intro hzero
  have hsize : s.latticeConfig.globalBeamSize = 0 := UInt32.toNat_inj.mp hzero
  rw [hsize] at h
  exact absurd h (by decide)

theorem rightGbeamSize_pos (hs : s.Consistent) (hbeam : 0 < s.latticeConfig.beamSize.toNat)
    (hcheck : 0 < (s.analyzer sc hbeam).rightGbeamCheck) :
    0 < (s.analyzer sc hbeam).rightGbeamSize := by
  have hpos : 0 < s.cfg.rightGbeamCheck.toInt := by
    have hnat : 0 < s.cfg.rightGbeamCheck.toInt.toNat := hcheck
    omega
  have hright : 0 < s.cfg.rightGbeamSize := hs.right (Int32.lt_iff_toInt_lt.mpr hpos)
  apply Nat.pos_of_ne_zero
  intro hzero
  have hsize : s.cfg.rightGbeamSize.toUInt32 = 0 := UInt32.toNat_inj.mp hzero
  have hzero' : s.cfg.rightGbeamSize = 0 := congrArg UInt32.toInt32 hsize
  rw [hzero'] at hright
  exact absurd hright (by decide)

section Boundary

variable {proc : ScoreProcessor} (hs : s.Consistent) (hproc : s.sproc = some proc)
  (hpass : 0 < s.cfg.globalBeamSize) {hbeam : 0 < s.latticeConfig.beamSize.toNat}

include hs hproc hpass

omit hs hproc in
theorem allocate_eq (stats : AnalysisRunStats) :
    ScoreBuffers.allocate s.cfg s.latticeConfig stats =
      { globalBeam := stats.maxEnds * s.latticeConfig.beamSize.toNat % 2 ^ 32
        t1positions := s.cfg.globalBeamSize.toNatClampNeg
        t1patBuf := (stats.maxEnds, s.latticeConfig.numFeaturePatterns.toNat)
        t2patBuf := (s.cfg.globalBeamSize.toNatClampNeg, s.latticeConfig.numFeaturePatterns.toNat)
        gbeamScoreBuf := s.cfg.globalBeamSize.toNatClampNeg
        beamIdxBuffer := s.cfg.globalBeamSize.toNatClampNeg
        t0prescores := if s.cfg.rightGbeamCheck ≤ 0 then (0, 0)
          else (s.cfg.rightGbeamCheck.toNatClampNeg, stats.maxStarts)
        t0cutoffBuffer := if s.cfg.rightGbeamCheck ≤ 0 then 0 else stats.maxStarts
        t0cutoffIdxBuffer := if s.cfg.rightGbeamCheck ≤ 0 then 0 else stats.maxStarts } := by
  unfold ScoreBuffers.allocate
  rw [if_neg (Int32.not_le.mpr hpass)]

omit hs hproc hpass in
theorem check_le_zero (hcheck : s.cfg.rightGbeamCheck ≤ 0) :
    s.cfg.rightGbeamCheck.toNatClampNeg = 0 := by
  have hle := Int32.le_iff_toInt_le.mp hcheck
  show s.cfg.rightGbeamCheck.toInt.toNat = 0
  exact Int.toNat_eq_zero.mpr hle

theorem room {bnd : LatticeBoundary} (hbnd : bnd ∈ proc.lattice.boundaries.drop 2) {boundary : Nat}
    {beams : Beams} {gbeam : GlobalBeam}
    (hsize : gbeam.cands.length ≤ s.cfg.globalBeamSize.toNatClampNeg)
    (hleft : ∀ cand ∈ gbeam.cands, cand.left < bnd.ends.length) :
    (s.analyzer sc hbeam).Room s.latticeConfig.numFeaturePatterns.toNat
      ((s.analyzer sc hbeam).gbeamContext boundary bnd beams gbeam) proc.buffers := by
  have hends : bnd.ends.length ≤ proc.lattice.runStats.maxEnds :=
    le_maxOver (f := fun bnd => bnd.ends.length) hbnd
  have hnodes : bnd.localNodeCount ≤ proc.lattice.runStats.maxStarts := le_maxOver hbnd
  rw [hs.allocated proc hproc, allocate_eq hpass]
  constructor
  · exact hsize
  · intro i hi
    exact (AnalyzerImpl.t1Ptrs_lt hi).trans_le ((AnalyzerImpl.length_dedupT1_le hleft).trans hends)
  · exact le_rfl
  · exact hsize
  · exact le_rfl
  · exact hsize
  · exact hsize
  · show s.cfg.rightGbeamCheck.toNatClampNeg ≤ _
    split_ifs with hcheck
    · exact (check_le_zero hcheck).le
    · exact le_rfl
  all_goals
    intro hcheck
    have hpos : ¬ s.cfg.rightGbeamCheck ≤ 0 := fun hle => hcheck.ne' (check_le_zero hle)
    simp only [if_neg hpos]
    exact hnodes

/-- A boundary with nodes is scored within the buffers if its live elements allow it. -/
theorem allInBounds_boundaryAccesses (hsize : 0 < (s.analyzer sc hbeam).globalBeamSize)
    {bnd : LatticeBoundary} (hbnd : bnd ∈ proc.lattice.boundaries.drop 2) {st : GbeamState}
    (hfits : bnd.localNodeCount ≠ 0 → s.FitsLive proc.lattice.runStats.maxEnds
      (AnalyzerImpl.liveCandidates bnd st.beams)) :
    AllInBounds proc.buffers ((s.analyzer sc hbeam).boundaryAccesses
      s.latticeConfig.numFeaturePatterns.toNat bnd st) := by
  unfold AnalyzerImpl.boundaryAccesses
  split_ifs with hnodes
  · exact allInBounds_nil
  · have hlive := hfits hnodes
    obtain ⟨gbeam, hgbeam, hlength, hleft⟩ :=
      (s.analyzer sc hbeam).exists_makeGlobalBeam hsize bnd st.beams
    have hkept : gbeam.cands.length ≤ s.cfg.globalBeamSize.toNatClampNeg := hlength.trans_le hlive.kept
    have hpartition : PartitionFits (s.analyzer sc hbeam).beamSize gbeam.cands.length := by
      rw [hlength]
      exact hlive.partition
    have hroom : (s.analyzer sc hbeam).Room s.latticeConfig.numFeaturePatterns.toNat
        ((s.analyzer sc hbeam).gbeamContext st.beams.length bnd st.beams gbeam) proc.buffers :=
      room hs hproc hpass hbnd hkept hleft
    rw [hgbeam, allInBounds_append]
    constructor
    · unfold AnalyzerImpl.makeGlobalBeamAccesses
      rw [allInBounds_map, hs.allocated proc hproc, allocate_eq hpass]
      intro i hi
      exact (List.mem_range.mp hi).trans_le hlive.globalBeam
    · rw [allInBounds_append]
      refine ⟨?_, hroom.computeGbeamScoresAccesses hpartition⟩
      unfold AnalyzerImpl.gatherAccesses
      rw [allInBounds_append, allInBounds_append, allInBounds_map, allInBounds_flatMap,
        allInBounds_flatMap]
      refine ⟨⟨fun i hi => (List.mem_range.mp hi).trans_le hroom.t1positions, ?_⟩, ?_⟩
      · intro entry hentry
        rw [allInBounds_map]
        intro col hcol
        refine ⟨?_, (List.mem_range.mp hcol).trans_le hroom.t1patterns⟩
        -- the rows of the table are numbered
        have horder := (dedupT1_spec bnd.ends gbeam.cands [] rfl).1
        have hrow := List.mem_map_of_mem (f := Prod.snd) hentry
        unfold T1Map.InOrder at horder
        rw [horder, List.mem_range] at hrow
        rw [hs.allocated proc hproc, allocate_eq hpass]
        have hends : bnd.ends.length ≤ proc.lattice.runStats.maxEnds :=
          le_maxOver (f := fun bnd => bnd.ends.length) hbnd
        exact hrow.trans_le ((AnalyzerImpl.length_dedupT1_le hleft).trans hends)
      · intro i hi
        rw [allInBounds_map]
        intro col hcol
        exact ⟨(List.mem_range.mp hi).trans_le hroom.t2rows,
          (List.mem_range.mp hcol).trans_le hroom.t2patterns⟩

omit hproc hpass in
/-- The beam of some right node is chosen from the whole global beam. -/
theorem partitionFits_of_computeGbeamScores {ctx : GbeamContext P} (hnodes : 0 < ctx.nodes)
    {bufs : ScoreBuffers}
    (h : AllInBounds bufs ((s.analyzer sc hbeam).computeGbeamScoresAccesses
      s.latticeConfig.numFeaturePatterns.toNat ctx)) :
    PartitionFits s.latticeConfig.beamSize.toNat ctx.gbeam.cands.length := by
  unfold AnalyzerImpl.computeGbeamScoresAccesses at h
  split_ifs at h with hcheck
  · have hkeep : 0 < min (s.analyzer sc hbeam).rightGbeamSize ctx.nodes :=
      lt_min (rightGbeamSize_pos hs hbeam hcheck) hnodes
    have hlength := ((s.analyzer sc hbeam).t0Order_perm ctx).length_eq
    rw [List.length_range] at hlength
    have hfirst : 0 < ((s.analyzer sc hbeam).t0Order ctx).length := hlength ▸ hnodes
    rw [allInBounds_append, allInBounds_flatMap] at h
    have hturn := h.2 (((s.analyzer sc hbeam).t0Order ctx)[0], 0)
      (List.mk_mem_zipIdx_iff_getElem?.mpr (List.getElem?_eq_getElem hfirst))
    unfold AnalyzerImpl.scoreT0CheckedAccesses at hturn
    rw [allInBounds_append, if_pos hkeep, allInBounds_append] at hturn
    exact partitionFits_of_allInBounds hturn.2.2
  · rw [allInBounds_flatMap] at h
    have hturn := h 0 (List.mem_range.mpr hnodes)
    unfold AnalyzerImpl.scoreT0Accesses at hturn
    rw [allInBounds_append] at hturn
    exact partitionFits_of_allInBounds hturn.2

theorem fitsLive_of_allInBounds (hsize : 0 < (s.analyzer sc hbeam).globalBeamSize)
    {bnd : LatticeBoundary} (hnodes : bnd.localNodeCount ≠ 0) {st : GbeamState}
    (h : AllInBounds proc.buffers ((s.analyzer sc hbeam).boundaryAccesses
      s.latticeConfig.numFeaturePatterns.toNat bnd st)) :
    s.FitsLive proc.lattice.runStats.maxEnds (AnalyzerImpl.liveCandidates bnd st.beams) := by
  obtain ⟨gbeam, hgbeam, hlength, -⟩ :=
    (s.analyzer sc hbeam).exists_makeGlobalBeam hsize bnd st.beams
  unfold AnalyzerImpl.boundaryAccesses at h
  rw [if_neg hnodes, hgbeam, allInBounds_append, allInBounds_append] at h
  obtain ⟨hmake, hgather, hscores⟩ := h
  unfold AnalyzerImpl.makeGlobalBeamAccesses at hmake
  unfold AnalyzerImpl.gatherAccesses at hgather
  rw [allInBounds_append, allInBounds_append, allInBounds_map] at hgather
  rw [allInBounds_map] at hmake
  rw [hs.allocated proc hproc, allocate_eq hpass] at hmake hgather
  constructor
  · exact le_of_forall_range hmake
  · have hkept := le_of_forall_range hgather.1.1
    rw [hlength] at hkept
    exact hkept
  · have hpartition : PartitionFits s.latticeConfig.beamSize.toNat gbeam.cands.length :=
      partitionFits_of_computeGbeamScores hs (Nat.pos_of_ne_zero hnodes) hscores
    rw [hlength] at hpartition
    exact hpartition

theorem allInBounds_remakeEosBeamAccesses (hsize : 0 < (s.analyzer sc hbeam).globalBeamSize)
    {bnd : LatticeBoundary} {st : GbeamState}
    (hfits : s.FitsLive proc.lattice.runStats.maxEnds
      (AnalyzerImpl.liveCandidates bnd st.beams)) :
    AllInBounds proc.buffers ((s.analyzer sc hbeam).remakeEosBeamAccesses bnd st) := by
  obtain ⟨gbeam, hgbeam, hlength, -⟩ :=
    (s.analyzer sc hbeam).exists_makeGlobalBeam hsize bnd st.beams
  have hlive : gbeam.cands.length ≤ AnalyzerImpl.liveCandidates bnd st.beams :=
    hlength.trans_le (min_le_right _ _)
  have hkept : gbeam.cands.length ≤ s.cfg.globalBeamSize.toNatClampNeg :=
    hlength.trans_le hfits.kept
  have hpartition : PartitionFits (s.analyzer sc hbeam).beamSize gbeam.cands.length := by
    rw [hlength]
    exact hfits.partition
  unfold AnalyzerImpl.remakeEosBeamAccesses
  rw [hgbeam, hs.allocated proc hproc, allocate_eq hpass]
  simp only
  rw [allInBounds_append, allInBounds_flatMap]
  constructor
  · intro i hi
    have hlt := List.mem_range.mp hi
    rw [allInBounds_cons, allInBounds_cons]
    exact ⟨(hlt.trans_le hlive).trans_le hfits.globalBeam, hlt.trans_le hkept, allInBounds_nil⟩
  · unfold makeT0BeamAccesses
    rw [if_pos hpartition, List.append_nil, allInBounds_append, allInBounds_map, allInBounds_map]
    exact ⟨fun i hi => (List.mem_range.mp hi).trans_le hkept,
      fun i hi => (List.mem_range.mp hi).trans_le hkept⟩

end Boundary

end AnalyzerState

/-- One character that is a word in two ways. -/
def pairLattice : Lattice :=
  .ofBoundaries
    [⟨[⟨.BOS, 0, 0⟩], []⟩, ⟨[⟨.BOS, 0, 0⟩], [⟨0, 0⟩]⟩, ⟨[⟨0, 0, 1⟩, ⟨1, 0, 1⟩], [⟨1, 0⟩]⟩,
      ⟨[⟨.EOS, 1, 1⟩], [⟨2, 0⟩, ⟨2, 1⟩]⟩]
    (by decide) (by decide) (by decide) (by decide) (by decide) (by decide) (by decide)

/-- A configured global beam of one element, and automatic beams of five. -/
def autoBeamConfig : AnalyzerConfig where
  globalBeamSize := 1
  rightGbeamCheck := 0
  rightGbeamSize := 0
  storeAllPatterns := true
  autoBeamStep := 1
  autoBeamBase := 4
  autoBeamMax := 5

def onePattern : CoreHolder where
  patternDynamic := true
  ngram := true
  ngramPartial := true
  patternStatic := false
  patterns := 1
  numUniOnlyPats := 0

def autoBeamState : AnalyzerState :=
  ((AnalyzerState.mk autoBeamConfig ⟨1, 5, 1, 1⟩ none).resetForInput (some 1)).bootstrapAnalysis
    pairLattice

def autoBeamProcessor : ScoreProcessor :=
  ⟨pairLattice, .allocate autoBeamConfig ⟨1, 5, 1, 5⟩ pairLattice.runStats⟩

def flatScoring : Scoring Unit where
  platform := (flatAnalyzer 5 beamSize_five_pos).platform
  patterns := fun _ => ()
  scorer := (flatAnalyzer 5 beamSize_five_pos).scorer
  plugin := none
  others := false

theorem reachable_autoBeamState : Reachable onePattern ⟨1, 5, 1, 0⟩ ⟨1, []⟩ autoBeamState :=
  .bootstrapAnalysis (.resetForInput (.initScorers rfl) (some 1)) pairLattice

/-- Both words are live at EOS. -/
theorem two_le_liveCandidates {st : GbeamState}
    (hst : AnalyzerImpl.GbeamRunInv pairLattice 3 st) :
    2 ≤ AnalyzerImpl.liveCandidates (pairLattice.boundary 3) st.beams := by
  have hlive : ∀ position < 2, 1 ≤ (activeBeam (beamAt st.beams ⟨2, position⟩)).length := by
    intro position hposition
    have hpaths : pairLattice.paths ⟨2, position⟩ ≠ [] := by
      rw [pairLattice.paths_node ⟨2, position⟩ (Nat.le_refl 2)]
      show [(⟨1, 0⟩ : LatticeNodePtr)].flatMap _ ≠ []
      rw [List.flatMap_singleton, pairLattice.paths_bos ⟨1, 0⟩ rfl]
      exact List.cons_ne_nil _ _
    have hne := hst.live.live ⟨2, position⟩ (Nat.le_succ 1) (Nat.lt_succ_self 2) hposition hpaths
    unfold activePtrs at hne
    exact List.length_pos_iff.mpr fun hnil => hne (by rw [hnil]; rfl)
  have hfirst := hlive 0 (by decide)
  have hsecond := hlive 1 (by decide)
  show 2 ≤ (activeBeam (beamAt st.beams ⟨2, 0⟩)).length +
    ((activeBeam (beamAt st.beams ⟨2, 1⟩)).length + 0)
  omega

end Jumanpp.Core.Analysis
