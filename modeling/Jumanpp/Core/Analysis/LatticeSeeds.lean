import Jumanpp.Core.Analysis.LatticeBuilder
import Jumanpp.Lib.Segments

/-!
# From seeds to boundaries

The counters that `prepare` makes agree with the sorted seeds, so every boundary gets just the nodes
that start there, and the array of its ending nodes is filled to the last place.
-/

namespace Jumanpp.Core.Analysis

open Jumanpp.Lib

theorem u16_u16_add (a b : Nat) : u16 (u16 a + b) = u16 (a + b) := by
  unfold u16
  omega

namespace LatticeBuilder

/-! ## Counting -/

/-- The counters after some seeds. -/
def countedBy (seeds : List LatticeNodeSeed) (p : Nat) (b : BoundaryInfo) : BoundaryInfo :=
  { b with
    startCount := u16 (b.startCount + segmentSize (·.codepointStart) p seeds)
    endCount := u16 (b.endCount + segmentSize (·.codepointEnd) p seeds) }

theorem countedBy_nil {p : Nat} {b : BoundaryInfo} (h : BoundaryInfo.Counts b) :
    countedBy [] p b = b := by
  unfold countedBy
  show { b with startCount := u16 (b.startCount + 0), endCount := u16 (b.endCount + 0) } = b
  rw [Nat.add_zero, Nat.add_zero, u16_of_lt h.1, u16_of_lt h.2]

theorem getElem?_countSeed (boundaries : List BoundaryInfo) (seed : LatticeNodeSeed) (p : Nat)
    (h : ∀ b ∈ boundaries, BoundaryInfo.Counts b) :
    (countSeed boundaries seed)[p]? = boundaries[p]?.map (countedBy [seed] p) := by
  unfold countSeed
  rw [List.getElem?_modify, List.getElem?_modify]
  cases hb : boundaries[p]? with
  | none => rfl
  | some b =>
      obtain ⟨hstart, hend⟩ := h b (List.mem_of_getElem? hb)
      unfold countedBy
      simp only [Option.map_eq_map, Option.map_some, segmentSize_cons]
      have hnil : ∀ key : LatticeNodeSeed → Nat, segmentSize key p [] = 0 := fun _ => rfl
      rw [hnil, hnil, Nat.zero_add, Nat.zero_add]
      by_cases hs : seed.codepointStart = p <;> by_cases he : seed.codepointEnd = p <;>
        simp [hs, he, u16_of_lt hstart, u16_of_lt hend]

theorem counts_countSeed {boundaries : List BoundaryInfo}
    (h : ∀ b ∈ boundaries, BoundaryInfo.Counts b) (seed : LatticeNodeSeed) :
    ∀ b ∈ countSeed boundaries seed, BoundaryInfo.Counts b :=
  counts_foldl_countSeed h [seed]

/-- By induction on the seeds: one count for each seed that starts or ends at a boundary. -/
theorem getElem?_foldl_countSeed {boundaries : List BoundaryInfo}
    (h : ∀ b ∈ boundaries, BoundaryInfo.Counts b) (seeds : List LatticeNodeSeed) (p : Nat) :
    (seeds.foldl countSeed boundaries)[p]? = boundaries[p]?.map (countedBy seeds p) := by
  induction seeds generalizing boundaries with
  | nil =>
      cases hb : boundaries[p]? with
      | none => exact hb
      | some b =>
          rw [List.foldl_nil, hb, Option.map_some, countedBy_nil (h b (List.mem_of_getElem? hb))]
  | cons seed seeds ih =>
      rw [List.foldl_cons, ih (counts_countSeed h seed), getElem?_countSeed _ _ _ h, Option.map_map]
      congr 1
      funext b
      unfold countedBy
      simp only [Function.comp_apply, segmentSize_cons, u16_u16_add]
      have hnil : ∀ key : LatticeNodeSeed → Nat, segmentSize key p [] = 0 := fun _ => rfl
      rw [hnil, hnil]
      congr 2 <;> omega

theorem getElem?_numberBoundaries (boundaries : List BoundaryInfo) (i offset p : Nat) :
    (numberBoundaries i offset boundaries)[p]? = boundaries[p]?.map fun b =>
      { b with
        number := u16 (i + p)
        firstNodeOffset := offset + ((boundaries.take p).map (·.startCount)).sum } := by
  induction boundaries generalizing i offset p with
  | nil => rfl
  | cons b boundaries ih =>
      cases p with
      | zero => rfl
      | succ p =>
          unfold numberBoundaries
          rw [List.getElem?_cons_succ, List.getElem?_cons_succ, ih, List.take_succ_cons,
            List.map_cons, List.sum_cons]
          congr 1
          funext b'
          rw [Nat.add_assoc offset, Nat.add_right_comm i 1 p, Nat.add_assoc i p 1]

/-- The start counts of the first boundaries add up to the number of seeds before. -/
theorem sum_startCount {boundaries : List BoundaryInfo} {seeds : List LatticeNodeSeed} {p : Nat}
    (h : ∀ q < p, ∃ b, boundaries[q]? = some b ∧
      b.startCount = segmentSize (·.codepointStart) q seeds) :
    ((boundaries.take p).map (·.startCount)).sum = segmentStart (·.codepointStart) p seeds := by
  induction p with
  | zero => rw [segmentStart_zero, List.take_zero]; rfl
  | succ p ih =>
      obtain ⟨b, hb, hcount⟩ := h p (Nat.lt_succ_self p)
      rw [List.take_add_one, hb, segmentStart_succ, List.map_append, List.sum_append,
        ih fun q hq => h q (by omega), ← hcount]
      simp

/-! ## The boundaries that `prepare` makes -/

section Prepare

variable {bld : LatticeBuilder} {n : Nat} (hmax : bld.maxBoundaries = n + 1)
  (hseeds : ∀ s ∈ bld.seeds, s.codepointStart < s.codepointEnd ∧ s.codepointEnd ≤ n)
  (hstarts : ∀ p, segmentSize (·.codepointStart) p bld.seeds < 2 ^ 16)
  (hends : ∀ p, segmentSize (·.codepointEnd) p bld.seeds < 2 ^ 16)

include hmax hseeds hstarts hends

/-- No seed ends at the beginning of the input and none starts at its end, so the counts for BOS and
EOS stay alone. -/
theorem infoAt_prepare {p : Nat} (hp : p ≤ n) : bld.prepare.infoAt p =
    { number := u16 p
      startCount := if p = n then 1 else segmentSize (·.codepointStart) p bld.seeds
      endCount := if p = 0 then 1 else segmentSize (·.codepointEnd) p bld.seeds
      firstNodeOffset := segmentStart (·.codepointStart) p bld.seeds } := by
  let initial := ((List.replicate (n + 1) (⟨0, 0, 0, 0⟩ : BoundaryInfo)).modify 0
    fun b => { b with endCount := 1 }).modify n fun b => { b with startCount := 1 }
  have hinitial : ∀ b ∈ initial, BoundaryInfo.Counts b := by
    refine forall_mem_modify ?_ (forall_mem_modify ?_ ?_ _) _
    · exact fun b hb => ⟨Nat.one_lt_two_pow (by decide), hb.2⟩
    · exact fun b hb => ⟨hb.1, Nat.one_lt_two_pow (by decide)⟩
    · intro b hb
      rw [List.eq_of_mem_replicate hb]
      exact ⟨by decide, by decide⟩
  have hget : ∀ q ≤ n, initial[q]? =
      some ⟨0, if q = n then 1 else 0, if q = 0 then 1 else 0, 0⟩ := by
    intro q hq
    show ((_ : List BoundaryInfo).modify _ _)[q]? = _
    rw [List.getElem?_modify, List.getElem?_modify, List.getElem?_replicate,
      if_pos (by omega : q < n + 1)]
    by_cases hzero : q = 0 <;> by_cases hlast : q = n
    · subst hzero
      subst hlast
      rfl
    · subst hzero
      simp [Ne.symm hlast, hlast]
    · subst hlast
      simp [Ne.symm hzero, hzero]
    · simp [Ne.symm hzero, Ne.symm hlast, hzero, hlast]
  have hnoStart : segmentSize (·.codepointStart) n bld.seeds = 0 :=
    segmentSize_eq_zero fun s hs => by have := hseeds s hs; omega
  have hnoEnd : segmentSize (·.codepointEnd) 0 bld.seeds = 0 :=
    segmentSize_eq_zero fun s hs => by have := hseeds s hs; omega
  have hcounted : ∀ q ≤ n, (bld.seeds.foldl countSeed initial)[q]? =
      some ⟨0, if q = n then 1 else segmentSize (·.codepointStart) q bld.seeds,
        if q = 0 then 1 else segmentSize (·.codepointEnd) q bld.seeds, 0⟩ := by
    intro q hq
    rw [getElem?_foldl_countSeed hinitial, hget q hq, Option.map_some]
    unfold countedBy
    have hstart : u16 ((if q = n then 1 else 0) + segmentSize (·.codepointStart) q bld.seeds) =
        if q = n then 1 else segmentSize (·.codepointStart) q bld.seeds := by
      split_ifs with hlast
      · rw [hlast, hnoStart]
        rfl
      · rw [Nat.zero_add, u16_of_lt (hstarts q)]
    have hend : u16 ((if q = 0 then 1 else 0) + segmentSize (·.codepointEnd) q bld.seeds) =
        if q = 0 then 1 else segmentSize (·.codepointEnd) q bld.seeds := by
      split_ifs with hzero
      · rw [hzero, hnoEnd]
        rfl
      · rw [Nat.zero_add, u16_of_lt (hends q)]
    simp only [hstart, hend]
  have hsum : (((bld.seeds.foldl countSeed initial).take p).map (·.startCount)).sum =
      segmentStart (·.codepointStart) p bld.seeds := by
    refine sum_startCount fun q hq => ⟨_, hcounted q (by omega), ?_⟩
    exact if_neg (by omega)
  unfold infoAt prepare
  rw [if_neg (by omega), hmax]
  show (numberBoundaries 0 0 (bld.seeds.foldl countSeed initial)).getD p _ = _
  rw [List.getD_eq_getElem?_getD, getElem?_numberBoundaries, hcounted p hp, Option.map_some,
    Option.getD_some, hsum, Nat.zero_add, Nat.zero_add]

omit hstarts hends in
theorem sized_prepare (hn : n + 1 < 2 ^ 16) : bld.prepare.Sized n := by
  have hpos : bld.maxBoundaries ≠ 0 := by omega
  have hsame : bld.prepare.seeds = bld.seeds ∧ bld.prepare.maxBoundaries = bld.maxBoundaries := by
    unfold prepare
    rw [if_neg hpos]
    exact ⟨rfl, rfl⟩
  refine ⟨hsame.2.trans hmax, hn, fun s hs => hseeds s (hsame.1 ▸ hs), fun i => ?_⟩
  unfold infoAt
  rw [List.getD_eq_getElem?_getD]
  cases hi : bld.prepare.boundaries[i]? with
  | none => exact ⟨by decide, by decide⟩
  | some b => exact counts_prepare (Nat.pos_of_ne_zero hpos) b (List.mem_of_getElem? hi)

end Prepare

/-! ## Filling the ends -/

section Fill

variable {bld : LatticeBuilder} {lattice : List OpenBoundary}

theorem addEnd_of_room {idx : Nat} {bnd : OpenBoundary} (hbnd : lattice[idx]? = some bnd)
    (hroom : bnd.ends.length < bnd.cfg.endNodes) (ptr : LatticeNodePtr) :
    addEnd lattice idx ptr =
      .ok (appendEnds (fun b => if b = idx then [ptr] else []) lattice) := by
  have hadd : addEnd lattice idx ptr =
      .ok (lattice.set idx { bnd with ends := bnd.ends ++ [ptr] }) := by
    unfold addEnd
    simp only [hbnd]
    rw [if_pos hroom]
  rw [hadd, (addEnd_ok hadd).1]

theorem getElem?_appendEnds {added : Nat → List LatticeNodePtr} {b : Nat} :
    (appendEnds added lattice)[b]? =
      lattice[b]?.map fun bnd => { bnd with ends := bnd.ends ++ added b } := by
  unfold appendEnds
  rw [List.getElem?_mapIdx]

/-- By induction on the seeds: the array of each boundary has places for those that still come. -/
theorem fillSeedEnds_of_room {seeds : List (LatticeNodeSeed × Nat)}
    (hplace : ∀ seed i, (seed, i) ∈ seeds → bld.HasPlace seed i)
    (hroom : ∀ seed i, (seed, i) ∈ seeds → ∃ bnd, lattice[seed.codepointEnd + 2]? = some bnd)
    (hends : ∀ b bnd, lattice[b]? = some bnd →
      bnd.ends.length + (bld.seedEnds seeds b).length ≤ bnd.cfg.endNodes) :
    ∃ lattice', bld.fillSeedEnds seeds lattice = .ok lattice' := by
  induction seeds generalizing lattice with
  | nil => exact ⟨lattice, rfl⟩
  | cons head seeds ih =>
      obtain ⟨seed, i⟩ := head
      have htail : ∀ seed i, (seed, i) ∈ seeds → bld.HasPlace seed i :=
        fun seed i h => hplace seed i (List.mem_cons_of_mem _ h)
      unfold fillSeedEnds
      by_cases herased : seed.codepointStart = seed.codepointEnd
      · rw [if_pos herased]
        refine ih htail (fun seed i h => hroom seed i (List.mem_cons_of_mem _ h)) ?_
        intro b bnd hbnd
        have hle := hends b bnd hbnd
        unfold seedEnds at hle ⊢
        rwa [List.filter_cons_of_neg (by simp [herased])] at hle
      · rw [if_neg herased]
        simp only
        have hin := hplace seed i List.mem_cons_self
        unfold HasPlace at hin
        rw [if_pos hin]
        obtain ⟨bnd, hbnd⟩ := hroom seed i List.mem_cons_self
        have hseedEnds : ∀ b, (bld.seedEnds ((seed, i) :: seeds) b).length =
            (if b = seed.codepointEnd + 2 then 1 else 0) + (bld.seedEnds seeds b).length := by
          intro b
          unfold seedEnds
          by_cases hb : b = seed.codepointEnd + 2
          · rw [if_pos hb, List.filter_cons_of_pos (by simp [herased, hb]), List.map_cons,
              List.length_cons, Nat.add_comm]
          · rw [if_neg hb, List.filter_cons_of_neg (by simp [Ne.symm hb]), Nat.zero_add]
        have hlt : bnd.ends.length < bnd.cfg.endNodes := by
          have hle := hends _ bnd hbnd
          rw [hseedEnds, if_pos rfl] at hle
          omega
        rw [addEnd_of_room hbnd hlt]
        refine ih htail ?_ ?_
        · intro seed' i' h
          obtain ⟨bnd', hbnd'⟩ := hroom seed' i' (List.mem_cons_of_mem _ h)
          rw [getElem?_appendEnds, hbnd']
          exact ⟨_, rfl⟩
        · intro b bnd' hbnd'
          rw [getElem?_appendEnds, Option.map_eq_some_iff] at hbnd'
          obtain ⟨old, hold, rfl⟩ := hbnd'
          have hle := hends b old hold
          rw [hseedEnds] at hle
          simp only [List.length_append]
          split_ifs at hle ⊢ <;> simp only [List.length_cons, List.length_nil] <;> omega

end Fill

/-! ## The lattice of a list of seeds -/

/-- Nothing is lost and nothing doubled: the boundary of a position has the nodes of the seeds that
start there, and its ends point at the nodes that end there. -/
structure HoldsSeeds (n : Nat) (seeds : List LatticeNodeSeed) (bnds : List LatticeBoundary) :
    Prop where
  length_eq : bnds.length = n + 3
  bos : ∀ b < 2, (boundaryAt bnds b).nodeInfo = [⟨EntryPtr.BOS, 0, 0⟩]
  starts : ∀ p < n, (boundaryAt bnds (p + 2)).nodeInfo =
    (seeds.filter fun s => decide (s.codepointStart = p)).map fun s =>
      ⟨s.entryPtr, s.codepointStart, s.codepointEnd⟩
  eos : (boundaryAt bnds (n + 2)).nodeInfo = [⟨EntryPtr.EOS, n, n⟩]
  bosEnds : (boundaryAt bnds 0).ends = [] ∧ (boundaryAt bnds 1).ends = [⟨0, 0⟩] ∧
    (boundaryAt bnds 2).ends = [⟨1, 0⟩]
  length_ends : ∀ p, 0 < p → p ≤ n → (boundaryAt bnds (p + 2)).ends.length =
    (seeds.filter fun s => decide (s.codepointEnd = p)).length
  nodup_ends : ∀ b, (boundaryAt bnds b).ends.Nodup
  mem_ends : ∀ p, 0 < p → p ≤ n → ∀ ptr, ptr ∈ (boundaryAt bnds (p + 2)).ends ↔
    (2 ≤ ptr.boundary ∧ ptr.boundary < n + 2) ∧ ∃ info,
      (boundaryAt bnds ptr.boundary).nodeInfo[ptr.position]? = some info ∧ info.end_ = p

section Built

variable {bld : LatticeBuilder} {n : Nat} (hn : n + 1 < 2 ^ 16) (hmax : bld.maxBoundaries = n + 1)
  (hseeds : ∀ s ∈ bld.seeds, s.codepointStart < s.codepointEnd ∧ s.codepointEnd ≤ n)
  (hsorted : bld.seeds.Pairwise fun l r => l.codepointStart ≤ r.codepointStart)
  (hstarts : ∀ p, segmentSize (·.codepointStart) p bld.seeds < 2 ^ 16)
  (hends : ∀ p, segmentSize (·.codepointEnd) p bld.seeds < 2 ^ 16)

include hmax

omit hn in
theorem seeds_prepare : bld.prepare.seeds = bld.seeds := by
  unfold prepare
  rw [if_neg (by omega)]

include hseeds hsorted hstarts hends

theorem hasPlace_prepare {seed : LatticeNodeSeed} {i : Nat} (hseed : bld.seeds[i]? = some seed) :
    bld.prepare.HasPlace seed i := by
  have hpos := hseeds seed (List.mem_of_getElem? hseed)
  unfold HasPlace
  rw [infoAt_prepare hmax hseeds hstarts hends (by omega : seed.codepointStart ≤ n)]
  simp only
  rw [if_neg (by omega)]
  exact segment_index hsorted hseed

theorem nodesAt_prepare {p : Nat} (hp : p < n) : bld.prepare.nodesAt p =
    (bld.seeds.filter fun s => decide (s.codepointStart = p)).map fun s =>
      ⟨s.entryPtr, s.codepointStart, s.codepointEnd⟩ := by
  unfold nodesAt
  rw [infoAt_prepare hmax hseeds hstarts hends hp.le, seeds_prepare hmax]
  simp only
  rw [if_neg hp.ne, segment_eq_filter hsorted]

omit hmax hsorted hstarts hends in
theorem length_seedEnds (bld' : LatticeBuilder) {p : Nat} :
    (bld'.seedEnds bld.seeds.zipIdx (p + 2)).length =
      (bld.seeds.filter fun s => decide (s.codepointEnd = p)).length := by
  unfold seedEnds
  rw [List.length_map, ← List.countP_eq_length_filter, ← List.countP_eq_length_filter]
  conv_rhs => rw [← List.zipIdx_map_fst 0 bld.seeds, List.countP_map]
  refine List.countP_congr fun x hx => ?_
  obtain ⟨seed, i⟩ := x
  have hseed := hseeds seed (List.mem_of_getElem? (List.mk_mem_zipIdx_iff_getElem?.mp hx))
  simp only [Function.comp_apply, decide_eq_true_eq]
  omega

include hn

omit hsorted in
/-- The array of ending nodes has a place for each seed that ends there, and one for BOS. -/
theorem getElem?_opened_prepare {b : Nat} (hb : b < n + 3) :
    ∃ cfg, (bld.prepare.opened n)[b]? = some ⟨cfg, bld.prepare.nodeInfoAt n b, []⟩ ∧
      cfg.endNodes = (LatticeBuilder.bosEnds b ++
        bld.prepare.seedEnds bld.seeds.zipIdx b).length := by
  have hsized := sized_prepare hmax hseeds hn
  have hlow : ∀ b < 2, bld.prepare.seedEnds bld.seeds.zipIdx b = [] := by
    intro b hb
    unfold seedEnds
    rw [List.map_eq_nil_iff, List.filter_eq_nil_iff]
    rintro ⟨seed, i⟩ -
    simp only [decide_eq_true_eq]
    omega
  have hinfo : ∀ p ≤ n, (bld.prepare.infoAt p).endCount =
      (LatticeBuilder.bosEnds (p + 2) ++
        bld.prepare.seedEnds bld.seeds.zipIdx (p + 2)).length := by
    intro p hp
    rw [infoAt_prepare hmax hseeds hstarts hends hp, List.length_append,
      length_seedEnds hseeds, ← segmentSize_eq_length_filter]
    unfold LatticeBuilder.bosEnds
    simp only
    by_cases hzero : p = 0
    · subst hzero
      have hnone : segmentSize (·.codepointEnd) 0 bld.seeds = 0 :=
        segmentSize_eq_zero fun s hs => by have := hseeds s hs; omega
      rw [hnone]
      rfl
    · rw [if_neg hzero, if_neg (by omega), if_neg (by omega)]
      simp
  have hbos : (makeBos []).length = 2 := rfl
  rw [opened_eq]
  unfold nodeInfoAt
  by_cases htwo : b < 2
  · rw [List.append_assoc, List.getElem?_append_left (by omega), if_pos htwo, hlow b htwo]
    obtain rfl | rfl : b = 0 ∨ b = 1 := by omega
    · exact ⟨⟨0, 0, 1⟩, rfl, rfl⟩
    · exact ⟨⟨1, 1, 1⟩, rfl, rfl⟩
  · obtain ⟨p, rfl⟩ : ∃ p, b = p + 2 := ⟨b - 2, by omega⟩
    rw [if_neg htwo]
    by_cases hmid : p < n
    · rw [if_pos (by omega), List.getElem?_append_left (by simp [hbos]; omega),
        List.getElem?_append_right (by omega), hbos, List.getElem?_map,
        List.getElem?_range (by omega)]
      exact ⟨_, rfl, hinfo p hmid.le⟩
    · obtain rfl : p = n := by omega
      rw [if_neg (by omega), List.getElem?_append_right (by simp [hbos]; omega)]
      have hzero : p + 2 - (makeBos [] ++ (List.range p).map (fun i =>
          (⟨⟨i + 2, (bld.prepare.infoAt i).endCount, (bld.prepare.infoAt i).startCount⟩,
            bld.prepare.nodesAt i, []⟩ : OpenBoundary))).length = 0 := by
        simp [hbos]
        omega
      rw [hzero]
      unfold makeEos
      rw [hsized.max]
      exact ⟨_, rfl, hinfo p (Nat.le_refl p)⟩

/-- All ends are filled, and no array has a place left. -/
theorem fillEnds_prepare : ∃ lattice, bld.prepare.fillEnds (bld.prepare.opened n) = .ok lattice ∧
    bld.prepare.buildLattice n = .ok (lattice.map OpenBoundary.close) ∧
    ∀ bnd ∈ lattice, bnd.ends.length = bnd.cfg.endNodes := by
  have hopened := fun b hb =>
    getElem?_opened_prepare (b := b) hn hmax hseeds hstarts hends hb
  have hlength : (bld.prepare.opened n).length = n + 3 := length_opened
  have hprepared := seeds_prepare hmax
  -- the two pointers to BOS
  obtain ⟨cfg1, hone, hcfg1⟩ := hopened 1 (by omega)
  obtain ⟨cfg2, htwo, hcfg2⟩ := hopened 2 (by omega)
  have hadd1 := addEnd_of_room hone (by rw [hcfg1]; simp [LatticeBuilder.bosEnds]) ⟨0, 0⟩
  have hget2 := @getElem?_appendEnds (bld.prepare.opened n)
    (fun b => if b = 1 then [(⟨0, 0⟩ : LatticeNodePtr)] else []) 2
  rw [htwo] at hget2
  have hadd2 := addEnd_of_room hget2
    (by simp only; rw [hcfg2]; simp [LatticeBuilder.bosEnds]) ⟨1, 0⟩
  rw [appendEnds_appendEnds] at hadd2
  have hfillable : ∃ lattice, bld.prepare.fillSeedEnds bld.seeds.zipIdx
      (appendEnds LatticeBuilder.bosEnds (bld.prepare.opened n)) = .ok lattice := by
    refine fillSeedEnds_of_room ?_ ?_ ?_
    · intro seed i hmem
      exact hasPlace_prepare hmax hseeds hsorted hstarts hends
        (List.mk_mem_zipIdx_iff_getElem?.mp hmem)
    · intro seed i hmem
      have hseed := hseeds seed (List.mem_of_getElem? (List.mk_mem_zipIdx_iff_getElem?.mp hmem))
      obtain ⟨cfg, hget, -⟩ := hopened (seed.codepointEnd + 2) (by omega)
      rw [getElem?_appendEnds, hget]
      exact ⟨_, rfl⟩
    · intro b bnd hbnd
      rw [getElem?_appendEnds, Option.map_eq_some_iff] at hbnd
      obtain ⟨old, hold, rfl⟩ := hbnd
      have hlt : b < n + 3 := by
        rw [← hlength]
        exact (List.getElem?_eq_some_iff.mp hold).1
      obtain ⟨cfg, hget, hcfg⟩ := hopened b hlt
      rw [hold, Option.some.injEq] at hget
      rw [hget]
      simp only [List.nil_append]
      rw [hcfg, List.length_append]
  obtain ⟨lattice, hfill⟩ := hfillable
  have hall : bld.prepare.fillEnds (bld.prepare.opened n) = .ok lattice := by
    unfold fillEnds
    rw [hadd1, hprepared]
    show (addEnd _ 2 ⟨1, 0⟩ >>= fun lattice => _) = _
    rw [hadd2]
    exact hfill
  refine ⟨lattice, hall, ?_, ?_⟩
  · show (bld.prepare.fillEnds (bld.prepare.opened n) >>= fun lattice => _) = _
    rw [hall]
    rfl
  · obtain ⟨rfl, -, -⟩ := fillSeedEnds_ok hfill
    intro bnd hbnd
    obtain ⟨b, hb⟩ := List.mem_iff_getElem?.mp hbnd
    have hlt : b < n + 3 := by
      have hlt := (List.getElem?_eq_some_iff.mp hb).1
      unfold appendEnds at hlt
      rwa [List.length_mapIdx, List.length_mapIdx, hlength] at hlt
    obtain ⟨cfg, hget, hcfg⟩ := hopened b hlt
    rw [appendEnds_appendEnds, getElem?_appendEnds, hget, Option.map_some, Option.some.injEq] at hb
    rw [← hb]
    simp only [List.nil_append]
    exact hcfg.symm

/-- A place among the nodes of a boundary is the place of a seed, and its pointer leads back. -/
theorem exists_endPtr {p k : Nat} (hp : p < n) {info : NodeInfo}
    (hinfo : (bld.prepare.nodesAt p)[k]? = some info) :
    ∃ seed i, bld.prepare.seeds[i]? = some seed ∧ info.end_ = seed.codepointEnd ∧
      bld.prepare.endPtr seed i = ⟨p + 2, k⟩ := by
  have hat := infoAt_prepare hmax hseeds hstarts hends hp.le
  have hsegment := segment_eq_filter (p := p) hsorted
  unfold nodesAt at hinfo
  rw [hat, seeds_prepare hmax] at hinfo
  simp only [if_neg hp.ne, List.getElem?_map, Option.map_eq_some_iff] at hinfo
  obtain ⟨seed, hseed, rfl⟩ := hinfo
  have hk : k < segmentSize (·.codepointStart) p bld.seeds := by
    have hlt := (List.getElem?_eq_some_iff.mp hseed).1
    rw [List.length_take] at hlt
    omega
  have hstart : seed.codepointStart = p := by
    have hmem := List.mem_of_getElem? hseed
    rw [hsegment, List.mem_filter, decide_eq_true_eq] at hmem
    exact hmem.2
  rw [List.getElem?_take_of_lt hk, List.getElem?_drop] at hseed
  refine ⟨seed, segmentStart (·.codepointStart) p bld.seeds + k, ?_, rfl, ?_⟩
  · rw [seeds_prepare hmax]
    exact hseed
  · unfold endPtr
    have hcount := hstarts p
    rw [hstart, hat]
    simp only [Nat.add_sub_cancel_left]
    rw [u16_of_lt (by omega), u16_of_lt (by omega)]

theorem holdsSeeds_prepare {bnds : List LatticeBoundary}
    (hbuilt : bld.prepare.buildLattice n = .ok bnds) : HoldsSeeds n bld.seeds bnds := by
  have hsized := sized_prepare hmax hseeds hn
  have hat := fun {b : Nat} (hb : b < n + 3) => (hsized.boundaryAt_bnds hbuilt hb).1
  have hnone : ∀ b ≤ 2, bld.prepare.seedEnds bld.prepare.seeds.zipIdx b = [] := by
    intro b hb
    rw [List.eq_nil_iff_forall_not_mem]
    intro ptr hptr
    obtain ⟨seed, i, hseed, -, hend, -⟩ := mem_seedEnds.mp hptr
    have hpos := hsized.seeds seed (List.mem_of_getElem? hseed)
    omega
  refine ⟨length_of_buildLattice hbuilt, ?_, ?_, ?_, ?_, ?_, ?_, ?_⟩
  · intro b hb
    rw [hat (by omega)]
    exact if_pos hb
  · intro p hp
    rw [hat (by omega)]
    simp only [nodeInfoAt]
    rw [if_neg (by omega), if_pos (by omega), Nat.add_sub_cancel]
    exact nodesAt_prepare hmax hseeds hsorted hstarts hends hp
  · rw [hat (by omega)]
    simp only [nodeInfoAt]
    rw [if_neg (by omega), if_neg (by omega)]
  · rw [hat (by omega), hat (by omega), hat (by omega), hnone 0 (by omega), hnone 1 (by omega),
      hnone 2 (by omega)]
    exact ⟨rfl, rfl, rfl⟩
  · intro p hpos hp
    rw [hat (by omega), seeds_prepare hmax, ← length_seedEnds hseeds bld.prepare]
    have hbos : LatticeBuilder.bosEnds (p + 2) = [] := by
      unfold LatticeBuilder.bosEnds
      rw [if_neg (by omega), if_neg (by omega)]
      rfl
    rw [hbos]
    rfl
  · intro b
    by_cases hb : b < n + 3
    · exact hsized.nodup_ends hbuilt hb
    · have hlength := length_of_buildLattice hbuilt
      unfold boundaryAt
      rw [List.getD_eq_getElem?_getD, List.getElem?_eq_none (by omega)]
      exact List.nodup_nil
  · intro p hpos hp ptr
    rw [hsized.mem_ends hbuilt (by omega)]
    constructor
    · rintro (⟨hone, -⟩ | ⟨htwo, -⟩ | ⟨seed, i, hseed, hend, rfl⟩)
      · omega
      · omega
      · have hspec := hsized.endPtr_spec hbuilt hseed
        have hstart := hsized.seeds seed (List.mem_of_getElem? hseed)
        obtain ⟨htwo, hboundary, -, -, hinfo⟩ := hspec
        exact ⟨⟨htwo, by omega⟩, _, hinfo, Nat.add_right_cancel hend⟩
    · rintro ⟨⟨htwo, hlt⟩, info, hinfo, hend⟩
      rw [hat (by omega)] at hinfo
      simp only [nodeInfoAt, if_neg (by omega : ¬ptr.boundary < 2), if_pos hlt] at hinfo
      obtain ⟨seed, i, hseed, hinfoEnd, hptr⟩ :=
        exists_endPtr hn hmax hseeds hsorted hstarts hends (by omega) hinfo
      refine .inr (.inr ⟨seed, i, hseed, by omega, ?_⟩)
      rw [hptr, Nat.sub_add_cancel htwo]

end Built

end LatticeBuilder

end Jumanpp.Core.Analysis
