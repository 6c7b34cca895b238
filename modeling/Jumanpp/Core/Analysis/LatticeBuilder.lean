import Jumanpp.Core.Analysis.LatticeTypes
import Jumanpp.Lib.Loops
import Mathlib.Data.List.Sort

/-!
# The lattice builder

Node seeds are checked for a chain from the beginning of the input to its end, counted by the
positions where they start and end, and turned into the boundaries of the lattice: two of BOS, one
for each code point and one of EOS.
-/

namespace Jumanpp.Core.Analysis

open Jumanpp.Lib

/-- An error status, or undefined behaviour (in a debug build an assertion that does not hold). -/
inductive Failure
  | status (message : String)
  | undefined
deriving DecidableEq

structure LatticeNodeSeed where
  entryPtr : EntryPtr
  codepointStart : Nat
  codepointEnd : Nat
deriving DecidableEq

structure BoundaryInfo where
  number : Nat
  startCount : Nat
  endCount : Nat
  firstNodeOffset : Nat
deriving DecidableEq

structure LatticeBoundaryConfig where
  boundary : Nat
  endNodes : Nat
  beginNodes : Nat

/-- A boundary under construction: the array of its ending nodes has `endNodes` places, of which
`currentEnding_` are filled. -/
structure OpenBoundary where
  cfg : LatticeBoundaryConfig
  nodeInfo : List NodeInfo
  ends : List LatticeNodePtr

def OpenBoundary.close (bnd : OpenBoundary) : LatticeBoundary :=
  ⟨bnd.nodeInfo, bnd.ends⟩

/-- `boundary(idx)->addEnd(nodePtr)`. -/
def addEnd (bnds : List OpenBoundary) (idx : Nat) (nodePtr : LatticeNodePtr) :
    Except Failure (List OpenBoundary) :=
  match bnds[idx]? with
  | none => .error .undefined
  | some bnd =>
      if bnd.ends.length < bnd.cfg.endNodes then
        .ok (bnds.set idx { bnd with ends := bnd.ends ++ [nodePtr] })
      else .error .undefined

structure LatticeBuilder where
  seeds : List LatticeNodeSeed
  boundaries : List BoundaryInfo
  connectible : List Bool
  maxBoundaries : Nat

namespace LatticeBuilder

variable (bld : LatticeBuilder)

def reset (maxCodepoints : Nat) : LatticeBuilder :=
  { bld with seeds := [], boundaries := [], maxBoundaries := u16 (maxCodepoints + 1) }

def appendSeeds (seeds : List LatticeNodeSeed) : LatticeBuilder :=
  { bld with seeds := bld.seeds ++ seeds }

/-- `std::stable_sort` by the start position. -/
def sortSeeds : LatticeBuilder :=
  { bld with seeds := bld.seeds.insertionSort fun l r => l.codepointStart ≤ r.codepointStart }

def connectSeed (connectible : List Bool) (s : LatticeNodeSeed) : List Bool :=
  if connectible.getD s.codepointStart false then connectible.set s.codepointEnd true
  else connectible

def checkConnectability : Except Failure (Bool × LatticeBuilder) :=
  let bld := bld.sortSeeds
  -- the vector is empty when the number of boundaries has wrapped to 0
  if bld.maxBoundaries = 0 then .error .undefined
  else
    let connectible := bld.seeds.foldl connectSeed
      ((List.replicate bld.maxBoundaries false).set 0 true)
    .ok (connectible.getLastD false, { bld with connectible := connectible })

def countSeed (boundaries : List BoundaryInfo) (seed : LatticeNodeSeed) : List BoundaryInfo :=
  (boundaries.modify seed.codepointStart fun b =>
      { b with startCount := u16 (b.startCount + 1) }).modify seed.codepointEnd fun b =>
    { b with endCount := u16 (b.endCount + 1) }

/-- The last loop of `prepare`, from the boundary `i` on. -/
def numberBoundaries : Nat → Nat → List BoundaryInfo → List BoundaryInfo
  | _, _, [] => []
  | i, offset, b :: bs =>
      { b with number := u16 i, firstNodeOffset := offset } ::
        numberBoundaries (i + 1) (offset + b.startCount) bs

def prepare : LatticeBuilder :=
  if bld.maxBoundaries = 0 then bld
  else
    let boundaries := List.replicate bld.maxBoundaries (⟨0, 0, 0, 0⟩ : BoundaryInfo)
    -- BOS and EOS
    let boundaries := boundaries.modify 0 fun b => { b with endCount := 1 }
    let boundaries := boundaries.modify (bld.maxBoundaries - 1) fun b => { b with startCount := 1 }
    { bld with boundaries := numberBoundaries 0 0 (bld.seeds.foldl countSeed boundaries) }

def infoAt (boundary : Nat) : BoundaryInfo :=
  bld.boundaries.getD boundary ⟨0, 0, 0, 0⟩

def makeBos (lattice : List OpenBoundary) : List OpenBoundary :=
  lattice ++ [⟨⟨0, 0, 1⟩, [⟨EntryPtr.BOS, 0, 0⟩], []⟩, ⟨⟨1, 1, 1⟩, [⟨EntryPtr.BOS, 0, 0⟩], []⟩]

/-- The nodes that start at a position. -/
def nodesAt (boundaryIdx : Nat) : List NodeInfo :=
  let bndInfo := bld.infoAt boundaryIdx
  ((bld.seeds.drop bndInfo.firstNodeOffset).take bndInfo.startCount).map fun seed =>
    ⟨seed.entryPtr, seed.codepointStart, seed.codepointEnd⟩

def constructSingleBoundary (lattice : List OpenBoundary) (boundaryIdx : Nat) :
    List OpenBoundary :=
  let bndInfo := bld.infoAt boundaryIdx
  lattice ++ [⟨⟨boundaryIdx + 2, bndInfo.endCount, bndInfo.startCount⟩, bld.nodesAt boundaryIdx, []⟩]

def makeEos (lattice : List OpenBoundary) : List OpenBoundary :=
  let eosIdx := bld.maxBoundaries - 1
  lattice ++ [⟨⟨bld.maxBoundaries + 2, (bld.infoAt eosIdx).endCount, 1⟩,
    [⟨EntryPtr.EOS, eosIdx, eosIdx⟩], []⟩]

/-- The pointer to the node of the seed with index `i`. -/
def endPtr (seed : LatticeNodeSeed) (i : Nat) : LatticeNodePtr :=
  ⟨u16 (seed.codepointStart + 2), u16 (i - (bld.infoAt seed.codepointStart).firstNodeOffset)⟩

def fillSeedEnds : List (LatticeNodeSeed × Nat) → List OpenBoundary →
    Except Failure (List OpenBoundary)
  | [], lattice => .ok lattice
  | (seed, i) :: seeds, lattice =>
      if seed.codepointStart = seed.codepointEnd then fillSeedEnds seeds lattice
      else do
        let binfo := bld.infoAt seed.codepointStart
        -- the offset of the node at its boundary
        if binfo.firstNodeOffset ≤ i ∧ i < binfo.firstNodeOffset + binfo.startCount then
          let lattice ← addEnd lattice (seed.codepointEnd + 2) (bld.endPtr seed i)
          fillSeedEnds seeds lattice
        else .error .undefined

def fillEnds (lattice : List OpenBoundary) : Except Failure (List OpenBoundary) := do
  let lattice ← addEnd lattice 1 ⟨0, 0⟩
  let lattice ← addEnd lattice 2 ⟨1, 0⟩
  bld.fillSeedEnds bld.seeds.zipIdx lattice

/-- `AnalyzerImpl::prepareNodeSeeds`, with the seeds of each stage. -/
def prepareNodeSeeds (stage1 stage2 : List LatticeNodeSeed) : Except Failure LatticeBuilder := do
  let (connected, bld) ← (bld.appendSeeds stage1).checkConnectability
  if connected then .ok bld.prepare
  else
    let (connected, bld) ← (bld.appendSeeds stage2).checkConnectability
    if connected then .ok bld.prepare else .error (.status "could not build lattice")

/-- `AnalyzerImpl::buildLattice`. -/
def buildLattice (totalBnds : Nat) : Except Failure (List LatticeBoundary) := do
  let lattice := makeBos []
  let lattice := (List.range totalBnds).foldl bld.constructSingleBoundary lattice
  let lattice := bld.makeEos lattice
  let lattice ← bld.fillEnds lattice
  .ok (lattice.map OpenBoundary.close)

end LatticeBuilder

/-- A lattice for an input of `numCodepoints` code points and the seeds made for it. -/
def latticeOf (bld : LatticeBuilder) (numCodepoints : Nat) (stage1 stage2 : List LatticeNodeSeed) :
    Except Failure (List LatticeBoundary) := do
  let bld ← (bld.reset numCodepoints).prepareNodeSeeds stage1 stage2
  bld.buildLattice numCodepoints

/-- The positions that a chain of seeds leads to from the beginning of the input. -/
inductive Reaches (seeds : List LatticeNodeSeed) : Nat → Prop
  | start : Reaches seeds 0
  | step {s : LatticeNodeSeed} (hs : s ∈ seeds) (hstart : Reaches seeds s.codepointStart) :
      Reaches seeds s.codepointEnd

/-- The ends of each boundary grow by the pointers added to them. -/
def appendEnds (added : Nat → List LatticeNodePtr) (lattice : List OpenBoundary) :
    List OpenBoundary :=
  lattice.mapIdx fun b bnd => { bnd with ends := bnd.ends ++ added b }

theorem appendEnds_appendEnds (added added' : Nat → List LatticeNodePtr)
    (lattice : List OpenBoundary) :
    appendEnds added' (appendEnds added lattice) =
      appendEnds (fun b => added b ++ added' b) lattice := by
  unfold appendEnds
  rw [List.mapIdx_mapIdx]
  simp only [Function.comp_def, List.append_assoc]

theorem appendEnds_nil (lattice : List OpenBoundary) : appendEnds (fun _ => []) lattice = lattice := by
  unfold appendEnds
  ext1 b
  simp

/-- No array of ending nodes is overfull. -/
def Room (lattice : List OpenBoundary) : Prop :=
  ∀ bnd ∈ lattice, bnd.ends.length ≤ bnd.cfg.endNodes

theorem addEnd_ok {lattice lattice' : List OpenBoundary} {idx : Nat} {ptr : LatticeNodePtr}
    (h : addEnd lattice idx ptr = .ok lattice') :
    lattice' = appendEnds (fun b => if b = idx then [ptr] else []) lattice ∧
      (Room lattice → Room lattice') := by
  unfold addEnd at h
  split at h
  next => cases h
  next bnd hbnd =>
    split at h
    next hroom =>
      cases h
      constructor
      · unfold appendEnds
        ext1 b
        rw [List.getElem?_mapIdx, List.getElem?_set]
        by_cases hb : idx = b
        · subst hb
          obtain ⟨hlt, rfl⟩ := List.getElem?_eq_some_iff.mp hbnd
          simp [hlt]
        · rw [if_neg hb]
          simp only [Ne.symm hb, ↓reduceIte, List.append_nil, Option.map_id']
      · intro hall bnd' hbnd'
        obtain hold | rfl := List.mem_or_eq_of_mem_set hbnd'
        · exact hall bnd' hold
        · simp only [List.length_append, List.length_singleton]
          omega
    next => cases h

namespace LatticeBuilder

variable {bld : LatticeBuilder}

/-- The pointers to the nodes of the seeds that end at the boundary `b`. -/
def seedEnds (bld : LatticeBuilder) (seeds : List (LatticeNodeSeed × Nat)) (b : Nat) :
    List LatticeNodePtr :=
  (seeds.filter fun (seed, _) =>
    decide (seed.codepointStart ≠ seed.codepointEnd ∧ seed.codepointEnd + 2 = b)).map
      fun (seed, i) => bld.endPtr seed i

/-- The seed with index `i` has its place among the nodes of its boundary. -/
def HasPlace (bld : LatticeBuilder) (seed : LatticeNodeSeed) (i : Nat) : Prop :=
  (bld.infoAt seed.codepointStart).firstNodeOffset ≤ i ∧
    i < (bld.infoAt seed.codepointStart).firstNodeOffset +
      (bld.infoAt seed.codepointStart).startCount

theorem fillSeedEnds_ok {seeds : List (LatticeNodeSeed × Nat)} {lattice lattice' : List OpenBoundary}
    (h : bld.fillSeedEnds seeds lattice = .ok lattice') :
    lattice' = appendEnds (bld.seedEnds seeds) lattice ∧ (Room lattice → Room lattice') ∧
      ∀ seed i, (seed, i) ∈ seeds → seed.codepointStart ≠ seed.codepointEnd →
        bld.HasPlace seed i := by
  induction seeds generalizing lattice with
  | nil =>
      cases h
      exact ⟨(appendEnds_nil _).symm, id, fun _ _ h => (nomatch h)⟩
  | cons head seeds ih =>
      obtain ⟨seed, i⟩ := head
      unfold fillSeedEnds at h
      split at h
      next herased =>
        obtain ⟨rfl, hroom, hplace⟩ := ih h
        refine ⟨?_, hroom, ?_⟩
        · congr 1
          funext b
          unfold seedEnds
          rw [List.filter_cons_of_neg (by simp [herased])]
        · intro seed' i' hmem hne
          obtain heq | hmem := List.mem_cons.mp hmem
          · obtain ⟨rfl, rfl⟩ := Prod.mk.inj heq
            exact absurd herased hne
          · exact hplace seed' i' hmem hne
      next hlive =>
        simp only at h
        split at h
        next hin =>
          obtain ⟨middle, hadd, hrest⟩ := bind_ok h
          obtain ⟨rfl, hroom⟩ := addEnd_ok hadd
          obtain ⟨rfl, hroom', hplace⟩ := ih hrest
          refine ⟨?_, fun hall => hroom' (hroom hall), ?_⟩
          · rw [appendEnds_appendEnds]
            congr 1
            funext b
            unfold seedEnds
            by_cases hb : b = seed.codepointEnd + 2
            · rw [if_pos hb, List.filter_cons_of_pos (by simp [hlive, hb])]
              rfl
            · rw [if_neg hb, List.filter_cons_of_neg (by simp [Ne.symm hb])]
              rfl
          · intro seed' i' hmem hne
            obtain heq | hmem := List.mem_cons.mp hmem
            · obtain ⟨rfl, rfl⟩ := Prod.mk.inj heq
              exact hin
            · exact hplace seed' i' hmem hne
        next => cases h

/-- The boundaries before any ends are filled. -/
def opened (bld : LatticeBuilder) (totalBnds : Nat) : List OpenBoundary :=
  bld.makeEos ((List.range totalBnds).foldl bld.constructSingleBoundary (makeBos []))

theorem opened_eq (totalBnds : Nat) :
    bld.opened totalBnds = makeBos [] ++ (List.range totalBnds).map (fun i =>
      (⟨⟨i + 2, (bld.infoAt i).endCount, (bld.infoAt i).startCount⟩, bld.nodesAt i, []⟩ :
        OpenBoundary)) ++ bld.makeEos [] := by
  unfold opened makeEos constructSingleBoundary
  simp only [List.foldl_append_eq_append, ← List.flatMap_def, ← List.map_eq_flatMap, List.nil_append]

/-- The first two pointers are those to BOS. -/
def bosEnds (b : Nat) : List LatticeNodePtr :=
  (if b = 1 then [⟨0, 0⟩] else []) ++ if b = 2 then [⟨1, 0⟩] else []

theorem buildLattice_ok {totalBnds : Nat} {bnds : List LatticeBoundary}
    (h : bld.buildLattice totalBnds = .ok bnds) :
    bnds = (appendEnds (fun b => bosEnds b ++ bld.seedEnds bld.seeds.zipIdx b)
        (bld.opened totalBnds)).map OpenBoundary.close ∧
      Room (appendEnds (fun b => bosEnds b ++ bld.seedEnds bld.seeds.zipIdx b)
        (bld.opened totalBnds)) ∧
      ∀ seed i, (seed, i) ∈ bld.seeds.zipIdx → seed.codepointStart ≠ seed.codepointEnd →
        bld.HasPlace seed i := by
  obtain ⟨lattice, hfill, hclose⟩ := bind_ok h
  obtain ⟨lattice1, hadd1, hfill⟩ := bind_ok hfill
  obtain ⟨lattice2, hadd2, hfill⟩ := bind_ok hfill
  obtain ⟨rfl, hroom1⟩ := addEnd_ok hadd1
  obtain ⟨rfl, hroom2⟩ := addEnd_ok hadd2
  obtain ⟨rfl, hroom, hplace⟩ := fillSeedEnds_ok hfill
  rw [appendEnds_appendEnds] at hclose hroom hroom2
  rw [appendEnds_appendEnds] at hclose hroom
  simp only [← List.append_assoc] at hclose hroom
  have hempty : Room (bld.opened totalBnds) := by
    intro bnd hbnd
    rw [opened_eq] at hbnd
    simp only [makeBos, makeEos, List.nil_append, List.mem_append, List.mem_cons, List.mem_map,
      List.not_mem_nil, or_false] at hbnd
    obtain ((rfl | rfl) | ⟨i, -, rfl⟩) | rfl := hbnd <;> exact Nat.zero_le _
  exact ⟨(Except.ok.inj hclose).symm, hroom (hroom2 (hroom1 hempty)), hplace⟩

theorem length_foldl_connectSeed (seeds : List LatticeNodeSeed) (connectible : List Bool) :
    (seeds.foldl connectSeed connectible).length = connectible.length := by
  induction seeds generalizing connectible with
  | nil => rfl
  | cons s seeds ih =>
      rw [List.foldl_cons, ih]
      unfold connectSeed
      split
      · rw [List.length_set]
      · rfl

/-- Only positions that a chain leads to are marked. -/
theorem reaches_of_foldl_connectSeed {all seeds : List LatticeNodeSeed} (hseeds : seeds ⊆ all)
    {connectible : List Bool} (hconn : ∀ p, connectible.getD p false = true → Reaches all p) (p : Nat)
    (hp : (seeds.foldl connectSeed connectible).getD p false = true) : Reaches all p := by
  induction seeds generalizing connectible with
  | nil => exact hconn p hp
  | cons s seeds ih =>
      rw [List.foldl_cons] at hp
      refine ih (fun _ h => hseeds (List.mem_cons_of_mem _ h)) ?_ hp
      intro p hp
      unfold connectSeed at hp
      split at hp
      next hstart =>
        by_cases hend : p = s.codepointEnd
        · rw [hend]
          exact .step (hseeds (List.mem_cons_self ..)) (hconn _ hstart)
        · rw [List.getD_eq_getElem?_getD, List.getElem?_set_ne (Ne.symm hend),
            ← List.getD_eq_getElem?_getD] at hp
          exact hconn p hp
      next => exact hconn p hp

theorem checkConnectability_ok {connected : Bool} {bld' : LatticeBuilder}
    (h : bld.checkConnectability = .ok (connected, bld')) :
    bld'.seeds.Perm bld.seeds ∧ bld'.maxBoundaries = bld.maxBoundaries ∧ 0 < bld.maxBoundaries ∧
      (connected = true → Reaches bld'.seeds (bld.maxBoundaries - 1)) := by
  unfold checkConnectability at h
  simp only at h
  split at h
  next => cases h
  next hmax =>
    obtain ⟨rfl, rfl⟩ := Prod.mk.inj (Except.ok.inj h)
    refine ⟨List.perm_insertionSort _ _, rfl, Nat.pos_of_ne_zero hmax, fun hlast => ?_⟩
    let init := (List.replicate bld.maxBoundaries false).set 0 true
    have hinit : ∀ p, init.getD p false = true → Reaches bld.sortSeeds.seeds p := by
      intro p hp
      by_cases hzero : p = 0
      · rw [hzero]
        exact .start
      · rw [List.getD_eq_getElem?_getD, List.getElem?_set_ne (Ne.symm hzero),
          List.getElem?_replicate] at hp
        split at hp <;> cases hp
    have hlength : (bld.sortSeeds.seeds.foldl connectSeed init).length = bld.maxBoundaries := by
      rw [length_foldl_connectSeed, List.length_set, List.length_replicate]
    refine reaches_of_foldl_connectSeed (List.Subset.refl _) hinit _ ?_
    change (bld.sortSeeds.seeds.foldl connectSeed init).getLastD false = true at hlast
    rw [List.getLastD_eq_getLast?, List.getLast?_eq_getElem?, hlength] at hlast
    rw [List.getD_eq_getElem?_getD]
    exact hlast

theorem forall_mem_modify {α : Type} {p : α → Prop} {f : α → α} (hf : ∀ x, p x → p (f x))
    {l : List α} (hl : ∀ x ∈ l, p x) (i : Nat) : ∀ x ∈ l.modify i f, p x := by
  induction l generalizing i with
  | nil => simp
  | cons y l ih =>
      have hl' : ∀ x ∈ l, p x := fun x hx => hl x (List.mem_cons_of_mem _ hx)
      have hy := hl y (List.mem_cons_self ..)
      cases i with
      | zero =>
          intro x hx
          obtain rfl | hx := List.mem_cons.mp hx
          · exact hf y hy
          · exact hl' x hx
      | succ i =>
          intro x hx
          obtain rfl | hx := List.mem_cons.mp hx
          · exact hy
          · exact ih hl' i x hx

/-- The counters of a boundary are `u16`. -/
def BoundaryInfo.Counts (b : BoundaryInfo) : Prop :=
  b.startCount < 2 ^ 16 ∧ b.endCount < 2 ^ 16

theorem counts_numberBoundaries {boundaries : List BoundaryInfo}
    (h : ∀ b ∈ boundaries, BoundaryInfo.Counts b) (i offset : Nat) :
    ∀ b ∈ numberBoundaries i offset boundaries, BoundaryInfo.Counts b := by
  induction boundaries generalizing i offset with
  | nil => exact h
  | cons b boundaries ih =>
      intro b' hb'
      obtain rfl | hb' := List.mem_cons.mp hb'
      · exact h b (List.mem_cons_self ..)
      · exact ih (fun b hb => h b (List.mem_cons_of_mem _ hb)) _ _ b' hb'

theorem counts_foldl_countSeed {boundaries : List BoundaryInfo}
    (h : ∀ b ∈ boundaries, BoundaryInfo.Counts b) (seeds : List LatticeNodeSeed) :
    ∀ b ∈ seeds.foldl countSeed boundaries, BoundaryInfo.Counts b := by
  have hu16 : ∀ c, u16 c < 2 ^ 16 := fun c => Nat.mod_lt c (by decide)
  induction seeds generalizing boundaries with
  | nil => exact h
  | cons seed seeds ih =>
      refine ih (forall_mem_modify ?_ (forall_mem_modify ?_ h _) _)
      · exact fun b hb => ⟨hb.1, hu16 _⟩
      · exact fun b hb => ⟨hu16 _, hb.2⟩

theorem counts_prepare (hmax : 0 < bld.maxBoundaries) :
    ∀ b ∈ bld.prepare.boundaries, BoundaryInfo.Counts b := by
  unfold prepare
  rw [if_neg (Nat.ne_of_gt hmax)]
  refine counts_numberBoundaries (counts_foldl_countSeed ?_ _) 0 0
  refine forall_mem_modify ?_ (forall_mem_modify ?_ ?_ _) _
  · exact fun b hb => ⟨Nat.one_lt_two_pow (by decide), hb.2⟩
  · exact fun b hb => ⟨hb.1, Nat.one_lt_two_pow (by decide)⟩
  · intro b hb
    rw [List.eq_of_mem_replicate hb]
    exact ⟨by decide, by decide⟩

/-- Boundaries counted for an input of `n` code points, with none of its numbers wrapped. -/
structure Sized (bld : LatticeBuilder) (n : Nat) : Prop where
  max : bld.maxBoundaries = n + 1
  max_u16 : n + 1 < 2 ^ 16
  seeds : ∀ s ∈ bld.seeds, s.codepointStart < s.codepointEnd ∧ s.codepointEnd ≤ n
  counts : ∀ i, (bld.infoAt i).startCount < 2 ^ 16 ∧ (bld.infoAt i).endCount < 2 ^ 16

/-- The builder when the boundaries are made: an accepted input of `n` code points, its seeds, and a
chain of seeds through it. -/
structure Prepared (bld : LatticeBuilder) (n : Nat) : Prop where
  pos : 0 < n
  max : bld.maxBoundaries = n + 1
  max_u16 : n + 1 < 2 ^ 16
  seeds : ∀ s ∈ bld.seeds, s.codepointStart < s.codepointEnd ∧ s.codepointEnd ≤ n
  counts : ∀ i, (bld.infoAt i).startCount < 2 ^ 16 ∧ (bld.infoAt i).endCount < 2 ^ 16
  connected : Reaches bld.seeds n

theorem Prepared.sized {n : Nat} (h : bld.Prepared n) : bld.Sized n :=
  ⟨h.max, h.max_u16, h.seeds, h.counts⟩

theorem prepared_of_checkConnectability {n : Nat} (hn : 0 < n) (hn16 : n < 2 ^ 16)
    (hmax : bld.maxBoundaries = u16 (n + 1))
    (hseeds : ∀ s ∈ bld.seeds, s.codepointStart < s.codepointEnd ∧ s.codepointEnd ≤ n)
    {bld' : LatticeBuilder} (h : bld.checkConnectability = .ok (true, bld')) :
    bld'.prepare.Prepared n := by
  obtain ⟨hperm, hmax', hpos, hreaches⟩ := checkConnectability_ok h
  -- a number of boundaries that wraps to 0 has been ruled out
  have hlt : n + 1 < 2 ^ 16 := by
    by_contra hge
    have hwrap : n + 1 = 2 ^ 16 := by omega
    rw [hmax, hwrap] at hpos
    exact absurd hpos (by decide)
  have hmaxN : bld.maxBoundaries = n + 1 := by rw [hmax, u16_of_lt hlt]
  have hprepare : bld'.prepare.seeds = bld'.seeds ∧
      bld'.prepare.maxBoundaries = bld'.maxBoundaries := by
    unfold prepare
    split <;> exact ⟨rfl, rfl⟩
  have hcounts : ∀ b ∈ bld'.prepare.boundaries, BoundaryInfo.Counts b :=
    counts_prepare (by omega)
  refine ⟨hn, by omega, hlt, ?_, ?_, ?_⟩
  · intro s hs
    rw [hprepare.1] at hs
    exact hseeds s (hperm.subset hs)
  · intro i
    unfold infoAt
    rw [List.getD_eq_getElem?_getD]
    cases hi : bld'.prepare.boundaries[i]? with
    | none => exact ⟨by decide, by decide⟩
    | some b => exact hcounts b (List.mem_of_getElem? hi)
  · rw [hprepare.1]
    have hend := hreaches rfl
    rw [hmaxN] at hend
    exact hend

theorem prepareNodeSeeds_ok {n : Nat} (hn : 0 < n) (hn16 : n < 2 ^ 16)
    {stage1 stage2 : List LatticeNodeSeed}
    (hseeds : ∀ s ∈ stage1 ++ stage2, s.codepointStart < s.codepointEnd ∧ s.codepointEnd ≤ n)
    {bld' : LatticeBuilder} (h : (bld.reset n).prepareNodeSeeds stage1 stage2 = .ok bld') :
    bld'.Prepared n := by
  obtain ⟨⟨connected, bld1⟩, hcheck, h⟩ := bind_ok h
  have hstage1 : ∀ s ∈ ((bld.reset n).appendSeeds stage1).seeds,
      s.codepointStart < s.codepointEnd ∧ s.codepointEnd ≤ n :=
    fun s hs => hseeds s (List.mem_append_left _ hs)
  cases connected with
  | true =>
      cases h
      exact prepared_of_checkConnectability hn hn16 rfl hstage1 hcheck
  | false =>
      obtain ⟨⟨connected, bld2⟩, hcheck2, h⟩ := bind_ok h
      obtain ⟨hperm, hmax, -, -⟩ := checkConnectability_ok hcheck
      cases connected with
      | false => cases h
      | true =>
          cases h
          have hmax2 : (bld1.appendSeeds stage2).maxBoundaries = u16 (n + 1) := hmax
          refine prepared_of_checkConnectability hn hn16 hmax2 (fun s hs => ?_) hcheck2
          change s ∈ bld1.seeds ++ stage2 at hs
          obtain hs | hs := List.mem_append.mp hs
          · exact hstage1 s (hperm.subset hs)
          · exact hseeds s (List.mem_append_right _ hs)

section Built

variable {n : Nat} {bnds : List LatticeBoundary} (hbld : bld.Sized n)
  (hbuilt : bld.buildLattice n = .ok bnds)

include hbld

/-- The nodes of each boundary. -/
def nodeInfoAt (bld : LatticeBuilder) (n b : Nat) : List NodeInfo :=
  if b < 2 then [⟨EntryPtr.BOS, 0, 0⟩]
  else if b < n + 2 then bld.nodesAt (b - 2)
  else [⟨EntryPtr.EOS, n, n⟩]

theorem Sized.getElem?_opened {b : Nat} (hb : b < n + 3) :
    ∃ cfg, cfg.endNodes < 2 ^ 16 ∧
      (bld.opened n)[b]? = some ⟨cfg, bld.nodeInfoAt n b, []⟩ := by
  have hmax := hbld.max
  have hbos : (makeBos []).length = 2 := rfl
  rw [opened_eq]
  unfold nodeInfoAt
  by_cases hlow : b < 2
  · rw [List.append_assoc, List.getElem?_append_left (by omega)]
    rw [if_pos hlow]
    obtain rfl | rfl : b = 0 ∨ b = 1 := by omega
    · exact ⟨⟨0, 0, 1⟩, by decide, rfl⟩
    · exact ⟨⟨1, 1, 1⟩, by decide, rfl⟩
  · rw [if_neg hlow]
    by_cases hmid : b < n + 2
    · rw [if_pos hmid, List.getElem?_append_left (by simp [hbos]; omega),
        List.getElem?_append_right (by omega), hbos, List.getElem?_map,
        List.getElem?_range (by omega)]
      exact ⟨_, (hbld.counts (b - 2)).2, rfl⟩
    · rw [if_neg hmid, List.getElem?_append_right (by simp [hbos]; omega)]
      obtain rfl : b = n + 2 := by omega
      have hzero : n + 2 - (makeBos [] ++ (List.range n).map (fun i =>
          (⟨⟨i + 2, (bld.infoAt i).endCount, (bld.infoAt i).startCount⟩, bld.nodesAt i, []⟩ :
            OpenBoundary))).length = 0 := by
        simp [hbos]
        omega
      rw [hzero]
      unfold makeEos
      rw [hmax]
      exact ⟨_, (hbld.counts n).2, rfl⟩

omit hbld in
theorem length_opened : (bld.opened n).length = n + 3 := by
  rw [opened_eq]
  simp [makeBos, makeEos]

include hbuilt

omit hbld in
theorem length_of_buildLattice : bnds.length = n + 3 := by
  obtain ⟨rfl, -⟩ := buildLattice_ok hbuilt
  unfold appendEnds
  rw [List.length_map, List.length_mapIdx, length_opened]

theorem Sized.boundaryAt_bnds {b : Nat} (hb : b < n + 3) :
    boundaryAt bnds b = ⟨bld.nodeInfoAt n b, bosEnds b ++ bld.seedEnds bld.seeds.zipIdx b⟩ ∧
      (boundaryAt bnds b).ends.length < 2 ^ 16 := by
  obtain ⟨cfg, hcfg, hopened⟩ := hbld.getElem?_opened hb
  obtain ⟨rfl, hroom, -⟩ := buildLattice_ok hbuilt
  have hget : (appendEnds (fun b => bosEnds b ++ bld.seedEnds bld.seeds.zipIdx b)
      (bld.opened n))[b]? = some ⟨cfg, bld.nodeInfoAt n b,
        bosEnds b ++ bld.seedEnds bld.seeds.zipIdx b⟩ := by
    unfold appendEnds
    rw [List.getElem?_mapIdx, hopened]
    rfl
  have hboundary : boundaryAt ((appendEnds
      (fun b => bosEnds b ++ bld.seedEnds bld.seeds.zipIdx b) (bld.opened n)).map
        OpenBoundary.close) b =
      ⟨bld.nodeInfoAt n b, bosEnds b ++ bld.seedEnds bld.seeds.zipIdx b⟩ := by
    unfold boundaryAt
    rw [List.getD_eq_getElem?_getD, List.getElem?_map, hget]
    rfl
  refine ⟨hboundary, ?_⟩
  rw [hboundary]
  have hends := hroom _ (List.mem_of_getElem? hget)
  exact lt_of_le_of_lt hends hcfg

omit hbld hbuilt in
theorem mem_seedEnds {b : Nat} {ptr : LatticeNodePtr} :
    ptr ∈ bld.seedEnds bld.seeds.zipIdx b ↔ ∃ seed i, bld.seeds[i]? = some seed ∧
      seed.codepointStart ≠ seed.codepointEnd ∧ seed.codepointEnd + 2 = b ∧
        ptr = bld.endPtr seed i := by
  unfold seedEnds
  simp only [List.mem_map, List.mem_filter, Prod.exists, decide_eq_true_eq,
    List.mk_mem_zipIdx_iff_getElem?]
  constructor
  · rintro ⟨seed, i, ⟨hseed, hne, hb⟩, rfl⟩
    exact ⟨seed, i, hseed, hne, hb, rfl⟩
  · rintro ⟨seed, i, hseed, hne, hb, rfl⟩
    exact ⟨seed, i, ⟨hseed, hne, hb⟩, rfl⟩

/-- The pointer made for a seed leads to the node made for it. -/
theorem Sized.endPtr_spec {seed : LatticeNodeSeed} {i : Nat}
    (hseed : bld.seeds[i]? = some seed) :
    2 ≤ (bld.endPtr seed i).boundary ∧ (bld.endPtr seed i).boundary = seed.codepointStart + 2 ∧
      (bld.infoAt seed.codepointStart).firstNodeOffset + (bld.endPtr seed i).position = i ∧
      (bld.endPtr seed i).position < 2 ^ 16 ∧
      (boundaryAt bnds (bld.endPtr seed i).boundary).nodeInfo[(bld.endPtr seed i).position]? =
        some ⟨seed.entryPtr, seed.codepointStart, seed.codepointEnd⟩ := by
  obtain ⟨hstart, hend⟩ := hbld.seeds seed (List.mem_of_getElem? hseed)
  have hcount := (hbld.counts seed.codepointStart).1
  have hn16 := hbld.max_u16
  obtain ⟨-, -, hplaces⟩ := buildLattice_ok hbuilt
  have hplace := hplaces seed i (by rw [List.mk_mem_zipIdx_iff_getElem?]; exact hseed) (by omega)
  unfold HasPlace at hplace
  have hboundary : (bld.endPtr seed i).boundary = seed.codepointStart + 2 :=
    u16_of_lt (by omega)
  have hposition : (bld.endPtr seed i).position =
      i - (bld.infoAt seed.codepointStart).firstNodeOffset :=
    u16_of_lt (by omega)
  refine ⟨by omega, hboundary, by omega, by omega, ?_⟩
  rw [(hbld.boundaryAt_bnds hbuilt (by omega)).1, hboundary, hposition]
  unfold nodeInfoAt nodesAt
  rw [if_neg (by omega), if_pos (by omega)]
  simp only [Nat.add_sub_cancel, List.getElem?_map]
  rw [List.getElem?_take_of_lt (by omega), List.getElem?_drop,
    Nat.add_sub_cancel' hplace.1, hseed]
  rfl

/-- The pointers to the nodes that end at a boundary of the input are those of its seeds. -/
theorem Sized.mem_ends {b : Nat} (hb : b < n + 3) {ptr : LatticeNodePtr} :
    ptr ∈ (boundaryAt bnds b).ends ↔
      (b = 1 ∧ ptr = ⟨0, 0⟩) ∨ (b = 2 ∧ ptr = ⟨1, 0⟩) ∨
        ∃ seed i, bld.seeds[i]? = some seed ∧ seed.codepointEnd + 2 = b ∧
          ptr = bld.endPtr seed i := by
  rw [(hbld.boundaryAt_bnds hbuilt hb).1]
  unfold bosEnds
  simp only [List.mem_append, List.mem_ite_nil_right, List.mem_singleton, or_assoc, mem_seedEnds]
  refine or_congr_right (or_congr_right (exists_congr fun seed => exists_congr fun i => ?_))
  constructor
  · rintro ⟨hseed, -, hend, hptr⟩
    exact ⟨hseed, hend, hptr⟩
  · rintro ⟨hseed, hend, hptr⟩
    have hstart := hbld.seeds seed (List.mem_of_getElem? hseed)
    exact ⟨hseed, by omega, hend, hptr⟩

theorem Sized.nodup_ends {b : Nat} (hb : b < n + 3) : (boundaryAt bnds b).ends.Nodup := by
  rw [(hbld.boundaryAt_bnds hbuilt hb).1]
  refine List.Nodup.append ?_ ?_ ?_
  · unfold bosEnds
    split <;> split
    · omega
    · exact List.nodup_singleton _
    · exact List.nodup_singleton _
    · exact List.nodup_nil
  · unfold seedEnds
    refine List.Nodup.map_on ?_ ?_
    · rintro ⟨seed, i⟩ hmem ⟨seed', i'⟩ hmem' heq
      have hseed := List.mem_zipIdx_iff_getElem?.mp (List.mem_of_mem_filter hmem)
      have hseed' := List.mem_zipIdx_iff_getElem?.mp (List.mem_of_mem_filter hmem')
      obtain ⟨-, hboundary, hindex, -⟩ := hbld.endPtr_spec hbuilt hseed
      obtain ⟨-, hboundary', hindex', -⟩ := hbld.endPtr_spec hbuilt hseed'
      simp only at hboundary hindex hboundary' hindex' heq hseed hseed'
      have hstart : seed.codepointStart = seed'.codepointStart := by
        rw [heq] at hboundary
        omega
      have hi : i = i' := by
        rw [heq, hstart] at hindex
        omega
      subst hi
      rw [hseed] at hseed'
      rw [Option.some.inj hseed']
    · refine List.Nodup.filter _ ?_
      refine List.Nodup.of_map Prod.snd ?_
      rw [List.zipIdx_map_snd]
      exact List.nodup_range'
  · intro ptr hbos hptr
    obtain ⟨seed, i, hseed, -, -, rfl⟩ := mem_seedEnds.mp hptr
    have htwo := (hbld.endPtr_spec hbuilt hseed).1
    unfold bosEnds at hbos
    simp only [List.mem_append, List.mem_ite_nil_right, List.mem_singleton] at hbos
    obtain ⟨-, heq⟩ | ⟨-, heq⟩ := hbos <;> rw [heq] at htwo <;> simp at htwo

/-- What is built is a lattice. -/
theorem Sized.exists_lattice (hpos : 0 < n) : ∃ lat : Lattice, lat.boundaries = bnds := by
  have hlength := length_of_buildLattice hbuilt
  refine ⟨Lattice.ofBoundaries bnds (by omega) ?_ ?_ ?_ ?_ ?_ ?_, rfl⟩
  · intro b hb
    rw [(hbld.boundaryAt_bnds hbuilt (by omega)).1]
    unfold nodeInfoAt
    rw [if_pos hb]
    rfl
  · have hseeds : bld.seedEnds bld.seeds.zipIdx 2 = [] := by
      rw [List.eq_nil_iff_forall_not_mem]
      intro ptr hptr
      obtain ⟨seed, i, hseed, -, hend, -⟩ := mem_seedEnds.mp hptr
      have := hbld.seeds seed (List.mem_of_getElem? hseed)
      omega
    rw [(hbld.boundaryAt_bnds hbuilt (by omega)).1, hseeds]
    rfl
  · rw [hlength, (hbld.boundaryAt_bnds hbuilt (by omega)).1]
    unfold nodeInfoAt
    rw [if_neg (by omega), if_neg (by omega)]
    rfl
  · intro b hb htwo ptr hptr
    rw [hlength] at hb
    obtain ⟨hone, -⟩ | ⟨htwo, rfl⟩ | ⟨seed, i, hseed, hend, rfl⟩ :=
      (hbld.mem_ends hbuilt hb).mp hptr
    · omega
    · subst htwo
      refine ⟨by decide, ?_, by decide, by decide⟩
      rw [(hbld.boundaryAt_bnds hbuilt (by simp only; omega)).1]
      exact Nat.one_pos
    · obtain ⟨hge, hboundary, -, hposition, hinfo⟩ := hbld.endPtr_spec hbuilt hseed
      have hstart := hbld.seeds seed (List.mem_of_getElem? hseed)
      have hn16 := hbld.max_u16
      obtain ⟨hvalid, -⟩ := List.getElem?_eq_some_iff.mp hinfo
      exact ⟨⟨by omega, by omega⟩, hvalid, by omega, hposition⟩
  · exact fun b hb => hbld.nodup_ends hbuilt (by omega)
  · exact fun b hb => (hbld.boundaryAt_bnds hbuilt (by omega)).2

end Built

end LatticeBuilder

end Jumanpp.Core.Analysis
