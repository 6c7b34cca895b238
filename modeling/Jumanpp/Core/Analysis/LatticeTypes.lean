import Mathlib

/-!
# The lattice, its beams and its paths

A lattice is built once, with two BOS boundaries before and one EOS boundary behind those of the
input; the scoring passes only fill in the beams of its nodes.  Scores are exact: `Score` is `ℚ`.
-/

namespace Jumanpp.Core.Analysis

abbrev Score := ℚ

/-- Conversion to `u16`. -/
def u16 (n : Nat) : Nat := n % 2 ^ 16

theorem u16_of_lt {n : Nat} (h : n < 2 ^ 16) : u16 n = n :=
  Nat.mod_eq_of_lt h

structure LatticeNodePtr where
  boundary : Nat
  position : Nat
deriving DecidableEq

/-- A connection and, in place of the pointer to the previous one, that connection itself: an
element of a beam is not changed any more (apart from its total score) once something points to
it.  `null` is the null pointer before the first BOS. -/
inductive ConnectionPtr
  | null
  | conn (boundary left right beam : Nat) (previous : ConnectionPtr)
deriving DecidableEq

namespace ConnectionPtr

def boundary : ConnectionPtr → Nat
  | null => 0
  | conn b _ _ _ _ => b

def left : ConnectionPtr → Nat
  | null => 0
  | conn _ l _ _ _ => l

def right : ConnectionPtr → Nat
  | null => 0
  | conn _ _ r _ _ => r

def beam : ConnectionPtr → Nat
  | null => 0
  | conn _ _ _ b _ => b

def previous : ConnectionPtr → ConnectionPtr
  | null => null
  | conn _ _ _ _ p => p

def latticeNodePtr (ptr : ConnectionPtr) : LatticeNodePtr :=
  ⟨ptr.boundary, ptr.right⟩

/-- The nodes on the way back to BOS. -/
def nodes : ConnectionPtr → List LatticeNodePtr
  | null => []
  | conn b _ r _ p => ⟨b, r⟩ :: p.nodes

end ConnectionPtr

structure ConnectionBeamElement where
  ptr : ConnectionPtr
  totalScore : Score
deriving DecidableEq

/-- All bits of the connection are set. -/
def isFake (e : ConnectionBeamElement) : Bool :=
  match e.ptr with
  | .null => false
  | .conn b l r m _ => b == 0xffff && l == 0xffff && r == 0xffff && m == 0xffff

/-- The padding behind the real elements of a beam; its score is never read. -/
def fake : ConnectionBeamElement :=
  ⟨.conn 0xffff 0xffff 0xffff 0xffff .null, 0⟩

/-- The real elements of a beam stand before the first fake one. -/
def activeBeam (row : List ConnectionBeamElement) : List ConnectionBeamElement :=
  row.takeWhile fun e => !isFake e

/-- A beam row for each node of each boundary. -/
abbrev Beams := List (List (List ConnectionBeamElement))

def beamAt (beams : Beams) (ptr : LatticeNodePtr) : List ConnectionBeamElement :=
  (beams.getD ptr.boundary []).getD ptr.position []

theorem activeBeam_replicate_fake (n : Nat) : activeBeam (List.replicate n fake) = [] := by
  cases n with
  | zero => rfl
  | succ n => rfl

theorem activeBeam_append_fake {row : List ConnectionBeamElement} (n : Nat)
    (h : ∀ e ∈ row, isFake e = false) : activeBeam (row ++ List.replicate n fake) = row := by
  unfold activeBeam
  rw [List.takeWhile_append_of_pos (by simpa using h)]
  change row ++ activeBeam (List.replicate n fake) = row
  rw [activeBeam_replicate_fake, List.append_nil]

/-- `EntryPtr`: negative values are special. -/
abbrev EntryPtr := Int

def EntryPtr.BOS : EntryPtr := -2147483648

def EntryPtr.EOS : EntryPtr := -2147483646

structure NodeInfo where
  entryPtr : EntryPtr
  start : Nat
  end_ : Nat
deriving DecidableEq

structure LatticeBoundary where
  nodeInfo : List NodeInfo
  /-- The nodes that end at this boundary. -/
  ends : List LatticeNodePtr
deriving DecidableEq

def LatticeBoundary.localNodeCount (bnd : LatticeBoundary) : Nat :=
  bnd.nodeInfo.length

def boundaryAt (boundaries : List LatticeBoundary) (idx : Nat) : LatticeBoundary :=
  boundaries.getD idx ⟨[], []⟩

/-- The lattice of a non-empty input, ready for scoring: the pointers in `ends` are pairs of `u16`
and lead to existing nodes of earlier boundaries, each node at most once. -/
structure Lattice where
  boundaries : List LatticeBoundary
  four_le_length : 4 ≤ boundaries.length
  bosNodes : ∀ b < 2, (boundaryAt boundaries b).localNodeCount = 1
  firstEnds : (boundaryAt boundaries 2).ends = [⟨1, 0⟩]
  eosNode : (boundaryAt boundaries (boundaries.length - 1)).localNodeCount = 1
  ends_back : ∀ b, 2 ≤ b → ∀ p ∈ (boundaryAt boundaries b).ends, 1 ≤ p.boundary ∧ p.boundary < b
  ends_valid : ∀ b, 2 ≤ b → ∀ p ∈ (boundaryAt boundaries b).ends,
    p.position < (boundaryAt boundaries p.boundary).localNodeCount
  ends_u16 : ∀ b, 2 ≤ b → ∀ p ∈ (boundaryAt boundaries b).ends,
    p.boundary < 2 ^ 16 ∧ p.position < 2 ^ 16
  ends_nodup : ∀ b, (boundaryAt boundaries b).ends.Nodup
  ends_length : ∀ b, (boundaryAt boundaries b).ends.length < 2 ^ 16

namespace Lattice

/-- The requirements on a lattice, checked boundary by boundary. -/
def ofBoundaries (boundaries : List LatticeBoundary) (four_le_length : 4 ≤ boundaries.length)
    (bosNodes : ∀ b < 2, (boundaryAt boundaries b).localNodeCount = 1)
    (firstEnds : (boundaryAt boundaries 2).ends = [⟨1, 0⟩])
    (eosNode : (boundaryAt boundaries (boundaries.length - 1)).localNodeCount = 1)
    (ends : ∀ b < boundaries.length, 2 ≤ b → ∀ p ∈ (boundaryAt boundaries b).ends,
      (1 ≤ p.boundary ∧ p.boundary < b) ∧
        p.position < (boundaryAt boundaries p.boundary).localNodeCount ∧
          p.boundary < 2 ^ 16 ∧ p.position < 2 ^ 16)
    (ends_nodup : ∀ b < boundaries.length, (boundaryAt boundaries b).ends.Nodup)
    (ends_length : ∀ b < boundaries.length, (boundaryAt boundaries b).ends.length < 2 ^ 16) :
    Lattice :=
  have houtside : ∀ b, ¬ b < boundaries.length → (boundaryAt boundaries b).ends = [] := by
    intro b hb
    unfold boundaryAt
    rw [List.getD_eq_default _ _ (by omega)]
  have hends : ∀ b, 2 ≤ b → ∀ p ∈ (boundaryAt boundaries b).ends,
      (1 ≤ p.boundary ∧ p.boundary < b) ∧
        p.position < (boundaryAt boundaries p.boundary).localNodeCount ∧
          p.boundary < 2 ^ 16 ∧ p.position < 2 ^ 16 := by
    intro b hb p hp
    by_cases hlt : b < boundaries.length
    · exact ends b hlt hb p hp
    · rw [houtside b hlt] at hp
      cases hp
  { boundaries := boundaries
    four_le_length := four_le_length
    bosNodes := bosNodes
    firstEnds := firstEnds
    eosNode := eosNode
    ends_back := fun b hb p hp => (hends b hb p hp).1
    ends_valid := fun b hb p hp => (hends b hb p hp).2.1
    ends_u16 := fun b hb p hp => (hends b hb p hp).2.2
    ends_nodup := by
      intro b
      by_cases hlt : b < boundaries.length
      · exact ends_nodup b hlt
      · rw [houtside b hlt]
        exact List.nodup_nil
    ends_length := by
      intro b
      by_cases hlt : b < boundaries.length
      · exact ends_length b hlt
      · rw [houtside b hlt]
        decide }

variable (lat : Lattice)

def boundary (idx : Nat) : LatticeBoundary :=
  boundaryAt lat.boundaries idx

def createdBoundaryCount : Nat :=
  lat.boundaries.length

/-- Nodes that the passes score: those behind the two BOS boundaries, EOS among them. -/
def IsNode (ptr : LatticeNodePtr) : Prop :=
  2 ≤ ptr.boundary ∧ ptr.boundary < lat.createdBoundaryCount ∧
    ptr.position < (lat.boundary ptr.boundary).localNodeCount

/-- A path from BOS, written from its last node back. -/
inductive IsPath : List LatticeNodePtr → Prop
  | bos : IsPath [⟨1, 0⟩, ⟨0, 0⟩]
  | step {ptr left : LatticeNodePtr} {path : List LatticeNodePtr} (hptr : 2 ≤ ptr.boundary)
      (hleft : left ∈ (lat.boundary ptr.boundary).ends) (hpath : IsPath (left :: path)) :
      IsPath (ptr :: left :: path)

def pathSet (ptr : LatticeNodePtr) : Set (List LatticeNodePtr) :=
  {path | lat.IsPath path ∧ path.head? = some ptr}

def pathsFuel : Nat → LatticeNodePtr → List (List LatticeNodePtr)
  | 0, _ => []
  | fuel + 1, ptr =>
      if ptr.boundary < 2 then [[ptr, ⟨0, 0⟩]]
      else (lat.boundary ptr.boundary).ends.flatMap fun left =>
        (pathsFuel fuel left).map (ptr :: ·)

/-- All paths from BOS to a node. -/
def paths (ptr : LatticeNodePtr) : List (List LatticeNodePtr) :=
  lat.pathsFuel ptr.boundary ptr

theorem pathsFuel_eq (fuel fuel' : Nat) (ptr : LatticeNodePtr) (hptr : 1 ≤ ptr.boundary)
    (hfuel : ptr.boundary ≤ fuel) (hfuel' : ptr.boundary ≤ fuel') :
    lat.pathsFuel fuel ptr = lat.pathsFuel fuel' ptr := by
  induction fuel generalizing ptr fuel' with
  | zero => omega
  | succ fuel ih =>
      cases fuel' with
      | zero => omega
      | succ fuel' =>
          unfold pathsFuel
          split_ifs with hbos
          · rfl
          · refine List.flatMap_congr fun left hleft => ?_
            have hback := lat.ends_back ptr.boundary (by omega) left hleft
            rw [ih fuel' left hback.1 (by omega) (by omega)]

theorem paths_bos (ptr : LatticeNodePtr) (hptr : ptr.boundary = 1) :
    lat.paths ptr = [[ptr, ⟨0, 0⟩]] := by
  unfold paths
  rw [hptr]
  unfold pathsFuel
  rw [if_pos (by omega)]

theorem paths_node (ptr : LatticeNodePtr) (hptr : 2 ≤ ptr.boundary) :
    lat.paths ptr = (lat.boundary ptr.boundary).ends.flatMap fun left =>
      (lat.paths left).map (ptr :: ·) := by
  obtain ⟨b, hb⟩ : ∃ b, ptr.boundary = b + 1 := ⟨ptr.boundary - 1, by omega⟩
  have hstep : lat.paths ptr = lat.pathsFuel (b + 1) ptr := by unfold paths; rw [hb]
  rw [hstep]
  unfold pathsFuel
  rw [if_neg (by omega)]
  refine List.flatMap_congr fun left hleft => ?_
  have hback := lat.ends_back ptr.boundary hptr left hleft
  rw [lat.pathsFuel_eq b left.boundary left hback.1 (by omega) (le_refl _)]
  rfl

/-- A node that the passes may look at: one of the boundaries from the second BOS on. -/
theorem ends_eq_bos {b : Nat} {left : LatticeNodePtr} (hb : 2 ≤ b)
    (hleft : left ∈ (lat.boundary b).ends) (hbos : left.boundary = 1) : left = ⟨1, 0⟩ := by
  have hvalid := lat.ends_valid b hb left hleft
  rw [hbos, lat.bosNodes 1 (by omega)] at hvalid
  cases left
  simp only [LatticeNodePtr.mk.injEq]
  simp only at hbos hvalid
  omega

theorem mem_paths_iff (ptr : LatticeNodePtr) (path : List LatticeNodePtr)
    (hptr : 1 ≤ ptr.boundary) (hbos : ptr.boundary = 1 → ptr = ⟨1, 0⟩) :
    path ∈ lat.paths ptr ↔ path ∈ lat.pathSet ptr := by
  induction hb : ptr.boundary using Nat.strong_induction_on generalizing ptr path with
  | h b ih =>
      subst hb
      by_cases hone : ptr.boundary = 1
      · rw [lat.paths_bos ptr hone, hbos hone, List.mem_singleton]
        constructor
        · rintro rfl
          exact ⟨.bos, rfl⟩
        · rintro ⟨hpath, hhead⟩
          cases hpath with
          | bos => rfl
          | step hnode => simp at hhead; subst hhead; simp at hnode
      · have htwo : 2 ≤ ptr.boundary := by omega
        rw [lat.paths_node ptr htwo]
        simp only [List.mem_flatMap, List.mem_map]
        constructor
        · rintro ⟨left, hleft, rest, hrest, rfl⟩
          have hback := lat.ends_back ptr.boundary htwo left hleft
          rw [ih left.boundary hback.2 left rest hback.1
            (lat.ends_eq_bos htwo hleft) rfl] at hrest
          obtain ⟨hpath, hhead⟩ := hrest
          cases rest with
          | nil => cases hhead
          | cons first rest =>
              simp only [List.head?_cons, Option.some.injEq] at hhead
              subst hhead
              exact ⟨.step htwo hleft hpath, rfl⟩
        · rintro ⟨hpath, hhead⟩
          cases hpath with
          | bos => simp at hhead; subst hhead; simp at hone
          | step hnode hleft hpath =>
              rename_i ptr' left rest
              simp only [List.head?_cons, Option.some.injEq] at hhead
              subst hhead
              have hback := lat.ends_back _ htwo left hleft
              refine ⟨left, hleft, left :: rest, ?_, rfl⟩
              rw [ih left.boundary hback.2 left _ hback.1 (lat.ends_eq_bos htwo hleft) rfl]
              exact ⟨hpath, rfl⟩

theorem head_of_mem_paths {ptr : LatticeNodePtr} {path : List LatticeNodePtr}
    (hptr : 1 ≤ ptr.boundary) (hpath : path ∈ lat.paths ptr) : path.head? = some ptr := by
  by_cases hone : ptr.boundary = 1
  · rw [lat.paths_bos ptr hone, List.mem_singleton] at hpath
    rw [hpath]
    rfl
  · rw [lat.paths_node ptr (by omega)] at hpath
    simp only [List.mem_flatMap, List.mem_map] at hpath
    obtain ⟨left, -, rest, -, rfl⟩ := hpath
    rfl

theorem paths_cons_cons (ptr : LatticeNodePtr) (hptr : 1 ≤ ptr.boundary) :
    ∀ path ∈ lat.paths ptr, ∃ left rest, path = ptr :: left :: rest := by
  intro path hpath
  by_cases hone : ptr.boundary = 1
  · rw [lat.paths_bos ptr hone, List.mem_singleton] at hpath
    exact ⟨⟨0, 0⟩, [], hpath⟩
  · rw [lat.paths_node ptr (by omega)] at hpath
    simp only [List.mem_flatMap, List.mem_map] at hpath
    obtain ⟨left, hleft, rest, hrest, rfl⟩ := hpath
    have hback := lat.ends_back ptr.boundary (by omega) left hleft
    have hhead := lat.head_of_mem_paths hback.1 hrest
    cases rest with
    | nil => cases hhead
    | cons first rest => exact ⟨first, rest, rfl⟩

/-- No path is listed twice. -/
theorem nodup_paths (ptr : LatticeNodePtr) (hptr : 1 ≤ ptr.boundary) :
    (lat.paths ptr).Nodup := by
  induction hb : ptr.boundary using Nat.strong_induction_on generalizing ptr with
  | h b ih =>
      subst hb
      by_cases hone : ptr.boundary = 1
      · rw [lat.paths_bos ptr hone]
        exact List.nodup_singleton _
      · have htwo : 2 ≤ ptr.boundary := by omega
        rw [lat.paths_node ptr htwo, List.nodup_flatMap]
        constructor
        · intro left hleft
          have hback := lat.ends_back ptr.boundary htwo left hleft
          exact (ih left.boundary hback.2 left hback.1 rfl).map
            (fun _ _ h => List.tail_eq_of_cons_eq h)
        · refine (lat.ends_nodup ptr.boundary).imp_of_mem ?_
          intro left left' hleft hleft' hne path hpath hpath'
          simp only [List.mem_map] at hpath hpath'
          obtain ⟨rest, hrest, rfl⟩ := hpath
          obtain ⟨rest', hrest', heq⟩ := hpath'
          obtain rfl := List.tail_eq_of_cons_eq heq
          have hback := lat.ends_back ptr.boundary htwo left hleft
          have hback' := lat.ends_back ptr.boundary htwo left' hleft'
          have hhead := lat.head_of_mem_paths hback.1 hrest
          rw [lat.head_of_mem_paths hback'.1 hrest'] at hhead
          exact hne (Option.some.inj hhead).symm

theorem ncard_pathSet (ptr : LatticeNodePtr) (hptr : 2 ≤ ptr.boundary) :
    (lat.pathSet ptr).ncard = (lat.paths ptr).length := by
  classical
  have hset : lat.pathSet ptr = ((lat.paths ptr).toFinset : Set (List LatticeNodePtr)) := by
    ext path
    rw [Finset.mem_coe, List.mem_toFinset,
      lat.mem_paths_iff ptr path (by omega) (fun h => by omega)]
  rw [hset, Set.ncard_coe_finset, List.toFinset_card_of_nodup (lat.nodup_paths ptr (by omega))]

end Lattice

end Jumanpp.Core.Analysis
