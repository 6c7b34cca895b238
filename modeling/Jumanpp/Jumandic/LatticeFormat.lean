import Jumanpp.Core.Analysis.RnnIdResolver
import Jumanpp.Lib.Grouping
import Jumanpp.Lib.Selection

/-!
# The lattice of the best paths

`LatticeFormat` prints the best paths as one lattice.  A node that several paths share stands in it
once, with a number, the numbers of the nodes before it and the ranks of its paths.
-/

namespace Jumanpp.Jumandic.LatticeFormat

open Jumanpp.Lib Jumanpp.Core.Analysis

structure LatticeNodeInfo where
  ranks : List Nat
  prev : List LatticeNodePtr
  /-- A set: connections with the same key are equal. -/
  ptrs : FlatMap ConnectionKey ConnectionPtr
  id : Int

namespace LatticeNodeInfo

/-- A new entry of the map.  The source leaves the number unset until the nodes are published. -/
def empty : LatticeNodeInfo :=
  ⟨[], [], .empty, 0⟩

def addElem (node : LatticeNodeInfo) (cptr : ConnectionPtr) (rank : Nat) : LatticeNodeInfo :=
  let prevptr := cptr.previous.latticeNodePtr
  { node with
    ranks := node.ranks ++ [u16 rank]
    ptrs := node.ptrs.update cptr.key cptr fun ptr => ptr
    prev := if prevptr ∈ node.prev then node.prev else node.prev ++ [prevptr] }

end LatticeNodeInfo

/-- The comparator of both sorts. -/
def standsBefore (p1 p2 : LatticeNodePtr) : Bool :=
  if p1.boundary = p2.boundary then decide (p1.position < p2.position)
  else decide (p1.boundary < p2.boundary)

variable (alg : StdAlgorithm)

def LatticeNodeInfo.fixPrevs (node : LatticeNodeInfo) : LatticeNodeInfo :=
  if node.prev.length > 1 then { node with prev := alg.sort standsBefore node.prev } else node

abbrev LatticeInfo := FlatMap LatticeNodePtr LatticeNodeInfo

/-- The inner loop of `fillInfo`; `none` where a null pointer is read. -/
def fillPath (rank : Nat) : ConnectionPtr → LatticeInfo → Option LatticeInfo
  | .null, _ => none
  | .conn boundary left right beam previous, info =>
      if boundary ≥ 2 then
        let ptr := .conn boundary left right beam previous
        fillPath rank previous (info.update ptr.latticeNodePtr .empty (·.addElem ptr rank))
      else some info

/-- The outer loop, from the element `i` on. -/
def fillElems : List ConnectionBeamElement → Nat → LatticeInfo → Option LatticeInfo
  | [], _, info => some info
  | el :: els, i, info =>
      if isFake el then some info
      else do
        let info ← fillPath i el.ptr.previous info
        fillElems els (i + 1) info

/-- EOS is the only node of its boundary, so the beam of the boundary is that of EOS. -/
def eosBeam (lat : Lattice) (beams : Beams) : List ConnectionBeamElement :=
  beamAt beams ⟨lat.createdBoundaryCount - 1, 0⟩

def fillInfo (lat : Lattice) (beams : Beams) (topN : Int) : Option LatticeInfo :=
  if lat.createdBoundaryCount ≤ 3 then some .empty
  else
    let maxN := min ((eosBeam lat beams).length : Int) topN
    fillElems ((eosBeam lat beams).take maxN.toNat) 0 .empty

structure LatticeInfoView where
  nodePtr : LatticeNodePtr
  nodeInfo : LatticeNodeInfo

def LatticeInfoView.assignId (v : LatticeInfoView) (id : Int) : LatticeInfoView :=
  { v with nodeInfo := { v.nodeInfo with id := id } }

def publishResult (order : MapOrder LatticeNodePtr LatticeNodeInfo) (info : LatticeInfo) :
    List LatticeInfoView :=
  let view : List LatticeInfoView :=
    (order.order info).map fun pair => ⟨pair.1, pair.2.fixPrevs alg⟩
  let view := alg.sort (fun v1 v2 => standsBefore v1.nodePtr v2.nodePtr) view
  view.zipIdx.map fun (v, i) => v.assignId ((i : Int) + 1)

/-- The views point into the map, so that the map has the numbers that they were given. -/
def idOf (view : List LatticeInfoView) (ptr : LatticeNodePtr) : Int :=
  match view.find? fun v => decide (v.nodePtr = ptr) with
  | some v => v.nodeInfo.id
  | none => 0

/-- `std::max_element`. -/
def maxElement {α : Type} (comp : α → α → Bool) : List α → Option α
  | [] => none
  | x :: l => some (l.foldl (fun largest y => if comp largest y then y else largest) x)

/-- What is printed of a node in front of the fields of its entries and at the end of the line. -/
structure LatticeLine where
  nodePtr : LatticeNodePtr
  id : Int
  prev : List Int
  position : Int
  last : Int
  ranks : List Nat
deriving DecidableEq

variable (order : MapOrder LatticeNodePtr LatticeNodeInfo)
  (ptrOrder : MapOrder ConnectionKey ConnectionPtr)

/-- The body of the loop of `format`; `greater` compares the weighted scores of two connections. -/
def formatNode (greater : ConnectionPtr → ConnectionPtr → Bool) (lat : Lattice)
    (view : List LatticeInfoView) (n : LatticeInfoView) : Option LatticeLine := do
  let cptr ← maxElement greater ((ptrOrder.order n.nodeInfo.ptrs).map Prod.snd)
  let ninfo ← (lat.boundary cptr.boundary).nodeInfo[cptr.right]?
  -- two BOS
  let position : Int := (cptr.boundary : Int) - 2
  return {
    nodePtr := n.nodePtr
    id := n.nodeInfo.id
    prev := n.nodeInfo.prev.map (idOf view)
    position := position
    last := position + ((ninfo.end_ : Int) - ninfo.start) - 1
    ranks := n.nodeInfo.ranks.map (· + 1) }

/-- The lines before the final `EOS`. -/
def format (greater : ConnectionPtr → ConnectionPtr → Bool) (lat : Lattice) (beams : Beams)
    (outputN : Int) : Option (List LatticeLine) :=
  if lat.createdBoundaryCount = 3 then some []
  else do
    let info ← fillInfo lat beams outputN
    let view := publishResult alg order info
    view.mapM (formatNode ptrOrder greater lat view)

end Jumanpp.Jumandic.LatticeFormat
