import Jumanpp.Core.Analysis.GlobalBeam
import Jumanpp.Core.Impl.NgramFeatures
import Mathlib.Logic.Function.Basic

/-!
# Nodes of the RNN lattice

Before the RNN scores a lattice, the paths of the last global beam are copied into a lattice of its
own.  Its nodes are shared by the connections whose chains of ids and lengths back to BOS are equal;
the chains are compared by their hashes.
-/

namespace Jumanpp.Core.Analysis

/-- What `operator==` compares. -/
structure ConnectionKey where
  boundary : Nat
  left : Nat
  right : Nat
  beam : Nat
deriving DecidableEq

def ConnectionPtr.key (ptr : ConnectionPtr) : ConnectionKey :=
  ⟨ptr.boundary, ptr.left, ptr.right, ptr.beam⟩

namespace Rnn

structure FastHash1 where
  state : UInt64

namespace FastHash1

def mix (hash : FastHash1) (data : UInt64) : FastHash1 :=
  let v := (hash.state ^^^ data) * Features.seaHashMult
  ⟨v ^^^ (v >>> 32)⟩

def result (hash : FastHash1) : UInt64 :=
  hash.state

end FastHash1

structure RnnCoordinate where
  boundary : Nat
  length : Nat
  rnnId : Int32
deriving DecidableEq

/-- What a chain mixes in for one node: the id in the lower half, the length in the upper one. -/
def RnnCoordinate.hashData (coord : RnnCoordinate) : UInt64 :=
  coord.rnnId.toUInt32.toUInt64 ||| ((UInt64.ofNat coord.length) <<< 32)

/-- The address of a node in the memory of `alloc_`. -/
abbrev RnnNodePtr := Nat

structure RnnNode where
  id : Int32
  idx : Nat
  boundary : Nat
  length : Nat
  prev : Option RnnNodePtr
  /-- The pointer is followed on the spot: the nodes behind this one in the list of the boundary.
  They do not change once the node is in the list. -/
  nextInBnd : List RnnNodePtr
  hash : UInt64
deriving DecidableEq

structure RnnScorePtr where
  latPtr : ConnectionPtr
  rnn : RnnNodePtr
deriving DecidableEq

structure RnnBoundary where
  node : List RnnNodePtr
  scores : List RnnScorePtr
  nodeCnt : Nat
  scoreCnt : Nat
deriving DecidableEq

structure RnnIdContainer where
  nodes : List RnnNode
  crdCache : RnnCoordinate → Option RnnNodePtr
  /-- A connection that is being looked at has a null pointer. -/
  ptrCache : ConnectionKey → Option (Option RnnNodePtr)
  nodeCache : LatticeNodePtr → Option RnnCoordinate
  boundaries : List RnnBoundary

/-- `idOf` finds the representation of a node in `knownIndex_` or `unkIndex_`; it is `unkId_` where
there is none. -/
structure RnnIdResolver where
  idOf : LatticeNodePtr → Int32

namespace RnnIdContainer

/-- The pointer to `bos1`; `bos0` has the address 0. -/
def bos1 : RnnNodePtr := 1

/-- `addBos` sets neither the hash of `bos0` nor the lengths, and nothing reads them. -/
def bosNodes : List RnnNode :=
  [⟨0, 0, 0, 0, none, [], 0⟩, ⟨0, 0, 1, 0, some 0, [], 0xdeadbeef0000⟩]

def reset (numBoundaries : Nat) : RnnIdContainer :=
  let bosCrd : RnnCoordinate := ⟨1, 0, 0⟩
  let eosPos := u16 (numBoundaries - 1)
  { nodes := bosNodes
    crdCache := Function.update (fun _ => none) bosCrd (some bos1)
    ptrCache := fun _ => none
    nodeCache := Function.update (Function.update (fun _ => none) ⟨1, 0⟩ (some bosCrd))
      ⟨eosPos, 0⟩ (some ⟨eosPos, 0, 0⟩)
    boundaries := (List.replicate numBoundaries ⟨[], [], 0, 0⟩).set 1 ⟨[bos1], [], 1, 0⟩ }

def addScore (rnnNode : RnnNodePtr) (node : ConnectionPtr) (ids : RnnIdContainer) :
    Option RnnIdContainer := do
  let n ← ids.nodes[rnnNode]?
  let bnd ← ids.boundaries[n.boundary]?
  pure { ids with
    boundaries := ids.boundaries.set n.boundary
      { bnd with scores := ⟨node, rnnNode⟩ :: bnd.scores, scoreCnt := bnd.scoreCnt + 1 } }

/-- The loop over the list of a boundary: is there a node with this hash? -/
def anyHash (ids : RnnIdContainer) (hash : UInt64) : List RnnNodePtr → Option Bool
  | [] => some false
  | cached :: rest => do
      let node ← ids.nodes[cached]?
      if node.hash = hash then pure true else ids.anyHash hash rest

/-- The first node that `crdCache_` knows for the coordinate, if it or any node behind it in the list
has the hash. -/
def findCollapsed (ids : RnnIdContainer) (coord : RnnCoordinate) (hash : UInt64) :
    Option (Option RnnNodePtr) :=
  match ids.crdCache coord with
  | none => some none
  | some cached => do
      let node ← ids.nodes[cached]?
      let found ← ids.anyHash hash (cached :: node.nextInBnd)
      pure (if found then some cached else none)

end RnnIdContainer

section Paths

variable (resolver : RnnIdResolver) (lat : Lattice)

def resolveId (node : ConnectionPtr) (ids : RnnIdContainer) :
    Option (RnnCoordinate × RnnIdContainer) :=
  match ids.nodeCache node.latticeNodePtr with
  | some coord => some (coord, ids)
  | none => do
      let ninfo ← (lat.boundary node.boundary).nodeInfo[node.right]?
      let coord : RnnCoordinate :=
        ⟨node.boundary, u16 (ninfo.end_ - ninfo.start), resolver.idOf node.latticeNodePtr⟩
      pure (coord, { ids with
        nodeCache := Function.update ids.nodeCache node.latticeNodePtr (some coord) })

/-- The rest of `addPrevChain` when the chain before `cptr` ends in the node `prev`. -/
def extendChain (cptr : ConnectionPtr) (first prev : Option RnnNodePtr) (ids : RnnIdContainer) :
    Option ((Option RnnNodePtr × Option RnnNodePtr) × RnnIdContainer) := do
  let (coord, ids) ← resolveId resolver lat cptr ids
  let prevNode ← prev.bind fun p => ids.nodes[p]?
  let hash := ((FastHash1.mk prevNode.hash).mix coord.hashData).result
  let collapsed ← ids.findCollapsed coord hash
  match collapsed with
  | some head => do
      -- `it->second`, not the node that has the hash
      let ids := { ids with ptrCache := Function.update ids.ptrCache cptr.key (some (some head)) }
      let ids ← ids.addScore head cptr
      pure ((some head, some head), ids)
  | none => do
      let nodePtr := ids.nodes.length
      let node : RnnNode := ⟨coord.rnnId, 0, cptr.boundary, coord.length, prev, [], hash⟩
      pure ((first, some nodePtr), { ids with
        nodes := ids.nodes ++ [node]
        ptrCache := Function.update ids.ptrCache cptr.key (some (some nodePtr)) })

/-- The nodes at which the new part of the chain of `cptr` starts and ends. -/
def addPrevChain : ConnectionPtr → RnnIdContainer →
    Option ((Option RnnNodePtr × Option RnnNodePtr) × RnnIdContainer)
  | .null, _ => none
  | .conn b l r m previous, ids =>
      let cptr := ConnectionPtr.conn b l r m previous
      match ids.ptrCache cptr.key with
      | some node => some ((node, node), ids)
      | none => do
          let ids := { ids with ptrCache := Function.update ids.ptrCache cptr.key (some none) }
          let ((first, prev), ids) ← addPrevChain previous ids
          extendChain resolver lat cptr first prev ids

/-- The body of the loop in `addPath`. -/
def publishNode (last : RnnNodePtr) (cptr : ConnectionPtr) (ids : RnnIdContainer) :
    Option (Option RnnNodePtr × RnnIdContainer) := do
  let node ← ids.nodes[last]?
  let bnd ← ids.boundaries[node.boundary]?
  let ids := { ids with
    nodes := ids.nodes.set last { node with idx := bnd.nodeCnt, nextInBnd := bnd.node }
    boundaries := ids.boundaries.set node.boundary
      { bnd with node := last :: bnd.node, nodeCnt := bnd.nodeCnt + 1 } }
  let ids ← ids.addScore last cptr
  let (crd, ids) ← resolveId resolver lat cptr ids
  pure (node.prev, { ids with crdCache := Function.update ids.crdCache crd (some last) })

/-- The loop of `addPath`: the new nodes are published from the last one back. -/
def publish (first : Option RnnNodePtr) :
    ConnectionPtr → Option RnnNodePtr → RnnIdContainer → Option RnnIdContainer
  | .null, last, ids => if first = last then some ids else none
  | .conn b l r m previous, last, ids =>
      if first = last then some ids
      else do
        let node ← last
        let (prev, ids) ← publishNode resolver lat node (.conn b l r m previous) ids
        publish first previous prev ids

def addPath (cptr : ConnectionPtr) (ids : RnnIdContainer) : Option RnnIdContainer := do
  let ((first, last), ids) ← addPrevChain resolver lat cptr ids
  publish resolver lat first cptr last ids

/-- The connection of EOS to an element of the global beam. -/
def fakeConnection (nodePtr : LatticeNodePtr) (beam : ConnectionBeamElement)
    (cand : BeamCandidate) : ConnectionPtr :=
  .conn nodePtr.boundary cand.left nodePtr.position cand.beam beam.ptr

/-- The paths of the last global beam. -/
def fakeConnections (beams : Beams) (gbeam : GlobalBeam) : List ConnectionPtr :=
  let eos : LatticeNodePtr := ⟨u16 (lat.createdBoundaryCount - 1), 0⟩
  List.zipWith (fun addr cand => fakeConnection eos (addr.deref beams) cand) gbeam.ptrs gbeam.cands

def resolveIdsAtGbeam (beams : Beams) (gbeam : GlobalBeam) : Option RnnIdContainer := do
  let ids := RnnIdContainer.reset lat.createdBoundaryCount
  let bosBeam ← (beamAt beams ⟨1, 0⟩)[0]?
  let ids := { ids with
    ptrCache := Function.update ids.ptrCache bosBeam.ptr.key (some (ids.crdCache ⟨1, 0, 0⟩)) }
  (fakeConnections lat beams gbeam).foldlM (fun ids cptr => addPath resolver lat cptr ids) ids

end Paths

end Rnn

end Jumanpp.Core.Analysis
