import Jumanpp.Core.Analysis.RnnChains
import Mathlib.Data.List.Dedup

/-!
# Publishing the chains of the kept paths

As long as equal chains come in a row, a connection is mapped to the node that has its chain, and a
boundary lists the nodes of its chains in the order in which they came.
-/

namespace Jumanpp.Core.Analysis.Rnn

open RnnIdContainer

/-- A connection and the node that it is mapped to. -/
abbrev Entry := ConnectionPtr × RnnNodePtr

/-! ## Coordinates -/

section Coordinates

variable (resolver : RnnIdResolver) (lat : Lattice)

def eosPtr : LatticeNodePtr :=
  ⟨u16 (lat.createdBoundaryCount - 1), 0⟩

/-- The coordinate of a lattice node. -/
def coordinate (ptr : LatticeNodePtr) : RnnCoordinate :=
  if ptr = eosPtr lat then ⟨ptr.boundary, 0, 0⟩
  else if ptr = ⟨1, 0⟩ then ⟨1, 0, 0⟩
  else
    let ninfo := (lat.boundary ptr.boundary).nodeInfo.getD ptr.position ⟨0, 0, 0⟩
    ⟨ptr.boundary, u16 (ninfo.end_ - ninfo.start), resolver.idOf ptr⟩

abbrev coordOf (c : ConnectionPtr) : RnnCoordinate :=
  coordinate resolver lat c.latticeNodePtr

structure CacheOk (cache : LatticeNodePtr → Option RnnCoordinate) : Prop where
  sound : ∀ ptr coord, cache ptr = some coord → coord = coordinate resolver lat ptr
  eos : cache (eosPtr lat) ≠ none
  bos : cache ⟨1, 0⟩ ≠ none

variable {resolver lat}

theorem resolveId_spec {c : ConnectionPtr} {ids : RnnIdContainer}
    (hcache : CacheOk resolver lat ids.nodeCache)
    (hinfo : c.latticeNodePtr = eosPtr lat ∨
      ∃ ninfo, (lat.boundary c.boundary).nodeInfo[c.right]? = some ninfo) :
    ∃ cache, resolveId resolver lat c ids =
        some (coordOf resolver lat c, { ids with nodeCache := cache }) ∧
      CacheOk resolver lat cache := by
  unfold resolveId
  cases hget : ids.nodeCache c.latticeNodePtr with
  | some coord =>
      refine ⟨ids.nodeCache, ?_, hcache⟩
      rw [hcache.sound _ _ hget]
  | none =>
      have heos : c.latticeNodePtr ≠ eosPtr lat := by
        intro h
        rw [h] at hget
        exact hcache.eos hget
      have hbos : c.latticeNodePtr ≠ ⟨1, 0⟩ := by
        intro h
        rw [h] at hget
        exact hcache.bos hget
      obtain ⟨ninfo, hninfo⟩ := hinfo.resolve_left heos
      have hcoord : coordOf resolver lat c =
          ⟨c.boundary, u16 (ninfo.end_ - ninfo.start), resolver.idOf c.latticeNodePtr⟩ := by
        show coordinate resolver lat c.latticeNodePtr = _
        unfold coordinate
        rw [if_neg heos, if_neg hbos]
        show (⟨c.boundary, u16 (((lat.boundary c.boundary).nodeInfo.getD c.right ⟨0, 0, 0⟩).end_ -
          ((lat.boundary c.boundary).nodeInfo.getD c.right ⟨0, 0, 0⟩).start), _⟩ : RnnCoordinate) = _
        rw [List.getD_eq_getElem?_getD, hninfo]
        rfl
      refine ⟨Function.update ids.nodeCache c.latticeNodePtr (some (coordOf resolver lat c)), ?_,
        ?_, ?_, ?_⟩
      · simp only [hninfo, Option.bind_eq_bind, Option.bind_some, Option.pure_def, hcoord]
      · intro ptr coord hptr
        by_cases h : ptr = c.latticeNodePtr
        · rw [h, Function.update_self, Option.some.injEq] at hptr
          rw [← hptr, h]
        · rw [Function.update_of_ne h] at hptr
          exact hcache.sound ptr coord hptr
      · rw [Function.update_of_ne heos.symm]
        exact hcache.eos
      · rw [Function.update_of_ne hbos.symm]
        exact hcache.bos

end Coordinates

/-! ## The memory -/

/-- Nodes keep what they were created with; only the fields of the list change. -/
def Keeps (nodes nodes' : List RnnNode) : Prop :=
  ∀ (ptr : RnnNodePtr) node, nodes[ptr]? = some node →
    ∃ idx next, nodes'[ptr]? = some { node with idx := idx, nextInBnd := next }

theorem Keeps.refl (nodes : List RnnNode) : Keeps nodes nodes :=
  fun _ node hnode => ⟨node.idx, node.nextInBnd, hnode⟩

theorem Keeps.trans {nodes nodes' nodes'' : List RnnNode} (h : Keeps nodes nodes')
    (h' : Keeps nodes' nodes'') : Keeps nodes nodes'' := by
  intro ptr node hnode
  obtain ⟨idx, next, hnode'⟩ := h ptr node hnode
  obtain ⟨idx', next', hnode''⟩ := h' ptr _ hnode'
  exact ⟨idx', next', hnode''⟩

theorem keeps_append (nodes : List RnnNode) (node : RnnNode) : Keeps nodes (nodes ++ [node]) := by
  intro ptr old hold
  obtain ⟨hlt, _⟩ := List.getElem?_eq_some_iff.mp hold
  refine ⟨old.idx, old.nextInBnd, ?_⟩
  rw [List.getElem?_append_left hlt]
  exact hold

theorem keeps_set {nodes : List RnnNode} {ptr : RnnNodePtr} {node : RnnNode}
    (hnode : nodes[ptr]? = some node) (idx : Nat) (next : List RnnNodePtr) :
    Keeps nodes (nodes.set ptr { node with idx := idx, nextInBnd := next }) := by
  intro i old hold
  by_cases hi : i = ptr
  · subst hi
    obtain ⟨hlt, _⟩ := List.getElem?_eq_some_iff.mp hold
    rw [hold, Option.some.injEq] at hnode
    subst hnode
    exact ⟨idx, next, by rw [List.getElem?_set_self hlt]⟩
  · refine ⟨old.idx, old.nextInBnd, ?_⟩
    rw [List.getElem?_set_ne (Ne.symm hi)]
    exact hold

theorem HasChain.keeps {nodes nodes' : List RnnNode} {ptr : RnnNodePtr}
    {chain : List RnnCoordinate} (h : HasChain nodes ptr chain) (hkeeps : Keeps nodes nodes') :
    HasChain nodes' ptr chain := by
  induction h with
  | bos => exact .bos
  | node hptr hnode hprev _ ih =>
      obtain ⟨idx, next, hnode'⟩ := hkeeps _ _ hnode
      have hchain' := HasChain.node hptr hnode' hprev ih
      exact hchain'

/-- What stays when ids are resolved: the nodes, and the nodes that connections are mapped to. -/
structure Extends (ids ids' : RnnIdContainer) : Prop where
  nodes : Keeps ids.nodes ids'.nodes
  ptrs : ∀ key ptr, ids.ptrCache key = some (some ptr) → ids'.ptrCache key = some (some ptr)

theorem Extends.refl (ids : RnnIdContainer) : Extends ids ids :=
  ⟨.refl _, fun _ _ h => h⟩

theorem Extends.trans {ids ids' ids'' : RnnIdContainer} (h : Extends ids ids')
    (h' : Extends ids' ids'') : Extends ids ids'' :=
  ⟨h.nodes.trans h'.nodes, fun key ptr hptr => h'.ptrs key ptr (h.ptrs key ptr hptr)⟩

section Extends

variable {resolver : RnnIdResolver} {lat : Lattice}

theorem extends_addScore {rnnNode : RnnNodePtr} {c : ConnectionPtr} {ids ids' : RnnIdContainer}
    (h : ids.addScore rnnNode c = some ids') : ids'.nodes = ids.nodes ∧
      ids'.ptrCache = ids.ptrCache := by
  unfold addScore at h
  simp only [Option.bind_eq_bind, Option.bind_eq_some_iff, Option.pure_def, Option.some.injEq] at h
  obtain ⟨_, _, _, _, rfl⟩ := h
  exact ⟨rfl, rfl⟩

theorem extends_resolveId {c : ConnectionPtr} {ids ids' : RnnIdContainer} {coord : RnnCoordinate}
    (h : resolveId resolver lat c ids = some (coord, ids')) : ids'.nodes = ids.nodes ∧
      ids'.ptrCache = ids.ptrCache := by
  unfold resolveId at h
  split at h
  · simp only [Option.some.injEq, Prod.mk.injEq] at h
    exact ⟨congrArg _ h.2.symm, congrArg _ h.2.symm⟩
  · simp only [Option.bind_eq_bind, Option.bind_eq_some_iff, Option.pure_def, Option.some.injEq,
      Prod.mk.injEq] at h
    obtain ⟨_, _, _, rfl⟩ := h
    exact ⟨rfl, rfl⟩

/-- Only the key of the connection itself gets a node. -/
theorem extends_extendChain {c : ConnectionPtr} {first prev : Option RnnNodePtr}
    {ids ids' : RnnIdContainer} {span : Option RnnNodePtr × Option RnnNodePtr}
    (h : extendChain resolver lat c first prev ids = some (span, ids')) :
    Keeps ids.nodes ids'.nodes ∧
      ∀ key, key ≠ c.key → ids'.ptrCache key = ids.ptrCache key := by
  unfold extendChain at h
  simp only [Option.bind_eq_bind, Option.bind_eq_some_iff, Option.pure_def, Prod.exists] at h
  obtain ⟨coord, ids1, hresolve, prevNode, _, collapsed, _, h⟩ := h
  obtain ⟨hnodes, hptrs⟩ := extends_resolveId hresolve
  cases collapsed with
  | some head =>
      simp only [Option.bind_eq_some_iff, Option.some.injEq, Prod.mk.injEq] at h
      obtain ⟨ids2, hscore, _, rfl⟩ := h
      obtain ⟨hnodes2, hptrs2⟩ := extends_addScore hscore
      rw [hnodes2, hptrs2]
      refine ⟨?_, ?_⟩
      · show Keeps ids.nodes ids1.nodes
        rw [hnodes]
        exact .refl _
      · intro key hne
        show Function.update ids1.ptrCache c.key _ key = _
        rw [Function.update_of_ne hne, hptrs]
  | none =>
      simp only [Option.some.injEq, Prod.mk.injEq] at h
      obtain ⟨_, rfl⟩ := h
      refine ⟨?_, ?_⟩
      · show Keeps ids.nodes (ids1.nodes ++ [_])
        rw [hnodes]
        exact keeps_append _ _
      · intro key hne
        show Function.update ids1.ptrCache c.key _ key = _
        rw [Function.update_of_ne hne, hptrs]

theorem extends_addPrevChain {c : ConnectionPtr} {ids ids' : RnnIdContainer}
    {span : Option RnnNodePtr × Option RnnNodePtr}
    (h : addPrevChain resolver lat c ids = some (span, ids')) : Extends ids ids' := by
  induction c generalizing ids ids' span with
  | null => cases h
  | conn b l r m previous ih =>
      unfold addPrevChain at h
      simp only at h
      split at h
      · cases h
        exact .refl _
      next hnone =>
        simp only [Option.bind_eq_bind, Option.bind_eq_some_iff, Prod.exists] at h
        obtain ⟨first, prev, ids1, hprevious, hextend⟩ := h
        have hids := ih hprevious
        obtain ⟨hnodes, hptrs⟩ := extends_extendChain hextend
        refine ⟨hids.nodes.trans hnodes, ?_⟩
        intro key ptr hptr
        have hne : key ≠ (ConnectionPtr.conn b l r m previous).key := by
          rintro rfl
          rw [hnone] at hptr
          cases hptr
        rw [hptrs key hne]
        apply hids.ptrs
        show Function.update ids.ptrCache _ _ key = _
        rw [Function.update_of_ne hne, hptr]

theorem extends_publishNode {last : RnnNodePtr} {c : ConnectionPtr} {ids ids' : RnnIdContainer}
    {prev : Option RnnNodePtr}
    (h : publishNode resolver lat last c ids = some (prev, ids')) : Extends ids ids' := by
  unfold publishNode at h
  simp only [Option.bind_eq_bind, Option.bind_eq_some_iff, Option.pure_def, Option.some.injEq,
    Prod.exists, Prod.mk.injEq] at h
  obtain ⟨node, hnode, bnd, _, ids1, hscore, crd, ids2, hresolve, _, rfl⟩ := h
  obtain ⟨hnodes1, hptrs1⟩ := extends_addScore hscore
  obtain ⟨hnodes2, hptrs2⟩ := extends_resolveId hresolve
  refine ⟨?_, ?_⟩
  · show Keeps ids.nodes ids2.nodes
    rw [hnodes2, hnodes1]
    exact keeps_set hnode _ _
  · intro key ptr hptr
    show ids2.ptrCache key = _
    rw [hptrs2, hptrs1]
    exact hptr

theorem extends_publish {c : ConnectionPtr} {first last : Option RnnNodePtr}
    {ids ids' : RnnIdContainer} (h : publish resolver lat first c last ids = some ids') :
    Extends ids ids' := by
  induction c generalizing last ids with
  | null =>
      unfold publish at h
      split at h
      · cases h
        exact .refl _
      · cases h
  | conn b l r m previous ih =>
      unfold publish at h
      split at h
      · cases h
        exact .refl _
      · simp only [Option.bind_eq_bind, Option.bind_eq_some_iff, Prod.exists] at h
        obtain ⟨node, _, prev, ids1, hnode, hrest⟩ := h
        exact (extends_publishNode hnode).trans (ih hrest)

theorem extends_addPath {c : ConnectionPtr} {ids ids' : RnnIdContainer}
    (h : addPath resolver lat c ids = some ids') : Extends ids ids' := by
  unfold addPath at h
  simp only [Option.bind_eq_bind, Option.bind_eq_some_iff, Prod.exists] at h
  obtain ⟨first, last, ids1, hchain, hpublish⟩ := h
  exact (extends_addPrevChain hchain).trans (extends_publish hpublish)

end Extends

end Jumanpp.Core.Analysis.Rnn
