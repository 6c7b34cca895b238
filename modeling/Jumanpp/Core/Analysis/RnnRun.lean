import Jumanpp.Core.Analysis.RnnInvariant

/-!
# Resolving the kept paths

Path by path either the invariant is kept, or two connections with the same chain were not visited
in a row, and then a connection has got a node with another chain.
-/

namespace Jumanpp.Core.Analysis.Rnn

open RnnIdContainer

section Run

variable {resolver : RnnIdResolver} {lat : Lattice} {bos : ConnectionPtr} {numBnds : Nat}
  {level : ConnectionPtr → Nat} {kept : ConnectionPtr → Prop} {above : List ConnectionPtr}
  {vis pend done : List Entry} {ids ids' : RnnIdContainer}

/-! ## Looking for a node with the same chain -/

theorem anyHash_eq (hash : UInt64) {list : List RnnNodePtr}
    (h : ∀ ptr ∈ list, ∃ node, ids.nodes[ptr]? = some node) :
    ∃ found, ids.anyHash hash list = some found ∧
      (found = true ↔ ∃ ptr ∈ list, ∃ node, ids.nodes[ptr]? = some node ∧ node.hash = hash) := by
  induction list with
  | nil => exact ⟨false, rfl, by simp⟩
  | cons ptr list ih =>
      obtain ⟨node, hnode⟩ := h ptr List.mem_cons_self
      obtain ⟨found, hfound, hiff⟩ := ih fun p hp => h p (List.mem_cons_of_mem _ hp)
      unfold anyHash
      simp only [hnode, Option.bind_eq_bind, Option.bind_some]
      split_ifs with hhash
      · exact ⟨true, rfl, by simpa using Or.inl ⟨node, hnode, hhash⟩⟩
      · refine ⟨found, hfound, hiff.trans ?_⟩
        constructor
        · rintro ⟨p, hp, hnode'⟩
          exact ⟨p, List.mem_cons_of_mem _ hp, hnode'⟩
        · rintro ⟨p, hp, node', hnode', hhash'⟩
          rcases List.mem_cons.mp hp with rfl | hp
          · rw [hnode, Option.some.injEq] at hnode'
            subst hnode'
            exact absurd hhash' hhash
          · exact ⟨p, hp, node', hnode', hhash'⟩

/-- The nodes that the search looks at were published in the boundary of the coordinate. -/
theorem Published.walk (hlinks : Links bos (coordOf resolver lat) numBnds level kept)
    (h : Published resolver lat numBnds kept done ids) {c : ConnectionPtr} (hc : kept c)
    {cached : RnnNodePtr} (hcached : ids.crdCache (coordOf resolver lat c) = some cached) :
    ∃ node, ids.nodes[cached]? = some node ∧
      ∀ ptr ∈ cached :: node.nextInBnd, ∃ e ∈ done, e.1.boundary = c.boundary ∧ e.2 = ptr := by
  obtain ⟨e, he, hcoord, hptr⟩ := h.exists_entry_of_crdCache hc hcached
  have hsame : e.1.boundary = c.boundary := by
    rw [← hlinks.boundary_eq _ (h.isKept e he), hcoord, hlinks.boundary_eq _ hc]
  obtain ⟨newer, older, hlist⟩ := List.append_of_mem (mem_nodesAt.mpr ⟨e, he, hsame, hptr⟩)
  obtain ⟨node, hnode, _, hnext⟩ := h.listed _ _ _ _ hlist
  refine ⟨node, hnode, fun ptr hmem => mem_nodesAt.mp ?_⟩
  rw [hlist, hnext.symm]
  exact List.mem_append_right _ hmem

theorem findCollapsed_spec (hlinks : Links bos (coordOf resolver lat) numBnds level kept)
    (hmapped : Mapped resolver lat bos kept above (pend ++ done) ids)
    (hpublished : Published resolver lat numBnds kept done ids) {c : ConnectionPtr} (hc : kept c) :
    (ids.findCollapsed (coordOf resolver lat c)
          (chainHash (chain bos (coordOf resolver lat) c)) = some none ∧
        ∀ e ∈ done, chain bos (coordOf resolver lat) e.1 ≠ chain bos (coordOf resolver lat) c) ∨
      ∃ cached, ids.findCollapsed (coordOf resolver lat c)
          (chainHash (chain bos (coordOf resolver lat) c)) = some (some cached) ∧
        ids.crdCache (coordOf resolver lat c) = some cached ∧
        ∃ e ∈ done, chain bos (coordOf resolver lat) e.1 = chain bos (coordOf resolver lat) c := by
  have hstored : ∀ e ∈ done, ∃ node, ids.nodes[e.2]? = some node ∧
      node.hash = chainHash (chain bos (coordOf resolver lat) e.1) := by
    intro e he
    obtain ⟨node, hnode, hhash, _⟩ := hmapped.stored e (List.mem_append_right _ he)
    exact ⟨node, hnode, hhash⟩
  have hcoord : ∀ e ∈ done,
      chain bos (coordOf resolver lat) e.1 = chain bos (coordOf resolver lat) c →
        coordOf resolver lat e.1 = coordOf resolver lat c := fun e he hchain =>
    hlinks.coordOf_eq (hpublished.isKept e he) hc hchain
  unfold findCollapsed
  cases hcached : ids.crdCache (coordOf resolver lat c) with
  | none =>
      refine Or.inl ⟨rfl, fun e he hchain => ?_⟩
      have hrecent := hpublished.recent c hc
      rw [hcached, eq_comm, Option.map_eq_none_iff, List.find?_eq_none] at hrecent
      exact hrecent e he (by simpa using hcoord e he hchain)
  | some cached =>
      obtain ⟨node, hnode, hwalk⟩ := hpublished.walk hlinks hc hcached
      have hvalid : ∀ ptr ∈ cached :: node.nextInBnd, ∃ node, ids.nodes[ptr]? = some node := by
        intro ptr hptr
        obtain ⟨e, he, _, rfl⟩ := hwalk ptr hptr
        obtain ⟨node', hnode', _⟩ := hstored e he
        exact ⟨node', hnode'⟩
      obtain ⟨found, hany, hfound⟩ :=
        anyHash_eq (chainHash (chain bos (coordOf resolver lat) c)) hvalid
      simp only [hnode, hany, Option.bind_eq_bind, Option.bind_some, Option.pure_def]
      cases found with
      | false =>
          refine Or.inl ⟨rfl, fun e he hchain => ?_⟩
          have hmem := hpublished.found e he cached node (by rw [hcoord e he hchain, hcached]) hnode
          obtain ⟨node', hnode', hhash'⟩ := hstored e he
          exact Bool.false_ne_true (hfound.mpr ⟨e.2, hmem, node', hnode', by rw [hhash', hchain]⟩)
      | true =>
          obtain ⟨ptr, hptr, node', hnode', hhash'⟩ := hfound.mp rfl
          obtain ⟨e, he, hboundary, rfl⟩ := hwalk ptr hptr
          obtain ⟨node'', hnode'', hhash''⟩ := hstored e he
          rw [hnode', Option.some.injEq] at hnode''
          subst hnode''
          refine Or.inr ⟨cached, rfl, rfl, e, he, ?_⟩
          exact hlinks.chain_eq_of_hash (hpublished.isKept e he) hc hboundary
            (hhash''.symm.trans hhash')

/-! ## One connection -/

/-- A connection is mapped to a node with another chain. -/
def Strays (resolver : RnnIdResolver) (lat : Lattice) (bos : ConnectionPtr)
    (seen : List ConnectionPtr) (ids : RnnIdContainer) : Prop :=
  ∃ c ∈ seen, ∃ ptr coords, ids.ptrCache c.key = some (some ptr) ∧
    HasChain ids.nodes ptr coords ∧ coords ≠ chain bos (coordOf resolver lat) c

theorem Strays.extends {seen seen' : List ConnectionPtr} (h : Strays resolver lat bos seen ids)
    (hext : Extends ids ids') (hseen : ∀ c ∈ seen, c ∈ seen') :
    Strays resolver lat bos seen' ids' := by
  obtain ⟨c, hc, ptr, coords, hptr, hchain, hne⟩ := h
  exact ⟨c, hseen c hc, ptr, coords, hext.ptrs _ _ hptr, hchain.keeps hext.nodes, hne⟩

/-- The new nodes of a path: from the node `last` of the connection `c` back to `first`. -/
def Linked (nodes : List RnnNode) (first : RnnNodePtr) :
    List Entry → ConnectionPtr → RnnNodePtr → Prop
  | [], _, last => last = first
  | e :: pend, c, last => e = (c, last) ∧ ∃ node prev, nodes[last]? = some node ∧
      node.prev = some prev ∧ Linked nodes first pend c.previous prev

theorem Linked.keeps {nodes nodes' : List RnnNode} {first : RnnNodePtr} {c : ConnectionPtr}
    {last : RnnNodePtr} (h : Linked nodes first pend c last) (hkeeps : Keeps nodes nodes') :
    Linked nodes' first pend c last := by
  induction pend generalizing c last with
  | nil => exact h
  | cons e pend ih =>
      obtain ⟨he, node, prev, hnode, hprev, hrest⟩ := h
      obtain ⟨idx, next, hnode'⟩ := hkeeps _ _ hnode
      exact ⟨he, _, prev, hnode', hprev, ih hrest⟩

/-- After `addPrevChain`: the nodes of `pend` wait to be published. -/
structure Span (resolver : RnnIdResolver) (lat : Lattice) (bos : ConnectionPtr) (numBnds : Nat)
    (level : ConnectionPtr → Nat) (kept : ConnectionPtr → Prop) (above : List ConnectionPtr)
    (pend done : List Entry) (ids : RnnIdContainer) (c : ConnectionPtr)
    (first last : RnnNodePtr) : Prop where
  mapped : Mapped resolver lat bos kept above (pend ++ done) ids
  published : Published resolver lat numBnds kept done ids
  closed : Closed bos done
  new : ∀ e ∈ pend, ∀ e' ∈ done, e.2 ≠ e'.2
  linked : Linked ids.nodes first pend c last
  firstNode : first < ids.nodes.length
  ne_first : ∀ e ∈ pend, e.2 ≠ first
  lastEntry : c = bos ∧ last = bos1 ∨ (c, last) ∈ pend ++ done
  levels : pend.Pairwise fun e e' => level e'.1 < level e.1
  level_le : ∀ e ∈ pend, level e.1 ≤ level c
  grouped : Grouped bos (coordOf resolver lat) ((pend ++ done).map (·.1))

section Extend

variable {c : ConnectionPtr} {first prev : RnnNodePtr}
  (hlinks : Links bos (coordOf resolver lat) numBnds level kept)
  (hspan : Span resolver lat bos numBnds level kept (c :: above) pend done ids c.previous first prev)

include hlinks hspan

/-- The node that the connection before is mapped to. -/
theorem Span.prevNode : (∃ node, ids.nodes[prev]? = some node ∧
    node.hash = chainHash (chain bos (coordOf resolver lat) c.previous)) ∧
    HasChain ids.nodes prev (chain bos (coordOf resolver lat) c.previous) := by
  rcases hspan.lastEntry with ⟨hbos, hlast⟩ | hentry
  · rw [hbos, hlinks.chain_bos, hlast]
    exact ⟨hspan.mapped.bosNode, .bos⟩
  · obtain ⟨node, hnode, hhash, _⟩ := hspan.mapped.stored _ hentry
    exact ⟨⟨node, hnode, hhash⟩, hspan.mapped.hasChain _ hentry⟩

/-- The waiting nodes belong to connections before `c`. -/
theorem Span.level_lt (hc : kept c) : ∀ e ∈ pend, level e.1 < level c := by
  intro e he
  cases pend with
  | nil => cases he
  | cons x pend =>
      obtain ⟨hx, _⟩ := hspan.linked
      have hprev : kept c.previous := by
        have hkept := hspan.mapped.isKept x (by simp)
        rw [hx] at hkept
        exact hkept
      have hle := hspan.level_le e he
      have hlt := hlinks.level_lt c hc hprev
      omega

theorem Span.chain_ne_of_mem_pend (hc : kept c) : ∀ e ∈ pend,
    chain bos (coordOf resolver lat) e.1 ≠ chain bos (coordOf resolver lat) c := by
  intro e he hchain
  have hkept := hspan.mapped.isKept e (List.mem_append_left _ he)
  have hcoord := hlinks.coordOf_eq hkept hc hchain
  have hboundary : e.1.boundary = c.boundary := by
    rw [← hlinks.boundary_eq _ hkept, hcoord, hlinks.boundary_eq _ hc]
  have hlevel := hlinks.level_boundary _ _ hkept hc hboundary
  have hlt := hspan.level_lt hlinks hc e he
  omega

/-- A chain that has been published continues one that has been published. -/
theorem Span.pend_eq_nil (hc : kept c) {e : Entry} (he : e ∈ done)
    (hchain : chain bos (coordOf resolver lat) e.1 = chain bos (coordOf resolver lat) c) :
    pend = [] := by
  cases pend with
  | nil => rfl
  | cons x pend =>
      exfalso
      obtain ⟨rfl, _⟩ := hspan.linked
      have hprev : kept c.previous := hspan.mapped.isKept (c.previous, prev) (by simp)
      have hkept := hspan.published.isKept e he
      rw [hlinks.chain_eq hkept, hlinks.chain_eq hc, List.cons.injEq] at hchain
      rcases hspan.closed e he with hbos | ⟨e', he', hprevious⟩
      · rw [hbos, hlinks.chain_bos] at hchain
        exact hlinks.chain_ne_nil hprev hchain.2.symm
      · have hshare := hspan.mapped.share e' (List.mem_append_right _ he') (c.previous, prev)
          (by simp) (by rw [hprevious]; exact hchain.2)
        exact hspan.new (c.previous, prev) (by simp) e' he' hshare.symm

theorem Span.grouped_of_new (hc : kept c)
    (hnew : ∀ e ∈ done, chain bos (coordOf resolver lat) e.1 ≠ chain bos (coordOf resolver lat) c) :
    Grouped bos (coordOf resolver lat) (c :: (pend ++ done).map (·.1)) := by
  rw [grouped_cons]
  refine ⟨hspan.grouped, fun y z hsub _ hchain => ?_⟩
  have hz : z ∈ (pend ++ done).map (·.1) := hsub.subset (by simp)
  obtain ⟨e, he, rfl⟩ := List.mem_map.mp hz
  rcases List.mem_append.mp he with he | he
  · exact absurd hchain.symm (hspan.chain_ne_of_mem_pend hlinks hc e he)
  · exact absurd hchain.symm (hnew e he)

end Extend

/-- The connection visited last among those with the coordinate decides. -/
theorem grouped_cons_iff_recent {c : ConnectionPtr} {seen : List ConnectionPtr} {r e : ConnectionPtr}
    (hseen : Grouped bos (coordOf resolver lat) seen)
    (hr : seen.find? (fun x => coordOf resolver lat x == coordOf resolver lat c) = some r)
    (he : e ∈ seen) (hcoord : coordOf resolver lat e = coordOf resolver lat c)
    (hchain : chain bos (coordOf resolver lat) e = chain bos (coordOf resolver lat) c) :
    Grouped bos (coordOf resolver lat) (c :: seen) ↔
      chain bos (coordOf resolver lat) r = chain bos (coordOf resolver lat) c := by
  obtain ⟨hrcoord, before, after, rfl, hbefore⟩ := List.find?_eq_some_iff_append.mp hr
  rw [beq_iff_eq] at hrcoord
  have hnotBefore : ∀ x ∈ before, coordOf resolver lat x ≠ coordOf resolver lat c := by
    intro x hx hxcoord
    have hnot := hbefore x hx
    simp [hxcoord] at hnot
  rw [grouped_cons]
  constructor
  · rintro ⟨_, h⟩
    rw [List.mem_append, List.mem_cons] at he
    rcases he with hin | rfl | hafter
    · exact absurd hcoord (hnotBefore e hin)
    · exact hchain
    · have hsub : [r, e].Sublist (before ++ r :: after) :=
        ((List.singleton_sublist.mpr hafter).cons_cons r).trans (List.sublist_append_right _ _)
      exact h r e hsub hrcoord.symm hchain.symm
  · intro hrchain
    refine ⟨hseen, fun y z hsub hycoord hzchain => ?_⟩
    -- `y` is not visited after `r`
    obtain ⟨front, rest, heq, hfront, hrest⟩ := List.sublist_append_iff.mp hsub
    cases front with
    | cons y' front =>
        rw [List.cons_append, List.cons.injEq] at heq
        exact absurd (heq.1 ▸ hycoord.symm) (hnotBefore y' (hfront.subset List.mem_cons_self))
    | nil =>
        rw [List.nil_append] at heq
        subst heq
        cases hrest with
        | cons _ hafter =>
            have hsub' : [r, y, z].Sublist (before ++ r :: after) :=
              (hafter.cons_cons r).trans (List.sublist_append_right _ _)
            rw [← hrchain]
            exact hseen r y z hsub' (hrcoord.trans hycoord) (hrchain.trans hzchain)
        | cons_cons _ _ => exact hrchain

section Extend

variable {c : ConnectionPtr} {first prev : RnnNodePtr}
  (hlinks : Links bos (coordOf resolver lat) numBnds level kept)
  (hinfo : ∀ c, kept c → c.latticeNodePtr = eosPtr lat ∨
    ∃ ninfo, (lat.boundary c.boundary).nodeInfo[c.right]? = some ninfo)
  (hspan : Span resolver lat bos numBnds level kept (c :: above) pend done ids c.previous first prev)
  (hc : kept c) (hvis : ∀ e ∈ pend ++ done, e.1 ≠ c)

/-- What `extendChain` does with the result of the search. -/
def afterSearch (c : ConnectionPtr) (coord : RnnCoordinate) (first prev : RnnNodePtr)
    (hash : UInt64) (ids : RnnIdContainer) :
    Option RnnNodePtr → Option ((Option RnnNodePtr × Option RnnNodePtr) × RnnIdContainer)
  | some head =>
      ({ ids with ptrCache := Function.update ids.ptrCache c.key (some (some head)) }.addScore
        head c).bind fun ids => some ((some head, some head), ids)
  | none => some ((some first, some ids.nodes.length), { ids with
      nodes := ids.nodes ++ [⟨coord.rnnId, 0, c.boundary, coord.length, some prev, [], hash⟩]
      ptrCache := Function.update ids.ptrCache c.key (some (some ids.nodes.length)) })

include hlinks hinfo hspan hc in
theorem Span.extendChain_eq : ∃ ids1 : RnnIdContainer,
    Span resolver lat bos numBnds level kept (c :: above) pend done ids1 c.previous first prev ∧
    extendChain resolver lat c (some first) (some prev) ids =
      (ids1.findCollapsed (coordOf resolver lat c)
        (chainHash (chain bos (coordOf resolver lat) c))).bind
        (afterSearch c (coordOf resolver lat c) first prev
          (chainHash (chain bos (coordOf resolver lat) c)) ids1) := by
  obtain ⟨cache, hresolve, hcache⟩ := resolveId_spec hspan.mapped.cache (hinfo c hc)
  obtain ⟨⟨prevNode, hprevNode, hhash⟩, _⟩ := hspan.prevNode hlinks
  refine ⟨{ ids with nodeCache := cache }, ?_, ?_⟩
  · exact
      { hspan with
        mapped := hspan.mapped.keeps (Keeps.refl _) rfl hcache
        published := hspan.published.congr rfl rfl rfl fun _ _ _ => rfl }
  · have hchainHash : ((FastHash1.mk prevNode.hash).mix (coordOf resolver lat c).hashData).result =
        chainHash (chain bos (coordOf resolver lat) c) := by
      rw [hhash, hlinks.chain_eq hc]
      rfl
    unfold extendChain
    simp only [hresolve, hprevNode, Option.bind_eq_bind, Option.bind_some, hchainHash]
    rfl

include hlinks hspan hc hvis

/-- The chain is new, and so is its node. -/
theorem Span.allocate (hnew : ∀ e ∈ done,
      chain bos (coordOf resolver lat) e.1 ≠ chain bos (coordOf resolver lat) c) :
    ∃ ids', afterSearch c (coordOf resolver lat c) first prev
        (chainHash (chain bos (coordOf resolver lat) c)) ids none =
      some ((some first, some ids.nodes.length), ids') ∧
      Span resolver lat bos numBnds level kept above ((c, ids.nodes.length) :: pend) done ids' c
        first ids.nodes.length := by
  obtain ⟨⟨prevNode, hprevNode, _⟩, hprevChain⟩ := hspan.prevNode hlinks
  let ptr := ids.nodes.length
  let node : RnnNode := ⟨(coordOf resolver lat c).rnnId, 0, c.boundary,
    (coordOf resolver lat c).length, some prev, [],
    chainHash (chain bos (coordOf resolver lat) c)⟩
  have hnode : (ids.nodes ++ [node])[ptr]? = some node := by
    rw [List.getElem?_append_right (Nat.le_refl _), Nat.sub_self]
    rfl
  have hold : ∀ e ∈ pend ++ done, e.2 < ptr := by
    intro e he
    obtain ⟨old, hget, _⟩ := hspan.mapped.stored e he
    exact (List.getElem?_eq_some_iff.mp hget).1
  have hbos1 : bos1 < ptr := by
    obtain ⟨old, hget, _⟩ := hspan.mapped.bosNode
    exact (List.getElem?_eq_some_iff.mp hget).1
  have hchain : HasChain (ids.nodes ++ [node]) ptr (chain bos (coordOf resolver lat) c) := by
    have hcoord : (⟨node.boundary, node.length, node.id⟩ : RnnCoordinate) =
        coordOf resolver lat c := by
      show (⟨c.boundary, _, _⟩ : RnnCoordinate) = _
      rw [← hlinks.boundary_eq c hc]
    rw [hlinks.chain_eq hc, ← hcoord]
    exact .node hbos1.ne' hnode rfl (hprevChain.keeps (keeps_append _ _))
  refine ⟨_, rfl, ?_, ?_, hspan.closed, ?_, ?_, ?_, ?_, ?_, ?_, ?_, ?_⟩
  · refine hspan.mapped.insert hlinks hc hvis (keeps_append _ node) rfl hspan.mapped.cache hnode rfl
      rfl hchain ?_ ?_
    · intro e he hsame
      rcases List.mem_append.mp he with he | he
      · exact absurd hsame (hspan.chain_ne_of_mem_pend hlinks hc e he)
      · exact absurd hsame (hnew e he)
    · rcases hspan.lastEntry with ⟨hbos, _⟩ | hentry
      · exact Or.inl hbos
      · exact Or.inr ⟨_, hentry, rfl⟩
  · refine hspan.published.congr rfl rfl (List.getElem?_append_left hbos1) fun b p hp => ?_
    obtain ⟨e, he, _, rfl⟩ := mem_nodesAt.mp hp
    exact List.getElem?_append_left (hold e (List.mem_append_right _ he))
  · intro e he e' he'
    rcases List.mem_cons.mp he with rfl | he
    · exact (hold e' (List.mem_append_right _ he')).ne'
    · exact hspan.new e he e' he'
  · exact ⟨rfl, node, prev, hnode, rfl, hspan.linked.keeps (keeps_append _ _)⟩
  · show first < (ids.nodes ++ [node]).length
    rw [List.length_append]
    exact Nat.lt_of_lt_of_le hspan.firstNode (Nat.le_add_right _ _)
  · intro e he
    rcases List.mem_cons.mp he with rfl | he
    · exact hspan.firstNode.ne'
    · exact hspan.ne_first e he
  · exact Or.inr (by simp)
  · rw [List.pairwise_cons]
    exact ⟨hspan.level_lt hlinks hc, hspan.levels⟩
  · intro e he
    rcases List.mem_cons.mp he with rfl | he
    · exact Nat.le_refl _
    · exact (hspan.level_lt hlinks hc e he).le
  · exact hspan.grouped_of_new hlinks hc hnew

/-- The chain has been published, and the connection visited last among those with the coordinate
has it. -/
theorem Span.collapse {r : Entry} {cached : RnnNodePtr} (hpend : pend = [])
    (hcached : ids.crdCache (coordOf resolver lat c) = some cached) (hr : r ∈ done)
    (hptr : r.2 = cached) (hcoord : coordOf resolver lat r.1 = coordOf resolver lat c)
    (hchain : chain bos (coordOf resolver lat) r.1 = chain bos (coordOf resolver lat) c)
    (hgrouped : Grouped bos (coordOf resolver lat) (c :: done.map (·.1))) :
    ∃ ids', afterSearch c (coordOf resolver lat c) first prev
        (chainHash (chain bos (coordOf resolver lat) c)) ids (some cached) =
      some ((some cached, some cached), ids') ∧
      Span resolver lat bos numBnds level kept above [] ((c, cached) :: done) ids' c cached
        cached := by
  subst hpend hptr
  have hrkept := hspan.published.isKept r hr
  obtain ⟨node, hnode, hhash, hnodeBoundary⟩ := hspan.mapped.stored r hr
  have hboundary : node.boundary = c.boundary := by
    rw [hnodeBoundary, ← hlinks.boundary_eq _ hrkept, hcoord, hlinks.boundary_eq _ hc]
  let ids1 : RnnIdContainer :=
    { ids with ptrCache := Function.update ids.ptrCache c.key (some (some r.2)) }
  have hpublished : Published resolver lat numBnds kept done ids1 :=
    hspan.published.congr rfl rfl rfl fun _ _ _ => rfl
  obtain ⟨bnds, hscore, hpublished'⟩ := hpublished.collapse hlinks hc hcached hnode hboundary
  have hprevious : c.previous = bos ∨ ∃ e ∈ done, e.1 = c.previous := by
    rcases hspan.lastEntry with ⟨hbos, _⟩ | hentry
    · exact Or.inl hbos
    · exact Or.inr ⟨_, hentry, rfl⟩
  refine ⟨{ ids1 with boundaries := bnds }, ?_, ?_, hpublished', ?_, by simp, rfl, ?_, by simp,
    Or.inr (by simp), List.Pairwise.nil, by simp, hgrouped⟩
  · exact congrArg (Option.bind · fun ids => some ((some r.2, some r.2), ids)) hscore
  · refine hspan.mapped.insert hlinks hc hvis (Keeps.refl _) rfl hspan.mapped.cache hnode
      (by rw [hhash, hchain]) hboundary ?_ ?_ hprevious
    · rw [← hchain]
      exact hspan.mapped.hasChain r hr
    · intro e he hsame
      exact hspan.mapped.share e he r hr (hsame.trans hchain.symm)
  · intro e he
    rcases List.mem_cons.mp he with rfl | he
    · exact hprevious.imp_right fun ⟨e, he, hprev⟩ => ⟨e, List.mem_cons_of_mem _ he, hprev⟩
    · exact (hspan.closed e he).imp_right fun ⟨e, he, hprev⟩ =>
        ⟨e, List.mem_cons_of_mem _ he, hprev⟩
  · exact (List.getElem?_eq_some_iff.mp hnode).1

omit hlinks hc hvis in
/-- The chain has been published, but the node that the connection gets has another one. -/
theorem Span.strays {r : Entry} {cached : RnnNodePtr} (hr : r ∈ done) (hptr : r.2 = cached)
    (hne : chain bos (coordOf resolver lat) r.1 ≠ chain bos (coordOf resolver lat) c)
    {span : Option RnnNodePtr × Option RnnNodePtr}
    (hrun : afterSearch c (coordOf resolver lat c) first prev
      (chainHash (chain bos (coordOf resolver lat) c)) ids (some cached) = some (span, ids')) :
    Strays resolver lat bos (c :: (pend ++ done).map (·.1)) ids' := by
  unfold afterSearch at hrun
  rw [Option.bind_eq_some_iff] at hrun
  obtain ⟨ids1, hscore, hids⟩ := hrun
  rw [Option.some.injEq, Prod.mk.injEq] at hids
  obtain ⟨_, rfl⟩ := hids
  obtain ⟨hnodes, hptrs⟩ := extends_addScore hscore
  refine ⟨c, List.mem_cons_self, cached, _, ?_, ?_, hne⟩
  · rw [hptrs]
    exact Function.update_self _ _ _
  · rw [hnodes, ← hptr]
    exact hspan.mapped.hasChain r (List.mem_append_right _ hr)

include hinfo in
/-- One connection, when the chain before it has been resolved. -/
theorem Span.extendChain_spec :
    (∃ pend' done' ids' first' last',
      extendChain resolver lat c (some first) (some prev) ids =
        some ((some first', some last'), ids') ∧
      Span resolver lat bos numBnds level kept above pend' done' ids' c first' last' ∧
      (pend' ++ done').map (·.1) = c :: (pend ++ done).map (·.1)) ∨
    (¬ Grouped bos (coordOf resolver lat) (c :: (pend ++ done).map (·.1)) ∧
      ∀ span ids', extendChain resolver lat c (some first) (some prev) ids = some (span, ids') →
        Strays resolver lat bos (c :: (pend ++ done).map (·.1)) ids') := by
  obtain ⟨ids1, hspan1, heq⟩ := hspan.extendChain_eq hlinks hinfo hc
  rw [heq]
  rcases findCollapsed_spec hlinks hspan1.mapped hspan1.published hc with
    ⟨hfind, hnew⟩ | ⟨cached, hfind, hcached, e, he, hchain⟩
  · obtain ⟨ids', hrun, hspan'⟩ := hspan1.allocate hlinks hc hvis hnew
    exact Or.inl ⟨_, _, ids', _, _, by rw [hfind, Option.bind_some, hrun], hspan', rfl⟩
  · have hpend := hspan1.pend_eq_nil hlinks hc he hchain
    have hrecent := hspan1.published.recent c hc
    rw [hcached, eq_comm, Option.map_eq_some_iff] at hrecent
    obtain ⟨r, hfindr, hptr⟩ := hrecent
    have hr := List.mem_of_find?_eq_some hfindr
    have hrcoord := List.find?_some hfindr
    rw [beq_iff_eq] at hrcoord
    have hseen : (done.map (·.1)).find?
        (fun x => coordOf resolver lat x == coordOf resolver lat c) = some r.1 := by
      rw [List.find?_map]
      exact congrArg (Option.map (·.1)) hfindr
    have hecoord := hlinks.coordOf_eq (hspan1.published.isKept e he) hc hchain
    have hgrouped := hspan1.grouped
    subst hpend
    have hiff := grouped_cons_iff_recent hgrouped hseen (List.mem_map_of_mem he) hecoord hchain
    by_cases hrchain : chain bos (coordOf resolver lat) r.1 = chain bos (coordOf resolver lat) c
    · obtain ⟨ids', hrun, hspan'⟩ := hspan1.collapse hlinks hc hvis rfl hcached hr hptr hrcoord
        hrchain (hiff.mpr hrchain)
      exact Or.inl ⟨_, _, ids', _, _, by rw [hfind, Option.bind_some, hrun], hspan', rfl⟩
    · refine Or.inr ⟨fun h => hrchain (hiff.mp h), fun span ids' hrun => ?_⟩
      rw [hfind, Option.bind_some] at hrun
      exact hspan1.strays hr hptr hrchain hrun

end Extend

/-! ## One path -/

section Path

variable (hlinks : Links bos (coordOf resolver lat) numBnds level kept)
  (hinfo : ∀ c, kept c → c.latticeNodePtr = eosPtr lat ∨
    ∃ ninfo, (lat.boundary c.boundary).nodeInfo[c.right]? = some ninfo)

/-- A connection that has been resolved before. -/
theorem span_of_resolved (hmapped : Mapped resolver lat bos kept above done ids)
    (hpublished : Published resolver lat numBnds kept done ids) (hclosed : Closed bos done)
    (hgrouped : Grouped bos (coordOf resolver lat) (done.map (·.1))) {c : ConnectionPtr}
    {ptr : RnnNodePtr} (hptr : c = bos ∧ ptr = bos1 ∨ (c, ptr) ∈ done) :
    Span resolver lat bos numBnds level kept above [] done ids c ptr ptr where
  mapped := hmapped
  published := hpublished
  closed := hclosed
  new := by simp
  linked := rfl
  firstNode := by
    rcases hptr with ⟨_, rfl⟩ | hentry
    · obtain ⟨node, hnode, _⟩ := hmapped.bosNode
      exact (List.getElem?_eq_some_iff.mp hnode).1
    · obtain ⟨node, hnode, _⟩ := hmapped.stored _ hentry
      exact (List.getElem?_eq_some_iff.mp hnode).1
  ne_first := by simp
  lastEntry := hptr
  levels := .nil
  level_le := by simp
  grouped := hgrouped

theorem addPrevChain_of_some {c : ConnectionPtr} {node : Option RnnNodePtr}
    (hc : c ≠ .null) (hget : ids.ptrCache c.key = some node) :
    addPrevChain resolver lat c ids = some ((node, node), ids) := by
  cases c with
  | null => exact absurd rfl hc
  | conn b l r m p =>
      unfold addPrevChain
      simp only [hget]

theorem addPrevChain_of_none {c : ConnectionPtr} (hc : c ≠ .null)
    (hget : ids.ptrCache c.key = none) :
    addPrevChain resolver lat c ids = (addPrevChain resolver lat c.previous
      { ids with ptrCache := Function.update ids.ptrCache c.key (some none) }).bind fun x =>
        extendChain resolver lat c x.1.1 x.1.2 x.2 := by
  cases c with
  | null => exact absurd rfl hc
  | conn b l r m p =>
      conv_lhs => unfold addPrevChain
      simp only [hget]
      rfl

theorem addPrevChain_resolved (hmapped : Mapped resolver lat bos kept above done ids)
    (hpublished : Published resolver lat numBnds kept done ids) (hclosed : Closed bos done)
    (hgrouped : Grouped bos (coordOf resolver lat) (done.map (·.1))) {c : ConnectionPtr}
    {ptr : RnnNodePtr} (hnull : c ≠ .null) (hentry : c = bos ∧ ptr = bos1 ∨ (c, ptr) ∈ done)
    (hget : ids.ptrCache c.key = some (some ptr)) :
    ∃ pend done' ids' first last,
      addPrevChain resolver lat c ids = some ((some first, some last), ids') ∧
      Span resolver lat bos numBnds level kept above pend done' ids' c first last ∧
      (pend ++ done').map (·.1) = visit bos (done.map (·.1)) c := by
  refine ⟨[], done, ids, ptr, ptr, addPrevChain_of_some hnull hget,
    span_of_resolved hmapped hpublished hclosed hgrouped hentry, ?_⟩
  have hseen : c = bos ∨ c ∈ done.map (·.1) :=
    hentry.imp And.left fun h => List.mem_map.mpr ⟨_, h, rfl⟩
  rw [Links.visit_of_mem hseen]
  rfl

include hlinks hinfo

/-- By induction on the path: the connections before `c` are resolved first. -/
theorem addPrevChain_spec {c : ConnectionPtr} (hc : c = bos ∨ kept c)
    (hmapped : Mapped resolver lat bos kept above done ids)
    (hpublished : Published resolver lat numBnds kept done ids) (hclosed : Closed bos done)
    (hgrouped : Grouped bos (coordOf resolver lat) (done.map (·.1)))
    (habove : ∀ x ∈ connections bos c, x ∉ above) :
    (∃ pend done' ids' first last,
      addPrevChain resolver lat c ids = some ((some first, some last), ids') ∧
      Span resolver lat bos numBnds level kept above pend done' ids' c first last ∧
      (pend ++ done').map (·.1) = visit bos (done.map (·.1)) c) ∨
    (¬ Grouped bos (coordOf resolver lat) (visit bos (done.map (·.1)) c) ∧
      ∀ span ids', addPrevChain resolver lat c ids = some (span, ids') →
        Strays resolver lat bos (visit bos (done.map (·.1)) c) ids') := by
  induction hceq : c generalizing c above ids with
  | null =>
      subst hceq
      rcases hc with hbos | hc
      · exact absurd hbos.symm hlinks.bos_ne_null
      · exact absurd rfl (hlinks.ne_null _ hc)
  | conn b l r m p ih =>
      rw [← hceq]
      have hp : c.previous = p := by rw [hceq]; rfl
      have hnull : c ≠ .null := by rw [hceq]; exact ConnectionPtr.noConfusion
      by_cases hbos : c = bos
      · exact Or.inl (addPrevChain_resolved hmapped hpublished hclosed hgrouped hnull
          (Or.inl ⟨hbos, rfl⟩) (by rw [hbos]; exact hmapped.ptrBos))
      have hkept : kept c := hc.resolve_left hbos
      by_cases hseen : c ∈ done.map (·.1)
      · obtain ⟨⟨c', ptr⟩, hentry, rfl⟩ := List.mem_map.mp hseen
        exact Or.inl (addPrevChain_resolved hmapped hpublished hclosed hgrouped hnull
          (Or.inr hentry) (hmapped.ptr _ hentry))
      have hvis : ∀ e ∈ done, e.1 ≠ c := by
        intro e he heq
        exact hseen (heq ▸ List.mem_map_of_mem he)
      have hconnections := hlinks.connections_eq hkept
      have hfresh : ids.ptrCache c.key = none :=
        hmapped.fresh c hkept (habove c (by rw [hconnections]; exact List.mem_cons_self)) hvis
      have hnotBefore : c ∉ connections bos c.previous := by
        intro hmem
        have hlt := (hlinks.level_lt_of_mem hkept hmem).2
        omega
      have habove' : ∀ x ∈ connections bos c.previous, x ∉ c :: above := by
        intro x hx hmem
        rcases List.mem_cons.mp hmem with rfl | hmem
        · exact hnotBefore hx
        · exact habove x (by rw [hconnections]; exact List.mem_cons_of_mem _ hx) hmem
      have hnotVisited : ∀ x ∈ visit bos (done.map (·.1)) c.previous, x ≠ c := by
        rintro x hmem rfl
        rcases mem_of_mem_visit hmem with hmem | hmem
        · exact hseen hmem
        · exact hnotBefore hmem
      rw [hlinks.visit_eq hkept hseen, addPrevChain_of_none hnull hfresh]
      have hmapped' := hmapped.enter hlinks hkept hvis
      have hpublished' : Published resolver lat numBnds kept done
          { ids with ptrCache := Function.update ids.ptrCache c.key (some none) } :=
        hpublished.congr rfl rfl rfl fun _ _ _ => rfl
      have hprevious := ih (hlinks.previous _ hkept) hmapped' hpublished' habove' hp
      rw [← hp] at hprevious
      rcases hprevious with
        ⟨pend, done', ids1, first, prev, hrun, hspan, hmap⟩ | ⟨hungrouped, hstrays⟩
      · rw [hrun, Option.bind_some, ← hmap]
        refine hspan.extendChain_spec hlinks hinfo hkept fun e he => ?_
        exact hnotVisited e.1 (by rw [← hmap]; exact List.mem_map_of_mem he)
      · refine Or.inr ⟨fun h => hungrouped (h.sublist (List.sublist_cons_self _ _)),
          fun span ids' hrun => ?_⟩
        rw [Option.bind_eq_some_iff] at hrun
        obtain ⟨⟨span1, ids1⟩, hrun1, hextend⟩ := hrun
        obtain ⟨x, hx, ptr, coords, hptr, hchain, hne⟩ := hstrays span1 ids1 hrun1
        have hxkept : kept x := by
          rcases mem_of_mem_visit hx with hmem | hmem
          · obtain ⟨e, he, rfl⟩ := List.mem_map.mp hmem
            exact hmapped.isKept e he
          · exact (hlinks.level_lt_of_mem hkept hmem).1
        have hkey : x.key ≠ c.key := fun hkey =>
          hnotVisited x hx (hlinks.key_inj _ _ hxkept hkept hkey)
        obtain ⟨hkeeps, hptrs⟩ := extends_extendChain hextend
        exact ⟨x, List.mem_cons_of_mem _ hx, ptr, coords, by rw [hptrs _ hkey]; exact hptr,
          hchain.keeps hkeeps, hne⟩

end Path

end Run

end Jumanpp.Core.Analysis.Rnn
