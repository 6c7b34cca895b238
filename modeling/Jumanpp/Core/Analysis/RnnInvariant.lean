import Jumanpp.Core.Analysis.RnnPublish

/-!
# The invariant of the RNN lattice

While equal chains come in a row, the entries that have been published determine the lists of the
boundaries, their scores and `crdCache_`.
-/

namespace Jumanpp.Core.Analysis.Rnn

open RnnIdContainer

/-! ## The entries of a boundary -/

def entriesAt (b : Nat) (done : List Entry) : List Entry :=
  done.filter fun e => e.1.boundary == b

/-- The nodes of a boundary, the last one first. -/
def nodesAt (b : Nat) (done : List Entry) : List RnnNodePtr :=
  ((entriesAt b done).map (·.2)).dedup

def publishedAt (b : Nat) (done : List Entry) : RnnBoundary where
  node := nodesAt b done
  scores := (entriesAt b done).map fun e => ⟨e.1, e.2⟩
  nodeCnt := (nodesAt b done).length
  scoreCnt := (entriesAt b done).length

theorem mem_entriesAt {b : Nat} {done : List Entry} {e : Entry} :
    e ∈ entriesAt b done ↔ e ∈ done ∧ e.1.boundary = b := by
  unfold entriesAt
  rw [List.mem_filter, beq_iff_eq]

theorem mem_nodesAt {b : Nat} {done : List Entry} {ptr : RnnNodePtr} :
    ptr ∈ nodesAt b done ↔ ∃ e ∈ done, e.1.boundary = b ∧ e.2 = ptr := by
  unfold nodesAt
  rw [List.mem_dedup, List.mem_map]
  simp only [mem_entriesAt, and_assoc]

section Insert

variable {x : Entry} {D1 D2 : List Entry} (hD1 : ∀ e ∈ D1, e.1.boundary ≠ x.1.boundary)

include hD1

/-- The position of an entry among those of other boundaries does not matter. -/
theorem entriesAt_insert (b : Nat) : entriesAt b (D1 ++ x :: D2) =
    if x.1.boundary = b then x :: entriesAt b (D1 ++ D2) else entriesAt b (D1 ++ D2) := by
  unfold entriesAt
  rw [List.filter_append, List.filter_cons, List.filter_append]
  by_cases h : x.1.boundary = b
  · have hnil : D1.filter (fun e => e.1.boundary == b) = [] := by
      rw [List.filter_eq_nil_iff]
      intro e he
      rw [beq_iff_eq, ← h]
      exact hD1 e he
    rw [hnil, if_pos h, if_pos (by simpa using h)]
    rfl
  · rw [if_neg h, if_neg (by simpa using h)]

theorem publishedAt_insert_of_ne {b : Nat} (hb : x.1.boundary ≠ b) :
    publishedAt b (D1 ++ x :: D2) = publishedAt b (D1 ++ D2) := by
  unfold publishedAt nodesAt
  rw [entriesAt_insert hD1, if_neg hb]

theorem nodesAt_insert_of_mem (hmem : x.2 ∈ nodesAt x.1.boundary (D1 ++ D2)) (b : Nat) :
    nodesAt b (D1 ++ x :: D2) = nodesAt b (D1 ++ D2) := by
  unfold nodesAt at hmem ⊢
  rw [entriesAt_insert hD1]
  split_ifs with h
  · subst h
    rw [List.mem_dedup] at hmem
    rw [List.map_cons, List.dedup_cons_of_mem hmem]
  · rfl

theorem nodesAt_insert_of_notMem (hmem : x.2 ∉ nodesAt x.1.boundary (D1 ++ D2)) (b : Nat) :
    nodesAt b (D1 ++ x :: D2) =
      if x.1.boundary = b then x.2 :: nodesAt b (D1 ++ D2) else nodesAt b (D1 ++ D2) := by
  unfold nodesAt at hmem ⊢
  rw [entriesAt_insert hD1]
  split_ifs with h
  · subst h
    rw [List.mem_dedup] at hmem
    rw [List.map_cons, List.dedup_cons_of_notMem hmem]
  · rfl

omit hD1 in
theorem find?_insert {p : Entry → Bool} (hp : p x = true → ∀ e ∈ D1, p e = false) :
    (D1 ++ x :: D2).find? p = if p x then some x else (D1 ++ D2).find? p := by
  rw [List.find?_append, List.find?_cons, List.find?_append]
  cases hx : p x with
  | true =>
      have hnone : D1.find? p = none := by
        rw [List.find?_eq_none]
        intro e he
        rw [hp hx e he]
        exact Bool.false_ne_true
      rw [hnone]
      rfl
  | false => rfl

end Insert

/-! ## The invariant -/

section Invariant

variable (resolver : RnnIdResolver) (lat : Lattice) (bos : ConnectionPtr) (numBnds : Nat)
  (kept : ConnectionPtr → Prop)

/-- Every connection that was visited is mapped to the node that has its chain; the connections in
`above` are being looked at. -/
structure Mapped (above : List ConnectionPtr) (vis : List Entry) (ids : RnnIdContainer) : Prop where
  isKept : ∀ e ∈ vis, kept e.1
  cache : CacheOk resolver lat ids.nodeCache
  bosNode : ∃ node, ids.nodes[bos1]? = some node ∧ node.hash = chainHash []
  stored : ∀ e ∈ vis, ∃ node, ids.nodes[e.2]? = some node ∧
    node.hash = chainHash (chain bos (coordOf resolver lat) e.1) ∧ node.boundary = e.1.boundary
  hasChain : ∀ e ∈ vis, HasChain ids.nodes e.2 (chain bos (coordOf resolver lat) e.1)
  ptrBos : ids.ptrCache bos.key = some (some bos1)
  ptr : ∀ e ∈ vis, ids.ptrCache e.1.key = some (some e.2)
  fresh : ∀ c, kept c → c ∉ above → (∀ e ∈ vis, e.1 ≠ c) → ids.ptrCache c.key = none
  share : ∀ e ∈ vis, ∀ e' ∈ vis, chain bos (coordOf resolver lat) e.1 =
    chain bos (coordOf resolver lat) e'.1 → e.2 = e'.2
  previous : ∀ e ∈ vis, e.1.previous = bos ∨ ∃ e' ∈ vis, e'.1 = e.1.previous

/-- What has been published of the entries `done`. -/
structure Published (done : List Entry) (ids : RnnIdContainer) : Prop where
  isKept : ∀ e ∈ done, kept e.1
  length_eq : ids.boundaries.length = numBnds
  boundaries : ∀ b < numBnds, b ≠ 1 → ids.boundaries[b]? = some (publishedAt b done)
  bosBoundary : ids.boundaries[1]? = some ⟨[bos1], [], 1, 0⟩
  bosIdx : ids.nodes[bos1]?.map (·.idx) = some 0
  listed : ∀ b newer ptr older, nodesAt b done = newer ++ ptr :: older →
    ∃ node, ids.nodes[ptr]? = some node ∧ node.idx = older.length ∧ node.nextInBnd = older
  recent : ∀ c, kept c → ids.crdCache (coordOf resolver lat c) =
    (done.find? fun e => coordOf resolver lat e.1 == coordOf resolver lat c).map (·.2)
  found : ∀ e ∈ done, ∀ cached node, ids.crdCache (coordOf resolver lat e.1) = some cached →
    ids.nodes[cached]? = some node → e.2 ∈ cached :: node.nextInBnd
end Invariant

/-- With a connection the one before it has been published. -/
def Closed (bos : ConnectionPtr) (done : List Entry) : Prop :=
  ∀ e ∈ done, e.1.previous = bos ∨ ∃ e' ∈ done, e'.1 = e.1.previous

section Operations

variable {resolver : RnnIdResolver} {lat : Lattice} {bos : ConnectionPtr} {numBnds : Nat}
  {level : ConnectionPtr → Nat} {kept : ConnectionPtr → Prop} {above : List ConnectionPtr}
  {vis done : List Entry} {ids ids' : RnnIdContainer}

theorem Mapped.keeps (h : Mapped resolver lat bos kept above vis ids)
    (hnodes : Keeps ids.nodes ids'.nodes) (hptrs : ids'.ptrCache = ids.ptrCache)
    (hcache : CacheOk resolver lat ids'.nodeCache) :
    Mapped resolver lat bos kept above vis ids' where
  isKept := h.isKept
  cache := hcache
  bosNode := by
    obtain ⟨node, hnode, hhash⟩ := h.bosNode
    obtain ⟨idx, next, hnode'⟩ := hnodes _ _ hnode
    exact ⟨_, hnode', hhash⟩
  stored e he := by
    obtain ⟨node, hnode, hhash, hboundary⟩ := h.stored e he
    obtain ⟨idx, next, hnode'⟩ := hnodes _ _ hnode
    exact ⟨_, hnode', hhash, hboundary⟩
  hasChain e he := (h.hasChain e he).keeps hnodes
  ptrBos := by rw [hptrs]; exact h.ptrBos
  ptr e he := by rw [hptrs]; exact h.ptr e he
  fresh c hc habove hvis := by rw [hptrs]; exact h.fresh c hc habove hvis
  share := h.share
  previous := h.previous

theorem Mapped.congr (h : Mapped resolver lat bos kept above vis ids) {vis' : List Entry}
    (hmem : ∀ e, e ∈ vis' ↔ e ∈ vis) : Mapped resolver lat bos kept above vis' ids where
  isKept e he := h.isKept e ((hmem e).mp he)
  cache := h.cache
  bosNode := h.bosNode
  stored e he := h.stored e ((hmem e).mp he)
  hasChain e he := h.hasChain e ((hmem e).mp he)
  ptrBos := h.ptrBos
  ptr e he := h.ptr e ((hmem e).mp he)
  fresh c hc habove hvis := h.fresh c hc habove fun e he => hvis e ((hmem e).mpr he)
  share e he e' he' := h.share e ((hmem e).mp he) e' ((hmem e').mp he')
  previous e he := by
    obtain hbos | ⟨e', he', hprev⟩ := h.previous e ((hmem e).mp he)
    · exact Or.inl hbos
    · exact Or.inr ⟨e', (hmem e').mpr he', hprev⟩

/-- A connection is looked at: its key gets the null pointer. -/
theorem Mapped.enter (hlinks : Links bos (coordOf resolver lat) numBnds level kept)
    (h : Mapped resolver lat bos kept above vis ids) {c : ConnectionPtr} (hc : kept c)
    (hvis : ∀ e ∈ vis, e.1 ≠ c) :
    Mapped resolver lat bos kept (c :: above) vis
      { ids with ptrCache := Function.update ids.ptrCache c.key (some none) } where
  isKept := h.isKept
  cache := h.cache
  bosNode := h.bosNode
  stored := h.stored
  hasChain := h.hasChain
  ptrBos := by
    show Function.update ids.ptrCache c.key _ bos.key = _
    rw [Function.update_of_ne (hlinks.key_bos c hc).symm]
    exact h.ptrBos
  ptr e he := by
    have hne : e.1.key ≠ c.key := fun hkey =>
      hvis e he (hlinks.key_inj _ _ (h.isKept e he) hc hkey)
    show Function.update ids.ptrCache c.key _ e.1.key = _
    rw [Function.update_of_ne hne]
    exact h.ptr e he
  fresh c' hc' habove hvis' := by
    rw [List.mem_cons, not_or] at habove
    have hne : c'.key ≠ c.key := fun hkey => habove.1 (hlinks.key_inj _ _ hc' hc hkey)
    show Function.update ids.ptrCache c.key _ c'.key = _
    rw [Function.update_of_ne hne]
    exact h.fresh c' hc' habove.2 hvis'
  share := h.share
  previous := h.previous

/-- The connection is mapped to a node that has its chain. -/
theorem Mapped.insert (hlinks : Links bos (coordOf resolver lat) numBnds level kept)
    {c : ConnectionPtr} (h : Mapped resolver lat bos kept (c :: above) vis ids) (hc : kept c)
    (hvis : ∀ e ∈ vis, e.1 ≠ c) {ptr : RnnNodePtr} {node : RnnNode}
    (hnodes : Keeps ids.nodes ids'.nodes)
    (hptrs : ids'.ptrCache = Function.update ids.ptrCache c.key (some (some ptr)))
    (hcache : CacheOk resolver lat ids'.nodeCache) (hnode : ids'.nodes[ptr]? = some node)
    (hhash : node.hash = chainHash (chain bos (coordOf resolver lat) c))
    (hboundary : node.boundary = c.boundary)
    (hchain : HasChain ids'.nodes ptr (chain bos (coordOf resolver lat) c))
    (hshare : ∀ e ∈ vis, chain bos (coordOf resolver lat) e.1 =
      chain bos (coordOf resolver lat) c → e.2 = ptr)
    (hprevious : c.previous = bos ∨ ∃ e' ∈ vis, e'.1 = c.previous) :
    Mapped resolver lat bos kept above ((c, ptr) :: vis) ids' where
  isKept e he := by
    rcases List.mem_cons.mp he with rfl | he
    · exact hc
    · exact h.isKept e he
  cache := hcache
  bosNode := by
    obtain ⟨node, hnode, hhash⟩ := h.bosNode
    obtain ⟨idx, next, hnode'⟩ := hnodes _ _ hnode
    exact ⟨_, hnode', hhash⟩
  stored e he := by
    rcases List.mem_cons.mp he with rfl | he
    · exact ⟨node, hnode, hhash, hboundary⟩
    · obtain ⟨node, hnode, hhash, hboundary⟩ := h.stored e he
      obtain ⟨idx, next, hnode'⟩ := hnodes _ _ hnode
      exact ⟨_, hnode', hhash, hboundary⟩
  hasChain e he := by
    rcases List.mem_cons.mp he with rfl | he
    · exact hchain
    · exact (h.hasChain e he).keeps hnodes
  ptrBos := by
    rw [hptrs, Function.update_of_ne (hlinks.key_bos c hc).symm]
    exact h.ptrBos
  ptr e he := by
    rcases List.mem_cons.mp he with rfl | he
    · rw [hptrs, Function.update_self]
    · have hne : e.1.key ≠ c.key := fun hkey =>
        hvis e he (hlinks.key_inj _ _ (h.isKept e he) hc hkey)
      rw [hptrs, Function.update_of_ne hne]
      exact h.ptr e he
  fresh c' hc' habove hvis' := by
    have hne : c' ≠ c := fun heq => hvis' (c, ptr) (List.mem_cons_self) heq.symm
    have hkey : c'.key ≠ c.key := fun hkey => hne (hlinks.key_inj _ _ hc' hc hkey)
    rw [hptrs, Function.update_of_ne hkey]
    apply h.fresh c' hc'
    · rw [List.mem_cons, not_or]
      exact ⟨hne, habove⟩
    · exact fun e he => hvis' e (List.mem_cons_of_mem _ he)
  share e he e' he' hchains := by
    rcases List.mem_cons.mp he with rfl | he <;> rcases List.mem_cons.mp he' with rfl | he'
    · rfl
    · exact (hshare e' he' hchains.symm).symm
    · exact hshare e he hchains
    · exact h.share e he e' he' hchains
  previous e he := by
    have hlift : (∃ e' ∈ vis, e'.1 = e.1.previous) →
        ∃ e' ∈ (c, ptr) :: vis, e'.1 = e.1.previous := by
      rintro ⟨e', he', hprev⟩
      exact ⟨e', List.mem_cons_of_mem _ he', hprev⟩
    rcases List.mem_cons.mp he with rfl | he
    · exact hprevious.imp_right hlift
    · exact (h.previous e he).imp_right hlift

theorem Mapped.ne_bos1 (hlinks : Links bos (coordOf resolver lat) numBnds level kept)
    (h : Mapped resolver lat bos kept above vis ids) {e : Entry} (he : e ∈ vis) :
    e.2 ≠ bos1 := by
  intro hptr
  have hchain := h.hasChain e he
  rw [hptr] at hchain
  exact hlinks.chain_ne_nil (h.isKept e he) (hchain.unique .bos)

theorem Published.exists_entry_of_crdCache (h : Published resolver lat numBnds kept done ids)
    {c : ConnectionPtr} (hc : kept c) {cached : RnnNodePtr}
    (hcached : ids.crdCache (coordOf resolver lat c) = some cached) :
    ∃ e ∈ done, coordOf resolver lat e.1 = coordOf resolver lat c ∧ e.2 = cached := by
  rw [h.recent c hc, Option.map_eq_some_iff] at hcached
  obtain ⟨e, he, rfl⟩ := hcached
  have hcoord := List.find?_some he
  rw [beq_iff_eq] at hcoord
  exact ⟨e, List.mem_of_find?_eq_some he, hcoord, rfl⟩

theorem Published.congr (h : Published resolver lat numBnds kept done ids)
    (hbnds : ids'.boundaries = ids.boundaries) (hcrd : ids'.crdCache = ids.crdCache)
    (hbos : ids'.nodes[bos1]? = ids.nodes[bos1]?)
    (hnodes : ∀ b, ∀ ptr ∈ nodesAt b done, ids'.nodes[ptr]? = ids.nodes[ptr]?) :
    Published resolver lat numBnds kept done ids' where
  isKept := h.isKept
  length_eq := by rw [hbnds]; exact h.length_eq
  boundaries b hb hne := by rw [hbnds]; exact h.boundaries b hb hne
  bosBoundary := by rw [hbnds]; exact h.bosBoundary
  bosIdx := by rw [hbos]; exact h.bosIdx
  listed b newer ptr older hlist := by
    rw [hnodes b ptr (by rw [hlist]; simp)]
    exact h.listed b newer ptr older hlist
  recent c hc := by rw [hcrd]; exact h.recent c hc
  found e he cached node hcached hnode := by
    rw [hcrd] at hcached
    obtain ⟨e', he', _, hptr⟩ := h.exists_entry_of_crdCache (h.isKept e he) hcached
    rw [hnodes _ _ (mem_nodesAt.mpr ⟨e', he', rfl, hptr⟩)] at hnode
    exact h.found e he cached node hcached hnode

theorem addScore_eq {ptr : RnnNodePtr} {c : ConnectionPtr} {node : RnnNode} {bnd : RnnBoundary}
    (hnode : ids.nodes[ptr]? = some node) (hbnd : ids.boundaries[node.boundary]? = some bnd) :
    ids.addScore ptr c = some { ids with
      boundaries := ids.boundaries.set node.boundary
        { bnd with scores := ⟨c, ptr⟩ :: bnd.scores, scoreCnt := bnd.scoreCnt + 1 } } := by
  unfold addScore
  simp only [hnode, hbnd, Option.bind_eq_bind, Option.bind_some, Option.pure_def]

/-- The connection shares the node that `crdCache_` knows. -/
theorem Published.collapse (hlinks : Links bos (coordOf resolver lat) numBnds level kept)
    (h : Published resolver lat numBnds kept done ids) {c : ConnectionPtr} (hc : kept c)
    {cached : RnnNodePtr} (hcached : ids.crdCache (coordOf resolver lat c) = some cached)
    {node : RnnNode} (hnode : ids.nodes[cached]? = some node)
    (hboundary : node.boundary = c.boundary) :
    ∃ bnds, ids.addScore cached c = some { ids with boundaries := bnds } ∧
      Published resolver lat numBnds kept ((c, cached) :: done)
        { ids with boundaries := bnds } := by
  have hlt := hlinks.boundary_lt c hc
  have hne := hlinks.boundary_ne c hc
  have hbnd := h.boundaries c.boundary hlt hne
  obtain ⟨e, he, hcoord, hptr⟩ := h.exists_entry_of_crdCache hc hcached
  have hsame : e.1.boundary = c.boundary := by
    rw [← hlinks.boundary_eq _ (h.isKept e he), hcoord, hlinks.boundary_eq _ hc]
  have hmem : cached ∈ nodesAt c.boundary done := mem_nodesAt.mpr ⟨e, he, hsame, hptr⟩
  have hfirst : ∀ e ∈ ([] : List Entry), e.1.boundary ≠ (c, cached).1.boundary := by simp
  have hnodes : ∀ b, nodesAt b ((c, cached) :: done) = nodesAt b done := fun b =>
    nodesAt_insert_of_mem hfirst hmem b
  have hentries : ∀ b, entriesAt b ((c, cached) :: done) =
      if c.boundary = b then (c, cached) :: entriesAt b done else entriesAt b done := fun b =>
    entriesAt_insert hfirst b
  refine ⟨_, addScore_eq hnode (by rw [hboundary]; exact hbnd), ?_, ?_, ?_, ?_, h.bosIdx, ?_, ?_,
    ?_⟩
  · intro e' he'
    rcases List.mem_cons.mp he' with rfl | he'
    · exact hc
    · exact h.isKept e' he'
  · rw [List.length_set, h.length_eq]
  · intro b hb hb1
    rw [hboundary]
    by_cases hbc : c.boundary = b
    · subst hbc
      rw [List.getElem?_set_self (by rw [h.length_eq]; exact hlt)]
      unfold publishedAt
      rw [hnodes, hentries, if_pos rfl]
      rfl
    · rw [List.getElem?_set_ne hbc, h.boundaries b hb hb1]
      unfold publishedAt
      rw [hnodes, hentries, if_neg hbc]
  · rw [hboundary, List.getElem?_set_ne hne]
    exact h.bosBoundary
  · intro b newer ptr older hlist
    rw [hnodes] at hlist
    exact h.listed b newer ptr older hlist
  · intro c' hc'
    rw [List.find?_cons]
    by_cases hcc : coordOf resolver lat c = coordOf resolver lat c'
    · simp only [hcc, BEq.rfl, Option.map_some]
      rw [← hcc]
      exact hcached
    · have hbeq : (coordOf resolver lat c == coordOf resolver lat c') = false := by simpa using hcc
      simp only [hbeq]
      exact h.recent c' hc'
  · intro e' he' cached' node' hcached' hnode'
    rcases List.mem_cons.mp he' with rfl | he'
    · rw [hcached, Option.some.injEq] at hcached'
      rw [hcached']
      exact List.mem_cons_self
    · exact h.found e' he' cached' node' hcached' hnode'

/-- A node is published among nodes of other boundaries of its path. -/
theorem Published.publishNode (hlinks : Links bos (coordOf resolver lat) numBnds level kept)
    {D1 D2 : List Entry} (h : Published resolver lat numBnds kept (D1 ++ D2) ids)
    (hcache : CacheOk resolver lat ids.nodeCache) {c : ConnectionPtr} (hc : kept c)
    (hinfo : c.latticeNodePtr = eosPtr lat ∨
      ∃ ninfo, (lat.boundary c.boundary).nodeInfo[c.right]? = some ninfo)
    (hD1 : ∀ e ∈ D1, e.1.boundary ≠ c.boundary) {ptr : RnnNodePtr} {node : RnnNode}
    (hnode : ids.nodes[ptr]? = some node) (hboundary : node.boundary = c.boundary)
    (hnew : ∀ e ∈ D1 ++ D2, e.2 ≠ ptr) (hbos : ptr ≠ bos1) :
    ∃ ids', publishNode resolver lat ptr c ids = some (node.prev, ids') ∧
      Published resolver lat numBnds kept (D1 ++ (c, ptr) :: D2) ids' ∧
      Keeps ids.nodes ids'.nodes ∧ ids'.ptrCache = ids.ptrCache ∧
      CacheOk resolver lat ids'.nodeCache := by
  have hlt := hlinks.boundary_lt c hc
  have hne := hlinks.boundary_ne c hc
  have hbnd := h.boundaries c.boundary hlt hne
  have hmem : ∀ b, ptr ∉ nodesAt b (D1 ++ D2) := by
    intro b hmem
    obtain ⟨e, he, _, hptr⟩ := mem_nodesAt.mp hmem
    exact hnew e he hptr
  have hother : ∀ e ∈ D1, e.1.boundary ≠ (c, ptr).1.boundary := hD1
  have hnodesAt : ∀ b, nodesAt b (D1 ++ (c, ptr) :: D2) = if c.boundary = b then
      ptr :: nodesAt b (D1 ++ D2) else nodesAt b (D1 ++ D2) := fun b =>
    nodesAt_insert_of_notMem hother (hmem c.boundary) b
  have hentries : ∀ b, entriesAt b (D1 ++ (c, ptr) :: D2) = if c.boundary = b then
      (c, ptr) :: entriesAt b (D1 ++ D2) else entriesAt b (D1 ++ D2) := fun b =>
    entriesAt_insert hother b
  have hptrlt : ptr < ids.nodes.length := (List.getElem?_eq_some_iff.mp hnode).1
  let bnd := publishedAt c.boundary (D1 ++ D2)
  let listedNode : RnnNode := { node with idx := bnd.nodeCnt, nextInBnd := bnd.node }
  let nodes := ids.nodes.set ptr listedNode
  let bnds := ids.boundaries.set node.boundary
    { bnd with
      node := ptr :: bnd.node
      nodeCnt := bnd.nodeCnt + 1
      scores := ⟨c, ptr⟩ :: bnd.scores
      scoreCnt := bnd.scoreCnt + 1 }
  let listedIds : RnnIdContainer := { ids with
    nodes := nodes
    boundaries := ids.boundaries.set node.boundary
      { bnd with node := ptr :: bnd.node, nodeCnt := bnd.nodeCnt + 1 } }
  let scoredIds : RnnIdContainer := { ids with nodes := nodes, boundaries := bnds }
  have hcache' : CacheOk resolver lat scoredIds.nodeCache := hcache
  obtain ⟨cache, hresolve, hcacheOk⟩ := resolveId_spec hcache' hinfo
  refine ⟨{ ids with
    nodes := nodes
    boundaries := bnds
    nodeCache := cache
    crdCache := Function.update ids.crdCache (coordOf resolver lat c) (some ptr) }, ?_, ?_,
    keeps_set hnode _ _, rfl, hcacheOk⟩
  · have hlisted : listedIds.nodes[ptr]? = some listedNode := List.getElem?_set_self hptrlt
    have hbndlt : node.boundary < ids.boundaries.length := by
      rw [h.length_eq, hboundary]
      exact hlt
    have hlistedBnd : listedIds.boundaries[listedNode.boundary]? =
        some { bnd with node := ptr :: bnd.node, nodeCnt := bnd.nodeCnt + 1 } :=
      List.getElem?_set_self hbndlt
    have hscore : listedIds.addScore ptr c = some scoredIds := by
      rw [addScore_eq hlisted hlistedBnd]
      show some { ids with
        nodes := nodes
        boundaries := (ids.boundaries.set node.boundary _).set node.boundary _ } = _
      rw [List.set_set]
    have hbnd' : ids.boundaries[node.boundary]? = some bnd := by
      rw [hboundary]
      exact hbnd
    unfold Rnn.publishNode
    simp only [hnode, hbnd', Option.bind_eq_bind, Option.bind_some]
    refine (congrArg (Option.bind · _) hscore).trans ?_
    refine (congrArg (Option.bind · _) hresolve).trans ?_
    rfl
  · have hkeep : ∀ b, ∀ p ∈ nodesAt b (D1 ++ D2), nodes[p]? = ids.nodes[p]? := by
      intro b p hp
      have hpne : ptr ≠ p := by
        rintro rfl
        exact hmem b hp
      exact List.getElem?_set_ne hpne
    refine ⟨?_, ?_, ?_, ?_, ?_, ?_, ?_, ?_⟩
    · intro e he
      rw [List.mem_append, List.mem_cons] at he
      rcases he with he | rfl | he
      · exact h.isKept e (List.mem_append_left _ he)
      · exact hc
      · exact h.isKept e (List.mem_append_right _ he)
    · exact (List.length_set).trans h.length_eq
    · intro b hb hb1
      by_cases hbc : c.boundary = b
      · subst hbc
        show (ids.boundaries.set node.boundary _)[c.boundary]? = _
        rw [hboundary, List.getElem?_set_self (by rw [h.length_eq]; exact hlt)]
        unfold publishedAt
        rw [hnodesAt, hentries, if_pos rfl, if_pos rfl]
        rfl
      · show (ids.boundaries.set node.boundary _)[b]? = _
        rw [hboundary, List.getElem?_set_ne hbc, h.boundaries b hb hb1,
          publishedAt_insert_of_ne hD1 hbc]
    · show (ids.boundaries.set node.boundary _)[1]? = _
      rw [hboundary, List.getElem?_set_ne hne]
      exact h.bosBoundary
    · show nodes[bos1]?.map (·.idx) = _
      rw [List.getElem?_set_ne hbos]
      exact h.bosIdx
    · intro b newer p older hlist
      rw [hnodesAt] at hlist
      by_cases hbc : c.boundary = b
      · subst hbc
        rw [if_pos rfl] at hlist
        cases newer with
        | nil =>
            rw [List.nil_append, List.cons.injEq] at hlist
            obtain ⟨rfl, rfl⟩ := hlist
            exact ⟨listedNode, List.getElem?_set_self hptrlt, rfl, rfl⟩
        | cons first newer =>
            rw [List.cons_append, List.cons.injEq] at hlist
            show ∃ node, nodes[p]? = some node ∧ _
            rw [hkeep _ p (by rw [hlist.2]; simp)]
            exact h.listed _ newer p older hlist.2
      · rw [if_neg hbc] at hlist
        show ∃ node, nodes[p]? = some node ∧ _
        rw [hkeep _ p (by rw [hlist]; simp)]
        exact h.listed b newer p older hlist
    · intro c' hc'
      have hfirst : (coordOf resolver lat c == coordOf resolver lat c') = true →
          ∀ e ∈ D1, (coordOf resolver lat e.1 == coordOf resolver lat c') = false := by
        intro hcc e he
        rw [beq_iff_eq] at hcc
        rw [beq_eq_false_iff_ne]
        intro hec
        apply hD1 e he
        rw [← hlinks.boundary_eq _ (h.isKept e (List.mem_append_left _ he)), hec, ← hcc,
          hlinks.boundary_eq _ hc]
      have hfind : (D1 ++ (c, ptr) :: D2).find?
          (fun e => coordOf resolver lat e.1 == coordOf resolver lat c') = _ :=
        find?_insert hfirst
      rw [hfind]
      show Function.update ids.crdCache (coordOf resolver lat c) (some ptr) _ = _
      by_cases hcc : coordOf resolver lat c = coordOf resolver lat c'
      · rw [← hcc, Function.update_self, if_pos BEq.rfl]
        rfl
      · rw [Function.update_of_ne (Ne.symm hcc), if_neg (by simpa using hcc)]
        exact h.recent c' hc'
    · intro e he cached node' hcached hnode'
      change Function.update ids.crdCache (coordOf resolver lat c) (some ptr) _ = _ at hcached
      change nodes[cached]? = _ at hnode'
      have hold : e ≠ (c, ptr) → e ∈ D1 ++ D2 := by
        intro hex
        rw [List.mem_append, List.mem_cons] at he
        rw [List.mem_append]
        rcases he with he | rfl | he
        · exact Or.inl he
        · exact absurd rfl hex
        · exact Or.inr he
      by_cases hec : coordOf resolver lat e.1 = coordOf resolver lat c
      · rw [hec, Function.update_self, Option.some.injEq] at hcached
        subst hcached
        have hnode'' := (List.getElem?_set_self hptrlt).symm.trans hnode'
        rw [Option.some.injEq] at hnode''
        subst hnode''
        by_cases hex : e = (c, ptr)
        · rw [hex]
          exact List.mem_cons_self
        · have he' := hold hex
          refine List.mem_cons_of_mem _ (mem_nodesAt.mpr ⟨e, he', ?_, rfl⟩)
          rw [← hlinks.boundary_eq _ (h.isKept e he'), hec, hlinks.boundary_eq _ hc]
      · have hex : e ≠ (c, ptr) := by
          rintro rfl
          exact hec rfl
        rw [Function.update_of_ne hec] at hcached
        obtain ⟨e', he', _, hptr⟩ := h.exists_entry_of_crdCache (h.isKept e (hold hex)) hcached
        rw [hkeep _ cached (mem_nodesAt.mpr ⟨e', he', rfl, hptr⟩)] at hnode'
        exact h.found e (hold hex) cached node' hcached hnode'

end Operations

end Jumanpp.Core.Analysis.Rnn
