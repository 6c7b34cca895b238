import Jumanpp.Core.Analysis.BestPath
import Jumanpp.Core.Analysis.RnnPaths

/-!
# The RNN lattice of the kept paths

The connections on the paths of the last global beam meet what the resolver relies on.  Whether each
of them gets the node of its own chain is decided by the order in which the chains come.
-/

namespace Jumanpp.Core.Analysis.Rnn

open RnnIdContainer

/-- The connection of the second BOS. -/
def bosPtr : ConnectionPtr :=
  .conn 1 0 0 0 (.conn 0 0 0 0 .null)

/-- A connection on one of the paths. -/
def Kept (paths : List ConnectionPtr) (c : ConnectionPtr) : Prop :=
  ∃ path ∈ paths, c ∈ connections bosPtr path

/-- The result of resolving: each connection on a kept path has one score entry, which leads to the
node of its own chain, and connections share a node when they share the chain. -/
structure Resolves (resolver : RnnIdResolver) (lat : Lattice) (paths : List ConnectionPtr)
    (ids : RnnIdContainer) : Prop where
  mapped : ∀ c, Kept paths c → ∃ ptr, ids.ptrCache c.key = some (some ptr) ∧
    HasChain ids.nodes ptr (chain bosPtr (coordOf resolver lat) c)
  shared : ∀ c c', Kept paths c → Kept paths c' →
    (ids.ptrCache c.key = ids.ptrCache c'.key ↔
      chain bosPtr (coordOf resolver lat) c = chain bosPtr (coordOf resolver lat) c')
  published : ∀ c, Kept paths c → ∃ bnd : RnnBoundary, ids.boundaries[c.boundary]? = some bnd ∧
    ∃ score ∈ bnd.scores, score.latPtr = c
  scores : ∀ (b : Nat) (bnd : RnnBoundary), ids.boundaries[b]? = some bnd → (bnd.scores.map (·.latPtr)).Nodup ∧
    ∀ score ∈ bnd.scores, Kept paths score.latPtr ∧ score.latPtr.boundary = b ∧
      ids.ptrCache score.latPtr.key = some (some score.rnn)
  indices : ∀ (b : Nat) (bnd : RnnBoundary), ids.boundaries[b]? = some bnd → bnd.node.Nodup ∧
    bnd.node.map (fun ptr => ids.nodes[ptr]?.map (·.idx)) =
      (List.range bnd.nodeCnt).reverse.map some
  counts : ∀ (b : Nat) (bnd : RnnBoundary), ids.boundaries[b]? = some bnd → bnd.scoreCnt = bnd.scores.length ∧
    bnd.nodeCnt ≤ paths.length ∧ bnd.scoreCnt ≤ paths.length

section Kept

variable {lat : Lattice} {n : Nat} {beams : Beams}

/-- A connection of a node that the paths reach. -/
structure Connects (lat : Lattice) (n : Nat) (beams : Beams) (c : ConnectionPtr)
    (ptr : LatticeNodePtr) : Prop where
  two_le : 2 ≤ ptr.boundary
  lt : ptr.boundary < n + 3
  position : ptr.position < (lat.boundary ptr.boundary).localNodeCount
  position_u16 : ptr.position < 2 ^ 16
  continues : ∃ left prev, Continues lat beams ptr c left prev

/-- The number of the boundary without the conversion to `u16`. -/
def level (n : Nat) (c : ConnectionPtr) : Nat :=
  if c.boundary = u16 (n + 2) then n + 2 else c.boundary

section Connects

variable (hspans : Spans lat n) {c c' : ConnectionPtr} {ptr ptr' : LatticeNodePtr}

theorem Connects.boundary_eq (h : Connects lat n beams c ptr) : c.boundary = u16 ptr.boundary := by
  obtain ⟨left, prev, hcontinues⟩ := h.continues
  rw [hcontinues.eq]
  rfl

theorem Connects.right_eq (h : Connects lat n beams c ptr) : c.right = ptr.position := by
  obtain ⟨left, prev, hcontinues⟩ := h.continues
  rw [hcontinues.eq]
  exact u16_of_lt h.position_u16

include hspans

theorem Connects.level_eq (h : Connects lat n beams c ptr) : level n c = ptr.boundary := by
  have hn := hspans.le_u16
  have htwo := h.two_le
  have hlt := h.lt
  unfold level
  rw [h.boundary_eq]
  by_cases heos : ptr.boundary = n + 2
  · rw [heos, if_pos rfl]
  · rw [u16_of_lt (by omega), if_neg]
    intro heq
    by_cases hwrap : n + 2 < 2 ^ 16
    · rw [u16_of_lt hwrap] at heq
      exact heos heq
    · obtain hn2 : n + 2 = 2 ^ 16 := by omega
      rw [hn2] at heq
      have hzero : u16 (2 ^ 16) = 0 := rfl
      omega

theorem Connects.boundary_ne (h : Connects lat n beams c ptr) : c.boundary ≠ 1 := by
  have hlevel := h.level_eq hspans
  have hpos := hspans.pos
  have htwo := h.two_le
  have hlt := h.lt
  have hn := hspans.le_u16
  rw [h.boundary_eq]
  unfold u16
  omega

theorem Connects.ne_bos (h : Connects lat n beams c ptr) : c ≠ bosPtr := by
  rintro rfl
  exact h.boundary_ne hspans rfl

theorem Connects.eos (h : Connects lat n beams c ptr) (heos : ptr.boundary = n + 2) :
    c.latticeNodePtr = eosPtr lat := by
  have hposition := h.position
  have hright := h.right_eq
  have hboundary := h.boundary_eq
  rw [heos] at hposition hboundary
  unfold LatticeBoundary.localNodeCount at hposition
  rw [hspans.eos, List.length_singleton] at hposition
  have hcount := hspans.count
  unfold ConnectionPtr.latticeNodePtr eosPtr
  rw [hboundary, hright, hcount, LatticeNodePtr.mk.injEq]
  exact ⟨rfl, by omega⟩

theorem Connects.info (h : Connects lat n beams c ptr) : c.latticeNodePtr = eosPtr lat ∨
    ∃ ninfo, (lat.boundary c.boundary).nodeInfo[c.right]? = some ninfo := by
  by_cases heos : ptr.boundary = n + 2
  · exact Or.inl (h.eos hspans heos)
  · have hn := hspans.le_u16
    have hlt := h.lt
    have hposition := h.position
    rw [h.right_eq, h.boundary_eq, u16_of_lt (by omega)]
    exact Or.inr ⟨_, List.getElem?_eq_getElem hposition⟩

/-- A connection is determined by what `operator==` compares. -/
theorem Connects.key_inj (h : Connects lat n beams c ptr) (h' : Connects lat n beams c' ptr')
    (hkey : c.key = c'.key) : c = c' := by
  have hlevel := h.level_eq hspans
  have hlevel' := h'.level_eq hspans
  have hright := h.right_eq
  have hright' := h'.right_eq
  unfold ConnectionPtr.key at hkey
  rw [ConnectionKey.mk.injEq] at hkey
  obtain ⟨hboundary, hleft, hrightEq, hbeam⟩ := hkey
  unfold level at hlevel hlevel'
  rw [hboundary] at hlevel
  have hptr : ptr = ptr' := by
    cases ptr
    cases ptr'
    rw [LatticeNodePtr.mk.injEq]
    exact ⟨hlevel.symm.trans hlevel', hright.symm.trans (hrightEq.trans hright')⟩
  subst hptr
  obtain ⟨left, prev, hcontinues⟩ := h.continues
  obtain ⟨left', prev', hcontinues'⟩ := h'.continues
  have hends := hcontinues.ends
  rw [hleft, hcontinues'.ends, Option.some.injEq] at hends
  subst hends
  have hprev := hcontinues.beam
  rw [hbeam, hcontinues'.beam, Option.some.injEq] at hprev
  subst hprev
  rw [hcontinues.eq, hcontinues'.eq, hleft, hbeam]

variable (hlive : LiveInv lat (n + 3) beams) (hbos : activePtrs beams ⟨1, 0⟩ = [bosPtr])

omit hspans in
include hlive hbos in
/-- Before a connection there is BOS or a connection of the left node. -/
theorem Connects.previous (h : Connects lat n beams c ptr) :
    c.previous = bosPtr ∨ ∃ left, left ∈ (lat.boundary ptr.boundary).ends ∧
      Connects lat n beams c.previous left := by
  obtain ⟨left, prev, hcontinues⟩ := h.continues
  have hprev : c.previous = prev := by rw [hcontinues.eq]; rfl
  have hmem := List.mem_of_getElem? hcontinues.ends
  have hback := lat.ends_back _ h.two_le left hmem
  have hlive' := List.mem_of_getElem? hcontinues.beam
  rw [hprev]
  by_cases hone : left.boundary = 1
  · rw [lat.ends_eq_bos h.two_le hmem hone, hbos, List.mem_singleton] at hlive'
    exact Or.inl hlive'
  · have hlt := h.lt
    have hposition := lat.ends_valid _ h.two_le left hmem
    exact Or.inr ⟨left, hmem, by omega, by omega, hposition, (lat.ends_u16 _ h.two_le left hmem).2,
      hlive.continues left (by omega) (by omega) hposition prev hlive'⟩

/-- The positions of two connections in a row differ by the length of the first node. -/
theorem Connects.follows (h : Connects lat n beams c ptr) {resolver : RnnIdResolver}
    {left : LatticeNodePtr} (hmem : left ∈ (lat.boundary ptr.boundary).ends)
    (hleft : Connects lat n beams c.previous left) :
    level n c = level n c.previous + (coordOf resolver lat c.previous).length := by
  have hn := hspans.le_u16
  have hback := lat.ends_back _ h.two_le left hmem
  have htwo := hleft.two_le
  have hlt := h.lt
  obtain ⟨info, hinfo, hstart, hend, hlt'⟩ := hspans.info _ (by omega) h.lt left hmem
  rw [h.level_eq hspans, hleft.level_eq hspans]
  have hboundary : c.previous.boundary = left.boundary := by
    rw [hleft.boundary_eq, u16_of_lt (by omega)]
  have hptr : c.previous.latticeNodePtr = left := by
    unfold ConnectionPtr.latticeNodePtr
    rw [hboundary, hleft.right_eq]
  have heos : left ≠ eosPtr lat := by
    intro heq
    have hlevel := hleft.level_eq hspans
    unfold level at hlevel
    have hcount := hspans.count
    have hbnd : left.boundary = u16 (n + 2) := by
      rw [heq]
      unfold eosPtr
      rw [hcount]
      rfl
    rw [hboundary, if_pos hbnd] at hlevel
    omega
  have hne : left ≠ ⟨1, 0⟩ := by
    rintro rfl
    simp only at htwo
    omega
  have hcoord : (coordOf resolver lat c.previous).length = u16 (info.end_ - info.start) := by
    show (coordinate resolver lat c.previous.latticeNodePtr).length = _
    rw [hptr]
    unfold coordinate
    rw [if_neg heos, if_neg hne]
    simp only [List.getD_eq_getElem?_getD, hinfo, Option.getD_some]
  rw [hcoord, u16_of_lt (by omega)]
  omega

end Connects

/-! ## The connections of a path -/

section Connections

variable {bos : ConnectionPtr} {seen : List ConnectionPtr}

theorem connections_subset {c x : ConnectionPtr} (hx : x ∈ connections bos c) :
    connections bos x ⊆ connections bos c := by
  induction c with
  | null => cases hx
  | conn b l r m previous ih =>
      by_cases hbos : ConnectionPtr.conn b l r m previous = bos
      · unfold connections at hx
        rw [if_pos hbos] at hx
        cases hx
      · have hcons : connections bos (.conn b l r m previous) =
            .conn b l r m previous :: connections bos previous := by
          conv_lhs => unfold connections
          rw [if_neg hbos]
        rw [hcons] at hx
        rcases List.mem_cons.mp hx with rfl | hx
        · exact List.Subset.refl _
        · rw [hcons]
          exact List.Subset.trans (ih hx) (List.subset_cons_self _ _)

/-- A path adds the connections from its last one back to one that was visited before. -/
theorem visit_eq_append (c : ConnectionPtr) : ∃ new, visit bos seen c = new ++ seen ∧
    new.Sublist (connections bos c) ∧ ∀ x ∈ new, x ∉ seen := by
  induction c with
  | null => exact ⟨[], rfl, List.nil_sublist _, by simp⟩
  | conn b l r m previous ih =>
      unfold visit connections
      by_cases hbos : ConnectionPtr.conn b l r m previous = bos
      · exact ⟨[], by rw [if_pos (Or.inl hbos)]; rfl, List.nil_sublist _, by simp⟩
      · by_cases hseen : ConnectionPtr.conn b l r m previous ∈ seen
        · exact ⟨[], by rw [if_pos (Or.inr hseen)]; rfl, List.nil_sublist _, by simp⟩
        · obtain ⟨new, hvisit, hsub, hnew⟩ := ih
          refine ⟨.conn b l r m previous :: new, ?_, ?_, ?_⟩
          · rw [if_neg (by simp [hbos, hseen]), hvisit]
            rfl
          · rw [if_neg hbos]
            exact hsub.cons_cons _
          · intro x hx
            rcases List.mem_cons.mp hx with rfl | hx
            · exact hseen
            · exact hnew x hx

theorem mem_foldl_visit_iff {paths : List ConnectionPtr}
    (hclosed : ∀ c ∈ seen, ∀ x ∈ connections bos c, x ∈ seen) {x : ConnectionPtr} :
    x ∈ paths.foldl (visit bos) seen ↔ x ∈ seen ∨ ∃ path ∈ paths, x ∈ connections bos path := by
  induction paths generalizing seen with
  | nil => simp
  | cons path paths ih =>
      have hclosed' : ∀ c ∈ visit bos seen path, ∀ x ∈ connections bos c,
          x ∈ visit bos seen path := by
        intro c hc y hy
        rw [mem_visit_iff hclosed] at hc ⊢
        exact hc.imp (fun h => hclosed c h y hy) fun h => connections_subset h hy
      rw [List.foldl_cons, ih hclosed', mem_visit_iff hclosed]
      simp only [List.mem_cons, exists_eq_or_imp, or_assoc]

variable {coordOf : ConnectionPtr → RnnCoordinate} {numBnds : Nat} {level : ConnectionPtr → Nat}
  {kept : ConnectionPtr → Prop} (hlinks : Links bos coordOf numBnds level kept)

include hlinks

theorem Links.pairwise_connections {c : ConnectionPtr} (hc : kept c) :
    (connections bos c).Pairwise fun x y => x.boundary ≠ y.boundary := by
  induction c with
  | null => exact absurd rfl (hlinks.ne_null _ hc)
  | conn b l r m p ih =>
      rw [hlinks.connections_eq hc, List.pairwise_cons]
      constructor
      · intro x hx hsame
        obtain ⟨hkept, hlt⟩ := hlinks.level_lt_of_mem hc hx
        have hlevel := hlinks.level_boundary _ _ hc hkept hsame
        omega
      · rcases hlinks.previous _ hc with hbos | hprev
        · rw [hbos]
          cases hb : bos with
          | null => exact absurd hb hlinks.bos_ne_null
          | conn b l r m p =>
              unfold connections
              rw [if_pos rfl]
              exact List.Pairwise.nil
        · exact ih hprev

theorem Links.nodup_visit {c : ConnectionPtr} (hc : kept c) (hseen : seen.Nodup) :
    (visit bos seen c).Nodup := by
  obtain ⟨new, hvisit, hsub, hnew⟩ := visit_eq_append c
  have hdistinct : (connections bos c).Nodup :=
    (hlinks.pairwise_connections hc).imp fun hne heq => hne (congrArg _ heq)
  rw [hvisit]
  exact (hdistinct.sublist hsub).append hseen fun x hx => hnew x hx

/-- A path adds one connection to a boundary at most. -/
theorem Links.length_filter_visit_le {c : ConnectionPtr} (hc : kept c)
    (seen : List ConnectionPtr) (b : Nat) :
    ((visit bos seen c).filter (·.boundary == b)).length ≤
      (seen.filter (·.boundary == b)).length + 1 := by
  obtain ⟨new, hvisit, hsub, -⟩ := visit_eq_append c
  have hpairwise := ((hlinks.pairwise_connections hc).sublist hsub).filter (·.boundary == b)
  have hone : (new.filter (·.boundary == b)).length ≤ 1 := by
    cases hfilter : new.filter (·.boundary == b) with
    | nil => exact Nat.zero_le 1
    | cons x rest =>
        cases rest with
        | nil => exact Nat.le_refl 1
        | cons y rest =>
            have hx : x ∈ new.filter (·.boundary == b) := by rw [hfilter]; simp
            have hy : y ∈ new.filter (·.boundary == b) := by rw [hfilter]; simp
            rw [List.mem_filter, beq_iff_eq] at hx hy
            rw [hfilter] at hpairwise
            exact absurd (hx.2.trans hy.2.symm) ((List.pairwise_cons.mp hpairwise).1 y (by simp))
  rw [hvisit, List.filter_append, List.length_append]
  omega

theorem Links.visited_spec {paths : List ConnectionPtr} (hpaths : ∀ c ∈ paths, kept c)
    (hseen : seen.Nodup) : (paths.foldl (visit bos) seen).Nodup ∧
      ∀ b, ((paths.foldl (visit bos) seen).filter (·.boundary == b)).length ≤
        (seen.filter (·.boundary == b)).length + paths.length := by
  induction paths generalizing seen with
  | nil => exact ⟨hseen, fun b => Nat.le_refl _⟩
  | cons path paths ih =>
      have hpath := hpaths path List.mem_cons_self
      obtain ⟨hnodup, hlength⟩ := ih (fun c hc => hpaths c (List.mem_cons_of_mem _ hc))
        (hlinks.nodup_visit hpath hseen)
      refine ⟨hnodup, fun b => ?_⟩
      have hle := hlength b
      have hvisit := hlinks.length_filter_visit_le hpath seen b
      rw [List.foldl_cons, List.length_cons]
      omega

end Connections

end Kept

/-! ## The result -/

section Resolve

variable {resolver : RnnIdResolver} {lat : Lattice} {numBnds : Nat} {level : ConnectionPtr → Nat}
  {paths : List ConnectionPtr} {done : List Entry} {ids : RnnIdContainer}

theorem mem_visited_iff {c : ConnectionPtr} : c ∈ visited bosPtr paths ↔ Kept paths c := by
  unfold visited Kept
  rw [mem_foldl_visit_iff (by simp)]
  simp

theorem map_idx_nodesAt {b : Nat} (hlisted : ∀ newer ptr older,
      nodesAt b done = newer ++ ptr :: older →
        ∃ node, ids.nodes[ptr]? = some node ∧ node.idx = older.length ∧ node.nextInBnd = older) :
    (nodesAt b done).map (fun ptr => ids.nodes[ptr]?.map (·.idx)) =
      (List.range (nodesAt b done).length).reverse.map some := by
  have hall : ∀ list newer, nodesAt b done = newer ++ list →
      list.map (fun ptr => ids.nodes[ptr]?.map (·.idx)) =
        (List.range list.length).reverse.map some := by
    intro list
    induction list with
    | nil => exact fun _ _ => rfl
    | cons ptr older ih =>
        intro newer heq
        obtain ⟨node, hnode, hidx, _⟩ := hlisted newer ptr older heq
        rw [List.map_cons, hnode, Option.map_some, hidx, List.length_cons, List.range_succ,
          List.reverse_append, List.reverse_singleton, List.singleton_append, List.map_cons,
          ih (newer ++ [ptr]) (by simpa using heq)]
  exact hall _ [] rfl

variable (hlinks : Links bosPtr (coordOf resolver lat) numBnds level (Kept paths))

include hlinks

theorem Resolved.resolves (h : Resolved resolver lat bosPtr numBnds (Kept paths) done ids)
    (hdone : done.map (·.1) = visited bosPtr paths) (hpaths : ∀ c ∈ paths, Kept paths c)
    (hne : paths ≠ []) : Resolves resolver lat paths ids := by
  obtain ⟨hnodup, hcount⟩ := hlinks.visited_spec hpaths List.nodup_nil
  change (visited bosPtr paths).Nodup at hnodup
  have hentry : ∀ c, Kept paths c → ∃ ptr, (c, ptr) ∈ done := by
    intro c hc
    rw [← mem_visited_iff, ← hdone, List.mem_map] at hc
    obtain ⟨⟨c', ptr⟩, he, rfl⟩ := hc
    exact ⟨ptr, he⟩
  have hmapFilter : ∀ b, (entriesAt b done).map (·.1) =
      (visited bosPtr paths).filter (·.boundary == b) := by
    intro b
    rw [← hdone, List.filter_map]
    rfl
  have hentries : ∀ b, (entriesAt b done).length ≤ paths.length := by
    intro b
    have hle := hcount b
    rw [List.filter_nil, List.length_nil, Nat.zero_add] at hle
    rw [← List.length_map (·.1), hmapFilter]
    exact hle
  have hnodes : ∀ b, (nodesAt b done).length ≤ (entriesAt b done).length := by
    intro b
    unfold nodesAt
    exact (List.dedup_sublist _).length_le.trans (List.length_map _).le
  have hone : 1 ≤ paths.length := List.length_pos_iff.mpr hne
  have hbnd : ∀ b bnd, ids.boundaries[b]? = some bnd → b ≠ 1 → bnd = publishedAt b done := by
    intro b bnd hget hb
    have hlt := (List.getElem?_eq_some_iff.mp hget).1
    rw [h.published.length_eq] at hlt
    rw [h.published.boundaries b hlt hb] at hget
    exact (Option.some.inj hget).symm
  have hbos : ∀ bnd, ids.boundaries[1]? = some bnd → bnd = ⟨[bos1], [], 1, 0⟩ := by
    intro bnd hget
    rw [h.published.bosBoundary] at hget
    exact (Option.some.inj hget).symm
  refine ⟨?_, ?_, ?_, ?_, ?_, ?_⟩
  · intro c hc
    obtain ⟨ptr, he⟩ := hentry c hc
    exact ⟨ptr, h.mapped.ptr _ he, h.mapped.hasChain _ he⟩
  · intro c c' hc hc'
    obtain ⟨ptr, he⟩ := hentry c hc
    obtain ⟨ptr', he'⟩ := hentry c' hc'
    rw [h.mapped.ptr _ he, h.mapped.ptr _ he', Option.some.injEq, Option.some.injEq]
    constructor
    · intro hptr
      have hchain := h.mapped.hasChain _ he
      have hchain' := h.mapped.hasChain _ he'
      rw [show (c, ptr).2 = (c', ptr').2 from hptr] at hchain
      exact hchain.unique hchain'
    · exact fun hchain => h.mapped.share _ he _ he' hchain
  · intro c hc
    obtain ⟨ptr, he⟩ := hentry c hc
    refine ⟨_, h.published.boundaries _ (hlinks.boundary_lt c hc) (hlinks.boundary_ne c hc),
      ⟨c, ptr⟩, ?_, rfl⟩
    unfold publishedAt
    exact List.mem_map.mpr ⟨(c, ptr), mem_entriesAt.mpr ⟨he, rfl⟩, rfl⟩
  · intro b bnd hget
    by_cases hb : b = 1
    · subst hb
      rw [hbos bnd hget]
      simp
    · rw [hbnd b bnd hget hb]
      unfold publishedAt
      refine ⟨?_, ?_⟩
      · rw [List.map_map]
        change ((entriesAt b done).map (·.1)).Nodup
        rw [hmapFilter]
        exact hnodup.filter _
      · intro score hscore
        obtain ⟨e, he, rfl⟩ := List.mem_map.mp hscore
        obtain ⟨he, hboundary⟩ := mem_entriesAt.mp he
        exact ⟨h.mapped.isKept e he, hboundary, h.mapped.ptr e he⟩
  · intro b bnd hget
    by_cases hb : b = 1
    · subst hb
      rw [hbos bnd hget]
      refine ⟨List.nodup_singleton _, ?_⟩
      rw [List.map_singleton, h.published.bosIdx]
      rfl
    · rw [hbnd b bnd hget hb]
      exact ⟨List.nodup_dedup _, map_idx_nodesAt (h.published.listed b)⟩
  · intro b bnd hget
    by_cases hb : b = 1
    · subst hb
      rw [hbos bnd hget]
      exact ⟨rfl, hone, Nat.zero_le _⟩
    · rw [hbnd b bnd hget hb]
      exact ⟨(List.length_map _).symm, (hnodes b).trans (hentries b), hentries b⟩

/-- Before the first path only BOS is known. -/
theorem resolved_reset (hone : 1 < numBnds) (hcount : lat.createdBoundaryCount = numBnds) :
    Resolved resolver lat bosPtr numBnds (Kept paths) []
      { RnnIdContainer.reset numBnds with
        ptrCache := Function.update (RnnIdContainer.reset numBnds).ptrCache bosPtr.key
          (some ((RnnIdContainer.reset numBnds).crdCache ⟨1, 0, 0⟩)) } where
  mapped := by
    have heosPtr : eosPtr lat = ⟨u16 (numBnds - 1), 0⟩ := by
      unfold eosPtr
      rw [hcount]
    refine ⟨by simp, ⟨?_, ?_, ?_⟩, ⟨_, rfl, rfl⟩, by simp, by simp, ?_, by simp, ?_, by simp, by simp⟩
    · intro ptr coord hget
      unfold RnnIdContainer.reset at hget
      simp only at hget
      by_cases heos : ptr = eosPtr lat
      · rw [heos, heosPtr, Function.update_self, Option.some.injEq] at hget
        unfold coordinate
        rw [if_pos heos, ← hget, heos, heosPtr]
      · rw [← heosPtr, Function.update_of_ne heos] at hget
        by_cases hbos : ptr = ⟨1, 0⟩
        · rw [hbos, Function.update_self, Option.some.injEq] at hget
          unfold coordinate
          rw [if_neg heos, if_pos hbos, ← hget]
        · rw [Function.update_of_ne hbos] at hget
          cases hget
    · unfold RnnIdContainer.reset
      simp only
      rw [heosPtr, Function.update_self]
      simp
    · unfold RnnIdContainer.reset
      simp only
      by_cases heos : (⟨1, 0⟩ : LatticeNodePtr) = ⟨u16 (numBnds - 1), 0⟩
      · rw [heos, Function.update_self]
        simp
      · rw [Function.update_of_ne heos, Function.update_self]
        simp
    · simp only [RnnIdContainer.reset, Function.update_self]
    · intro c hc _ _
      show Function.update _ bosPtr.key _ c.key = _
      rw [Function.update_of_ne (hlinks.key_bos c hc)]
      rfl
  published := by
    refine ⟨by simp, ?_, ?_, ?_, rfl, ?_, ?_, by simp⟩
    · show ((List.replicate numBnds _).set 1 _).length = _
      rw [List.length_set, List.length_replicate]
    · intro b hb hne
      show ((List.replicate numBnds _).set 1 _)[b]? = _
      rw [List.getElem?_set_ne hne.symm, List.getElem?_replicate, if_pos hb]
      rfl
    · show ((List.replicate numBnds _).set 1 _)[1]? = _
      rw [List.getElem?_set_self (by rw [List.length_replicate]; exact hone)]
    · intro b newer ptr older heq
      cases newer <;> cases heq
    · intro c hc
      simp only [RnnIdContainer.reset]
      rw [Function.update_of_ne]
      · rfl
      · intro heq
        have hboundary := hlinks.boundary_eq c hc
        rw [heq] at hboundary
        exact hlinks.boundary_ne c hc hboundary.symm
  grouped := grouped_nil

end Resolve

end Jumanpp.Core.Analysis.Rnn
