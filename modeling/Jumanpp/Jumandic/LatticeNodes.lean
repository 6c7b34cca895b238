import Jumanpp.Core.Analysis.RnnResolveIds
import Jumanpp.Jumandic.LatticeFormat
import Jumanpp.Lib.Loops

/-!
# The nodes of the best paths

The map of the nodes groups the connections of the paths by the node where they end, and the
published nodes are those groups in the order of the text.
-/

namespace Jumanpp.Jumandic.LatticeFormat

open Jumanpp.Lib Jumanpp.Core.Analysis Jumanpp.Core.Analysis.Rnn

/-- The connections that the loop of `fillInfo` visits. -/
def pathConnections : ConnectionPtr → List ConnectionPtr
  | .null => []
  | .conn boundary left right beam previous =>
      if boundary ≥ 2 then .conn boundary left right beam previous :: pathConnections previous
      else []

/-- The node of the connection ends at the boundary `b`, and the way back from it leads over nodes
of the lattice to BOS. -/
inductive LeadsBack (lat : Lattice) : Nat → ConnectionPtr → Prop
  | bos : LeadsBack lat 2 bosPtr
  | step {b : Nat} {ptr : ConnectionPtr} {ninfo : NodeInfo} (htwo : 2 ≤ ptr.boundary)
      (hends : ptr.latticeNodePtr ∈ (lat.boundary b).ends)
      (hinfo : (lat.boundary ptr.boundary).nodeInfo[ptr.right]? = some ninfo)
      (hstart : ninfo.start + 2 = ptr.boundary) (hend : ninfo.end_ + 2 = b)
      (hlt : ninfo.start < ninfo.end_) (hprev : LeadsBack lat ptr.boundary ptr.previous) :
      LeadsBack lat b ptr

section LeadsBack

variable {lat : Lattice} {b : Nat} {ptr : ConnectionPtr}

theorem pathConnections_of_le (h : 2 ≤ ptr.boundary) :
    pathConnections ptr = ptr :: pathConnections ptr.previous := by
  cases ptr with
  | null => exact absurd h (by decide)
  | conn boundary left right beam previous =>
      have htwo : boundary ≥ 2 := h
      conv_lhs => unfold pathConnections
      rw [if_pos htwo]
      rfl

theorem nodes_of_le (h : 2 ≤ ptr.boundary) :
    ptr.nodes = ptr.latticeNodePtr :: ptr.previous.nodes := by
  cases ptr with
  | null => exact absurd h (by decide)
  | conn boundary left right beam previous => rfl

theorem pathConnections_bosPtr : pathConnections bosPtr = [] := rfl

theorem LeadsBack.boundary_lt (h : LeadsBack lat b ptr) : ptr.boundary < b := by
  cases h with
  | bos => exact Nat.one_lt_two
  | step _ _ _ hstart hend hlt _ => omega

theorem LeadsBack.eq_bos_or (h : LeadsBack lat b ptr) : ptr = bosPtr ∨ 2 ≤ ptr.boundary := by
  cases h with
  | bos => exact .inl rfl
  | step htwo => exact .inr htwo

theorem LeadsBack.previous (h : LeadsBack lat b ptr) (htwo : 2 ≤ ptr.boundary) :
    LeadsBack lat ptr.boundary ptr.previous := by
  cases h with
  | bos => exact absurd htwo (by decide)
  | step _ _ _ _ _ _ hprev => exact hprev

theorem LeadsBack.exists_info (h : LeadsBack lat b ptr) (htwo : 2 ≤ ptr.boundary) :
    ∃ ninfo, (lat.boundary ptr.boundary).nodeInfo[ptr.right]? = some ninfo := by
  cases h with
  | bos => exact absurd htwo (by decide)
  | step _ _ hinfo _ _ _ _ => exact ⟨_, hinfo⟩

/-- The boundaries fall on the way back. -/
theorem LeadsBack.boundary_lt_of_mem (h : LeadsBack lat b ptr) :
    ∀ x ∈ pathConnections ptr, x.boundary < b := by
  induction h with
  | bos =>
      intro x hx
      cases hx
  | @step b ptr ninfo htwo hends hinfo hstart hend hlt hprev ih =>
      intro x hx
      rw [pathConnections_of_le htwo, List.mem_cons] at hx
      obtain rfl | hx := hx
      · omega
      · have := ih x hx
        omega

theorem LeadsBack.pairwise (h : LeadsBack lat b ptr) :
    (pathConnections ptr).Pairwise fun x y => y.boundary < x.boundary := by
  induction h with
  | bos => exact List.Pairwise.nil
  | @step b ptr ninfo htwo hends hinfo hstart hend hlt hprev ih =>
      rw [pathConnections_of_le htwo]
      exact List.pairwise_cons.mpr ⟨hprev.boundary_lt_of_mem, ih⟩

theorem LeadsBack.of_mem (h : LeadsBack lat b ptr) {x : ConnectionPtr}
    (hx : x ∈ pathConnections ptr) : ∃ b, LeadsBack lat b x ∧ 2 ≤ x.boundary := by
  induction h with
  | bos => cases hx
  | @step b ptr ninfo htwo hends hinfo hstart hend hlt hprev ih =>
      rw [pathConnections_of_le htwo, List.mem_cons] at hx
      obtain rfl | hx := hx
      · exact ⟨b, .step htwo hends hinfo hstart hend hlt hprev, htwo⟩
      · exact ih hx

theorem LeadsBack.previous_mem (h : LeadsBack lat b ptr) {x : ConnectionPtr}
    (hx : x ∈ pathConnections ptr) : x.previous = bosPtr ∨ x.previous ∈ pathConnections ptr := by
  induction h with
  | bos => cases hx
  | @step b ptr ninfo htwo hends hinfo hstart hend hlt hprev ih =>
      rw [pathConnections_of_le htwo, List.mem_cons] at hx ⊢
      obtain rfl | hx := hx
      · obtain hbos | htwo' := hprev.eq_bos_or
        · exact .inl hbos
        · rw [pathConnections_of_le htwo']
          exact .inr (.inr List.mem_cons_self)
      · exact (ih hx).imp_right .inr

/-- With BOS they are all connections back to the null pointer. -/
theorem LeadsBack.nodes_eq (h : LeadsBack lat b ptr) :
    ptr.nodes = (pathConnections ptr).map ConnectionPtr.latticeNodePtr ++ [⟨1, 0⟩, ⟨0, 0⟩] := by
  induction h with
  | bos => rfl
  | @step b ptr ninfo htwo hends hinfo hstart hend hlt hprev ih =>
      rw [pathConnections_of_le htwo, List.map_cons, List.cons_append, ← ih, nodes_of_le htwo]

theorem LeadsBack.isPath (h : LeadsBack lat b ptr) {node : LatticeNodePtr}
    (hnode : node.boundary = b) : lat.IsPath (node :: ptr.nodes) := by
  induction h generalizing node with
  | bos =>
      have hbos : (⟨1, 0⟩ : LatticeNodePtr) ∈ (lat.boundary node.boundary).ends := by
        rw [hnode]
        unfold Lattice.boundary
        rw [lat.firstEnds]
        exact List.mem_singleton.mpr rfl
      exact .step (Nat.le_of_eq hnode.symm) hbos .bos
  | @step b ptr ninfo htwo hends hinfo hstart hend hlt hprev ih =>
      have hpath : lat.IsPath (ptr.latticeNodePtr :: ptr.previous.nodes) := ih rfl
      rw [nodes_of_le htwo]
      exact .step (by omega) (hnode ▸ hends) hpath

/-- The loop over a path. -/
theorem LeadsBack.fillPath_eq (h : LeadsBack lat b ptr) (rank : Nat) (info : LatticeInfo) :
    fillPath rank ptr info = some ((pathConnections ptr).foldl
      (fun info x => info.update x.latticeNodePtr .empty (·.addElem x rank)) info) := by
  induction h generalizing info with
  | bos => rfl
  | @step b ptr ninfo htwo hends hinfo hstart hend hlt hprev ih =>
      rw [pathConnections_of_le htwo, List.foldl_cons, ← ih]
      cases ptr with
      | null => exact absurd htwo (by decide)
      | conn boundary left right beam previous =>
          have hboundary : boundary ≥ 2 := htwo
          conv_lhs => unfold fillPath
          rw [if_pos hboundary]
          rfl

end LeadsBack

/-! ## The map -/

/-- The connections of the paths with their ranks, in the order in which the map gets them. -/
def rankedConnections (els : List ConnectionBeamElement) (i : Nat) : List (ConnectionPtr × Nat) :=
  (els.zipIdx i).flatMap fun x => (pathConnections x.1.ptr.previous).map fun c => (c, x.2)

def nodeOf (x : ConnectionPtr × Nat) : LatticeNodePtr :=
  x.1.latticeNodePtr

theorem mem_rankedConnections {els : List ConnectionBeamElement} {x : ConnectionPtr × Nat} :
    x ∈ rankedConnections els 0 ↔
      ∃ e, els[x.2]? = some e ∧ x.1 ∈ pathConnections e.ptr.previous := by
  unfold rankedConnections
  rw [List.mem_flatMap]
  constructor
  · rintro ⟨⟨e, i⟩, he, hx⟩
    obtain ⟨c, hc, rfl⟩ := List.mem_map.mp hx
    exact ⟨e, List.mk_mem_zipIdx_iff_getElem?.mp he, hc⟩
  · rintro ⟨e, he, hx⟩
    exact ⟨(e, x.2), List.mk_mem_zipIdx_iff_getElem?.mpr he, List.mem_map.mpr ⟨x.1, hx, rfl⟩⟩

/-- The ranks rise in the order in which the map gets them. -/
theorem pairwise_rankedConnections {lat : Lattice} {b : Nat} {els : List ConnectionBeamElement}
    (h : ∀ e ∈ els, LeadsBack lat b e.ptr.previous) (i : Nat) :
    (rankedConnections els i).Pairwise fun x y => nodeOf x = nodeOf y → x.2 < y.2 := by
  induction els generalizing i with
  | nil => exact List.Pairwise.nil
  | cons e els ih =>
      unfold rankedConnections
      rw [List.zipIdx_cons, List.flatMap_cons, List.pairwise_append]
      refine ⟨?_, ih (fun e' he' => h e' (List.mem_cons_of_mem e he')) (i + 1), ?_⟩
      · -- no node occurs twice on one path
        refine List.pairwise_map.mpr ((h e List.mem_cons_self).pairwise.imp ?_)
        intro x y hxy hnode
        have hboundary := congrArg LatticeNodePtr.boundary hnode
        exact absurd hboundary (Nat.ne_of_gt hxy)
      · intro x hx y hy _
        obtain ⟨c, -, rfl⟩ := List.mem_map.mp hx
        obtain ⟨⟨e', j⟩, hj, hy⟩ := List.mem_flatMap.mp hy
        obtain ⟨c', -, rfl⟩ := List.mem_map.mp hy
        exact (List.mk_mem_zipIdx_iff_le_and_getElem?_sub.mp hj).1

theorem fillElems_eq {lat : Lattice} {b : Nat} {els : List ConnectionBeamElement}
    (h : ∀ e ∈ activeBeam els, LeadsBack lat b e.ptr.previous) (i : Nat) (info : LatticeInfo) :
    fillElems els i info = some ((rankedConnections (activeBeam els) i).foldl
      (fun info x => info.update (nodeOf x) .empty (·.addElem x.1 x.2)) info) := by
  induction els generalizing i info with
  | nil => rfl
  | cons e els ih =>
      unfold fillElems
      by_cases hfake : isFake e = true
      · have hnil : activeBeam (e :: els) = [] := by
          unfold activeBeam
          rw [List.takeWhile_cons_of_neg (by simp [hfake])]
        rw [if_pos hfake, hnil]
        rfl
      · have hcons : activeBeam (e :: els) = e :: activeBeam els := by
          unfold activeBeam
          rw [List.takeWhile_cons_of_pos (by simp [hfake])]
        rw [hcons] at h ⊢
        rw [if_neg hfake, (h e List.mem_cons_self).fillPath_eq, Option.bind_eq_bind,
          Option.bind_some, ih fun e' he' => h e' (List.mem_cons_of_mem e he')]
        unfold rankedConnections
        rw [List.zipIdx_cons, List.flatMap_cons, List.foldl_append, List.foldl_map]
        rfl

/-- What a node has collected of the connections that end at it. -/
structure Collects (node : LatticeNodeInfo) (group : List (ConnectionPtr × Nat)) : Prop where
  ranks_eq : node.ranks = group.map fun x => u16 x.2
  prev_nodup : node.prev.Nodup
  mem_prev : ∀ p, p ∈ node.prev ↔ ∃ x ∈ group, x.1.previous.latticeNodePtr = p
  mem_ptrs : ∀ e ∈ node.ptrs.entries, ∃ x ∈ group, x.1 = e.2
  ptrs_ne : group ≠ [] → node.ptrs.entries ≠ []

theorem collects_empty : Collects .empty [] where
  ranks_eq := rfl
  prev_nodup := List.nodup_nil
  mem_prev p := by simp [LatticeNodeInfo.empty]
  mem_ptrs e he := by cases he
  ptrs_ne h := absurd rfl h

theorem Collects.addElem {node : LatticeNodeInfo} {group : List (ConnectionPtr × Nat)}
    (h : Collects node group) (x : ConnectionPtr × Nat) :
    Collects (node.addElem x.1 x.2) (group ++ [x]) where
  ranks_eq := by
    rw [List.map_append, ← h.ranks_eq]
    rfl
  prev_nodup := by
    unfold LatticeNodeInfo.addElem
    dsimp only
    split_ifs with hmem
    · exact h.prev_nodup
    · exact List.nodup_append.mpr ⟨h.prev_nodup, List.nodup_singleton _, by
        rintro a ha b hb rfl
        exact hmem (List.mem_singleton.mp hb ▸ ha)⟩
  mem_prev p := by
    unfold LatticeNodeInfo.addElem
    dsimp only
    simp only [List.mem_append, List.mem_singleton, or_and_right, exists_or, exists_eq_left,
      ← h.mem_prev]
    split_ifs with hmem
    · constructor
      · exact Or.inl
      · rintro (hp | rfl)
        · exact hp
        · exact hmem
    · rw [List.mem_append, List.mem_singleton, eq_comm (a := p)]
  mem_ptrs e he := by
    obtain he | rfl := FlatMap.mem_entries_insert he
    · obtain ⟨y, hy, heq⟩ := h.mem_ptrs e he
      exact ⟨y, List.mem_append_left _ hy, heq⟩
    · exact ⟨x, List.mem_append_right _ (List.mem_singleton.mpr rfl), rfl⟩
  ptrs_ne _ hnil := by
    have hmem : x.1.key ∈ (node.ptrs.update x.1.key x.1 fun ptr => ptr).keys :=
      FlatMap.mem_keys_update.mpr (.inr rfl)
    unfold FlatMap.keys at hmem
    have hnil' : (node.ptrs.update x.1.key x.1 fun ptr => ptr).entries = [] := hnil
    rw [hnil'] at hmem
    cases hmem

/-- The map after both loops. -/
theorem groups_fillElems {lat : Lattice} {b : Nat} {els : List ConnectionBeamElement}
    (h : ∀ e ∈ activeBeam els, LeadsBack lat b e.ptr.previous) :
    ∃ info, fillElems els 0 .empty = some info ∧
      Groups Collects nodeOf (rankedConnections (activeBeam els) 0) info :=
  ⟨_, fillElems_eq h 0 .empty, groups_foldl (fun x => collects_empty.addElem x)
    (fun x _ _ _ hnode => hnode.addElem x) _⟩

/-! ## The published nodes -/

theorem standsBefore_iff (p q : LatticeNodePtr) : standsBefore p q = true ↔
    p.boundary < q.boundary ∨ p.boundary = q.boundary ∧ p.position < q.position := by
  unfold standsBefore
  split_ifs with h
  · simp [h]
  · simp [h]

theorem not_standsBefore_iff (p q : LatticeNodePtr) : standsBefore p q = false ↔
    q.boundary < p.boundary ∨ p.boundary = q.boundary ∧ q.position ≤ p.position := by
  rw [← Bool.not_eq_true, standsBefore_iff]
  omega

theorem standsBefore_of_not {p q : LatticeNodePtr} (h : standsBefore q p = false) (hne : p ≠ q) :
    standsBefore p q = true := by
  rw [not_standsBefore_iff] at h
  rw [standsBefore_iff]
  have hposition : p.boundary = q.boundary → p.position ≠ q.position := by
    intro hboundary hposition
    apply hne
    cases p
    cases q
    rw [LatticeNodePtr.mk.injEq]
    exact ⟨hboundary, hposition⟩
  omega

theorem strictWeak_standsBefore {α : Type} (key : α → LatticeNodePtr) :
    StrictWeak fun a b => standsBefore (key a) (key b) where
  asymm a b h := by
    rw [standsBefore_iff] at h
    rw [not_standsBefore_iff]
    omega
  negTrans a b c hab hbc := by
    rw [not_standsBefore_iff] at *
    omega

/-- Sorting puts things at different nodes in the order of the text. -/
theorem pairwise_sort {α : Type} (alg : StdAlgorithm) (key : α → LatticeNodePtr) {l : List α}
    (h : (l.map key).Nodup) :
    ((alg.sort (fun a b => standsBefore (key a) (key b)) l).map key).Pairwise
      fun p q => standsBefore p q = true := by
  have hperm := alg.sort_perm (fun a b => standsBefore (key a) (key b)) l
  have hsorted := alg.sort_sorted _ l (strictWeak_standsBefore key)
  have hnodup := List.pairwise_map.mp ((hperm.map key).nodup_iff.mpr h)
  rw [List.pairwise_map]
  exact (hsorted.and hnodup).imp fun hab => standsBefore_of_not hab.1 hab.2

theorem fixPrevs_prev_perm (alg : StdAlgorithm) (node : LatticeNodeInfo) :
    (node.fixPrevs alg).prev.Perm node.prev := by
  unfold LatticeNodeInfo.fixPrevs
  split_ifs
  · exact alg.sort_perm _ _
  · exact List.Perm.refl _

theorem pairwise_fixPrevs (alg : StdAlgorithm) {node : LatticeNodeInfo} (h : node.prev.Nodup) :
    (node.fixPrevs alg).prev.Pairwise fun p q => standsBefore p q = true := by
  unfold LatticeNodeInfo.fixPrevs
  split_ifs with hlength
  · have hsorted := pairwise_sort alg (fun p => p) (l := node.prev) (by rwa [List.map_id'])
    rwa [List.map_id'] at hsorted
  · -- at most one node
    match hprev : node.prev, hlength with
    | [], _ => exact List.Pairwise.nil
    | [p], _ => exact List.pairwise_singleton _ p
    | p :: q :: rest, hlength => exact absurd (by simp) hlength

theorem Collects.published {node : LatticeNodeInfo} {group : List (ConnectionPtr × Nat)}
    (h : Collects node group) (alg : StdAlgorithm) (id : Int) :
    Collects { node.fixPrevs alg with id := id } group := by
  have hsame : (node.fixPrevs alg).ranks = node.ranks ∧
      (node.fixPrevs alg).ptrs = node.ptrs := by
    unfold LatticeNodeInfo.fixPrevs
    split_ifs
    · exact ⟨rfl, rfl⟩
    · exact ⟨rfl, rfl⟩
  have hperm := fixPrevs_prev_perm alg node
  exact {
    ranks_eq := hsame.1.trans h.ranks_eq
    prev_nodup := hperm.nodup_iff.mpr h.prev_nodup
    mem_prev := fun p => hperm.mem_iff.trans (h.mem_prev p)
    mem_ptrs := by
      dsimp only
      rw [hsame.2]
      exact h.mem_ptrs
    ptrs_ne := by
      dsimp only
      rw [hsame.2]
      exact h.ptrs_ne }

/-- Every node of a path stands once in the view, in the order of the text and with its place in it
as its number. -/
structure Published (rows : List (ConnectionPtr × Nat)) (view : List LatticeInfoView) : Prop where
  sorted : (view.map (·.nodePtr)).Pairwise fun p q => standsBefore p q = true
  ids : view.map (·.nodeInfo.id) = (List.range view.length).map fun (i : Nat) => (i : Int) + 1
  mem_iff : ∀ p, p ∈ view.map (·.nodePtr) ↔ rowsOf nodeOf rows p ≠ []
  collects : ∀ v ∈ view, Collects v.nodeInfo (rowsOf nodeOf rows v.nodePtr)
  prev_sorted : ∀ v ∈ view, v.nodeInfo.prev.Pairwise fun p q => standsBefore p q = true

theorem published_publishResult (alg : StdAlgorithm)
    (order : MapOrder LatticeNodePtr LatticeNodeInfo) {info : LatticeInfo}
    {rows : List (ConnectionPtr × Nat)} (h : Groups Collects nodeOf rows info) :
    Published rows (publishResult alg order info) := by
  let before : List LatticeInfoView :=
    (order.order info).map fun pair => ⟨pair.1, pair.2.fixPrevs alg⟩
  let sorted := alg.sort (fun v1 v2 => standsBefore v1.nodePtr v2.nodePtr) before
  have hperm : sorted.Perm before := alg.sort_perm _ _
  have hview : publishResult alg order info =
      sorted.zipIdx.map fun x => x.1.assignId ((x.2 : Int) + 1) := rfl
  have hnodes : (publishResult alg order info).map (·.nodePtr) = sorted.map (·.nodePtr) := by
    rw [hview, List.map_map]
    exact map_zipIdx_fst LatticeInfoView.nodePtr sorted
  have hkeys : (before.map (·.nodePtr)).Perm info.keys := by
    rw [List.map_map]
    exact (order.perm info).map Prod.fst
  -- what stands in the view is an entry of the map
  have hentry : ∀ v ∈ publishResult alg order info, ∃ e ∈ info.entries, ∃ id,
      v = ⟨e.1, { e.2.fixPrevs alg with id := id }⟩ := by
    intro v hv
    rw [hview] at hv
    obtain ⟨⟨w, i⟩, hw, rfl⟩ := List.mem_map.mp hv
    have hmem := hperm.subset (List.mem_of_getElem? (List.mk_mem_zipIdx_iff_getElem?.mp hw))
    obtain ⟨e, he, rfl⟩ := List.mem_map.mp hmem
    exact ⟨e, (order.perm info).subset he, (i : Int) + 1, rfl⟩
  constructor
  · rw [hnodes]
    exact pairwise_sort alg LatticeInfoView.nodePtr (hkeys.nodup_iff.mpr info.nodup)
  · rw [hview, List.map_map, List.length_map, List.length_zipIdx, List.range_eq_range',
      ← List.zipIdx_map_snd 0 sorted, List.map_map]
    rfl
  · intro p
    rw [hnodes, (hperm.map LatticeInfoView.nodePtr).mem_iff, hkeys.mem_iff]
    exact h.mem_keys_iff p
  · intro v hv
    obtain ⟨e, he, id, rfl⟩ := hentry v hv
    exact (h.holds he).published alg id
  · intro v hv
    obtain ⟨e, he, id, rfl⟩ := hentry v hv
    exact pairwise_fixPrevs alg (h.holds he).prev_nodup

section Published

variable {rows : List (ConnectionPtr × Nat)} {view : List LatticeInfoView} (h : Published rows view)

include h

theorem Published.id_eq {i : Nat} (hi : i < view.length) : view[i].nodeInfo.id = (i : Int) + 1 := by
  have hids := congrArg (fun l => l[i]?) h.ids
  simpa [List.getElem?_eq_getElem hi, List.getElem?_range hi] using hids

theorem Published.nodup : (view.map (·.nodePtr)).Nodup :=
  h.sorted.imp fun {p q} hpq heq => by
    rw [heq, standsBefore_iff] at hpq
    omega

theorem Published.idOf_eq {v : LatticeInfoView} (hv : v ∈ view) :
    idOf view v.nodePtr = v.nodeInfo.id := by
  unfold idOf
  cases hfind : view.find? fun w => decide (w.nodePtr = v.nodePtr) with
  | none =>
      rw [List.find?_eq_none] at hfind
      exact absurd (decide_eq_true rfl) (hfind v hv)
  | some w =>
      have hnode : w.nodePtr = v.nodePtr := by simpa using List.find?_some hfind
      have hsame := List.inj_on_of_nodup_map h.nodup (List.mem_of_find?_eq_some hfind) hv hnode
      rw [hsame]

omit h in
/-- BOS and all nodes that no path has. -/
theorem idOf_of_not_mem {p : LatticeNodePtr} (hp : p ∉ view.map (·.nodePtr)) : idOf view p = 0 := by
  unfold idOf
  cases hfind : view.find? fun w => decide (w.nodePtr = p) with
  | none => rfl
  | some w =>
      have hnode : w.nodePtr = p := by simpa using List.find?_some hfind
      exact absurd (List.mem_map.mpr ⟨w, List.mem_of_find?_eq_some hfind, hnode⟩) hp

/-- The numbers rise in the order of the text, from that of BOS on. -/
theorem Published.idOf_lt {p q : LatticeNodePtr} (hpq : standsBefore p q = true)
    (hq : q ∈ view.map (·.nodePtr)) : 0 ≤ idOf view p ∧ idOf view p < idOf view q := by
  have hplace : ∀ r ∈ view.map (·.nodePtr), ∃ i, ∃ hi : i < (view.map (·.nodePtr)).length,
      (view.map (·.nodePtr))[i] = r ∧ idOf view r = (i : Int) + 1 := by
    intro r hr
    obtain ⟨i, hi, rfl⟩ := List.mem_iff_getElem.mp hr
    have hlength : i < view.length := by simpa using hi
    refine ⟨i, hi, rfl, ?_⟩
    rw [List.getElem_map, h.idOf_eq (List.getElem_mem hlength), h.id_eq hlength]
  obtain ⟨j, hj, hqj, hidq⟩ := hplace q hq
  by_cases hp : p ∈ view.map (·.nodePtr)
  · obtain ⟨i, hi, hpi, hidp⟩ := hplace p hp
    have hlt : i < j := by
      by_contra hnot
      have hback : standsBefore q p = true ∨ q = p := by
        obtain hji | rfl : j < i ∨ j = i := by omega
        · exact .inl (hqj ▸ hpi ▸ List.pairwise_iff_getElem.mp h.sorted j i hj hi hji)
        · exact .inr (hqj.symm.trans hpi)
      rw [standsBefore_iff] at hpq hback
      obtain hback | rfl := hback
      · omega
      · omega
    omega
  · rw [idOf_of_not_mem hp]
    omega

end Published

end Jumanpp.Jumandic.LatticeFormat
