import Jumanpp.Core.Analysis.ComputedBeams
import Jumanpp.Jumandic.LatticeNodes
import Jumanpp.Lib.Slots

/-!
# Reading the paths back

The lines of the lattice that list a rank are, in the order in which they are printed, the nodes of
the path with that rank.  They cover the text, and each of them names the line before it.
-/

namespace Jumanpp.Jumandic.LatticeFormat

open Jumanpp.Lib Jumanpp.Core.Analysis Jumanpp.Core.Analysis.Rnn

/-- The lines that list a rank; ranks are printed from 1 up. -/
def linesOf (lines : List LatticeLine) (rank : Nat) : List LatticeLine :=
  lines.filter fun l => decide (rank ∈ l.ranks)

/-- The lines cover the text between two positions without a gap or an overlap. -/
def Covers : Int → List LatticeLine → Int → Prop
  | first, [], last => first = last
  | first, l :: ls, last => l.position = first ∧ l.position ≤ l.last ∧ Covers (l.last + 1) ls last

/-- Each line names the one before it; in front of the first one stands `before`. -/
def Linked : Int → List LatticeLine → Prop
  | _, [] => True
  | before, l :: ls => before ∈ l.prev ∧ Linked l.id ls

def lastId (before : Int) (lines : List LatticeLine) : Int :=
  lines.foldl (fun _ l => l.id) before

theorem covers_append_singleton {first last : Int} {lines : List LatticeLine} {l : LatticeLine} :
    Covers first (lines ++ [l]) last ↔
      Covers first lines l.position ∧ l.position ≤ l.last ∧ l.last + 1 = last := by
  induction lines generalizing first with
  | nil =>
      simp only [List.nil_append, Covers]
      exact and_congr_left fun _ => eq_comm
  | cons head lines ih => simp only [List.cons_append, Covers, ih, and_assoc]

theorem linked_append_singleton {before : Int} {lines : List LatticeLine} {l : LatticeLine} :
    Linked before (lines ++ [l]) ↔ Linked before lines ∧ lastId before lines ∈ l.prev := by
  induction lines generalizing before with
  | nil => simp [Linked, lastId]
  | cons head lines ih =>
      simp only [List.cons_append, Linked, ih, and_assoc]
      rfl

theorem lastId_append_singleton (before : Int) (lines : List LatticeLine) (l : LatticeLine) :
    lastId before (lines ++ [l]) = l.id := by
  unfold lastId
  rw [List.foldl_append]
  rfl

/-! ## One line -/

theorem maxElement_mem {α : Type} {comp : α → α → Bool} {l : List α} {x : α}
    (h : maxElement comp l = some x) : x ∈ l := by
  have hfold : ∀ (l : List α) (first : α),
      l.foldl (fun largest y => if comp largest y then y else largest) first = first ∨
        l.foldl (fun largest y => if comp largest y then y else largest) first ∈ l := by
    intro l
    induction l with
    | nil => exact fun first => .inl rfl
    | cons y l ih =>
        intro first
        rw [List.foldl_cons]
        obtain heq | hmem := ih (if comp first y then y else first)
        · rw [heq]
          split_ifs
          · exact .inr List.mem_cons_self
          · exact .inl rfl
        · exact .inr (List.mem_cons_of_mem y hmem)
  cases l with
  | nil => cases h
  | cons y l =>
      obtain rfl := Option.some.inj h
      exact List.mem_cons.mpr (hfold l y)

theorem exists_maxElement {α : Type} (comp : α → α → Bool) {l : List α} (h : l ≠ []) :
    ∃ x, maxElement comp l = some x := by
  cases l with
  | nil => exact absurd rfl h
  | cons y l => exact ⟨_, rfl⟩

/-- What is printed of a node; its place in the text does not depend on the connection that is
chosen. -/
structure PrintsNode (lat : Lattice) (view : List LatticeInfoView) (v : LatticeInfoView)
    (l : LatticeLine) : Prop where
  nodePtr_eq : l.nodePtr = v.nodePtr
  id_eq : l.id = v.nodeInfo.id
  prev_eq : l.prev = v.nodeInfo.prev.map (idOf view)
  ranks_eq : l.ranks = v.nodeInfo.ranks.map (· + 1)
  place : ∃ ninfo, (lat.boundary v.nodePtr.boundary).nodeInfo[v.nodePtr.position]? = some ninfo ∧
    l.position = (v.nodePtr.boundary : Int) - 2 ∧
      l.last = l.position + ((ninfo.end_ : Int) - ninfo.start) - 1

theorem exists_formatNode (ptrOrder : MapOrder ConnectionKey ConnectionPtr)
    (greater : ConnectionPtr → ConnectionPtr → Bool) {lat : Lattice} (view : List LatticeInfoView)
    {v : LatticeInfoView} {rows : List (ConnectionPtr × Nat)}
    (h : Collects v.nodeInfo (rowsOf nodeOf rows v.nodePtr))
    (hne : rowsOf nodeOf rows v.nodePtr ≠ [])
    (hinfo : ∃ ninfo,
      (lat.boundary v.nodePtr.boundary).nodeInfo[v.nodePtr.position]? = some ninfo) :
    ∃ l, formatNode ptrOrder greater lat view v = some l ∧ PrintsNode lat view v l := by
  obtain ⟨ninfo, hninfo⟩ := hinfo
  have hperm := ptrOrder.perm v.nodeInfo.ptrs
  have hptrs : (ptrOrder.order v.nodeInfo.ptrs).map Prod.snd ≠ [] := by
    intro hnil
    have hempty := List.map_eq_nil_iff.mp hnil
    rw [hempty] at hperm
    exact h.ptrs_ne hne hperm.nil_eq.symm
  obtain ⟨cptr, hcptr⟩ := exists_maxElement greater hptrs
  obtain ⟨e, he, rfl⟩ := List.mem_map.mp (maxElement_mem hcptr)
  obtain ⟨x, hx, hxe⟩ := h.mem_ptrs e (hperm.subset he)
  have hnode : nodeOf x = v.nodePtr := of_decide_eq_true (List.mem_filter.mp hx).2
  have hcptrNode : e.2.latticeNodePtr = v.nodePtr := by
    rw [← hxe]
    exact hnode
  have hinfo' : (lat.boundary e.2.boundary).nodeInfo[e.2.right]? = some ninfo := by
    rw [← hcptrNode] at hninfo
    exact hninfo
  let position : Int := (e.2.boundary : Int) - 2
  refine ⟨⟨v.nodePtr, v.nodeInfo.id, v.nodeInfo.prev.map (idOf view), position,
    position + ((ninfo.end_ : Int) - ninfo.start) - 1, v.nodeInfo.ranks.map (· + 1)⟩, ?_, ?_⟩
  · unfold formatNode
    simp only [hcptr, hinfo', Option.bind_eq_bind, Option.bind_some]
    rfl
  · refine ⟨rfl, rfl, rfl, rfl, ninfo, hninfo, ?_, rfl⟩
    rw [← hcptrNode]
    rfl

/-! ## All lines -/

section Lines

variable {lat : Lattice} {b : Nat} {els : List ConnectionBeamElement} {view : List LatticeInfoView}
  {lines : List LatticeLine} (hels : ∀ e ∈ els, LeadsBack lat b e.ptr.previous)
  (hpub : Published (rankedConnections els 0) view)
  (hlines : List.Forall₂ (PrintsNode lat view) view lines)

theorem rank_lt {x : ConnectionPtr × Nat} (hx : x ∈ rankedConnections els 0) :
    x.2 < els.length := by
  obtain ⟨e, he, -⟩ := mem_rankedConnections.mp hx
  exact (List.getElem?_eq_some_iff.mp he).1

include hpub in
theorem mem_view_iff {p : LatticeNodePtr} :
    p ∈ view.map (·.nodePtr) ↔ ∃ x ∈ rankedConnections els 0, nodeOf x = p := by
  rw [hpub.mem_iff, rowsOf_ne_nil_iff]

include hels

theorem leadsBack_of_mem {x : ConnectionPtr × Nat} (hx : x ∈ rankedConnections els 0) :
    ∃ b, LeadsBack lat b x.1 ∧ 2 ≤ x.1.boundary := by
  obtain ⟨e, he, hmem⟩ := mem_rankedConnections.mp hx
  exact (hels e (List.mem_of_getElem? he)).of_mem hmem

theorem previous_before {x : ConnectionPtr × Nat} (hx : x ∈ rankedConnections els 0) :
    standsBefore x.1.previous.latticeNodePtr (nodeOf x) = true := by
  obtain ⟨b, hback, htwo⟩ := leadsBack_of_mem hels hx
  exact (standsBefore_iff _ _).mpr (.inl (hback.previous htwo).boundary_lt)

include hpub

theorem two_le_of_mem_view {p : LatticeNodePtr} (hp : p ∈ view.map (·.nodePtr)) :
    2 ≤ p.boundary := by
  obtain ⟨x, hx, rfl⟩ := (mem_view_iff hpub).mp hp
  obtain ⟨-, -, htwo⟩ := leadsBack_of_mem hels hx
  exact htwo

/-- The line in front of the first one is BOS. -/
theorem idOf_bos : idOf view ⟨1, 0⟩ = 0 :=
  idOf_of_not_mem fun h => absurd (two_le_of_mem_view hels hpub h) (by decide)

theorem previous_node {x : ConnectionPtr × Nat} (hx : x ∈ rankedConnections els 0) :
    x.1.previous.latticeNodePtr = ⟨1, 0⟩ ∨ x.1.previous.latticeNodePtr ∈ view.map (·.nodePtr) := by
  obtain ⟨e, he, hmem⟩ := mem_rankedConnections.mp hx
  obtain hbos | hprev := (hels e (List.mem_of_getElem? he)).previous_mem hmem
  · rw [hbos]
    exact .inl rfl
  · exact .inr ((mem_view_iff hpub).mpr
      ⟨(x.1.previous, x.2), mem_rankedConnections.mpr ⟨e, he, hprev⟩, rfl⟩)

theorem exists_lines (ptrOrder : MapOrder ConnectionKey ConnectionPtr)
    (greater : ConnectionPtr → ConnectionPtr → Bool) :
    ∃ lines, view.mapM (formatNode ptrOrder greater lat view) = some lines ∧
      List.Forall₂ (PrintsNode lat view) view lines := by
  have hone : ∀ v ∈ view, ∃ l, formatNode ptrOrder greater lat view v = some l ∧
      PrintsNode lat view v l := by
    intro v hv
    have hmem := List.mem_map_of_mem (f := LatticeInfoView.nodePtr) hv
    refine exists_formatNode ptrOrder greater view (hpub.collects v hv)
      ((hpub.mem_iff v.nodePtr).mp hmem) ?_
    obtain ⟨x, hx, hnode⟩ := (mem_view_iff hpub).mp hmem
    obtain ⟨b, hback, htwo⟩ := leadsBack_of_mem hels hx
    rw [← hnode]
    exact hback.exists_info htwo
  obtain ⟨lines, hlines⟩ := exists_mapM_iff.mpr fun v hv => (hone v hv).imp fun _ h => h.1
  refine ⟨lines, hlines, ?_⟩
  refine ((List.forall₂_and_left view lines).mpr ⟨hone, mapM_eq_some_iff.mp hlines⟩).imp ?_
  rintro v l ⟨⟨l', hl', hprints⟩, hl⟩
  rw [hl, Option.some.injEq] at hl'
  rw [hl']
  exact hprints

include hlines

omit hels hpub in
theorem map_nodePtr_lines : lines.map (·.nodePtr) = view.map (·.nodePtr) :=
  map_eq_map_of_forall₂ (fun _ _ h => h.nodePtr_eq) hlines

omit hels in
theorem mem_ranks_iff (hlength : els.length ≤ 2 ^ 16) {l : LatticeLine} (hl : l ∈ lines) {i : Nat} :
    i + 1 ∈ l.ranks ↔ ∃ x ∈ rankedConnections els 0, nodeOf x = l.nodePtr ∧ x.2 = i := by
  obtain ⟨v, hv, hprints⟩ := exists_of_forall₂_right hlines hl
  have hu16 : ∀ x ∈ rankedConnections els 0, u16 x.2 = x.2 := fun x hx =>
    u16_of_lt ((rank_lt hx).trans_le hlength)
  rw [hprints.ranks_eq, (hpub.collects v hv).ranks_eq, List.map_map, List.mem_map,
    hprints.nodePtr_eq]
  constructor
  · rintro ⟨x, hx, heq⟩
    obtain ⟨hx, hnode⟩ := mem_rowsOf.mp hx
    have hrank := hu16 x hx
    simp only [Function.comp_apply] at heq
    exact ⟨x, hx, hnode, by omega⟩
  · rintro ⟨x, hx, hnode, rfl⟩
    have hrank := hu16 x hx
    refine ⟨x, mem_rowsOf.mpr ⟨hx, hnode⟩, ?_⟩
    simp only [Function.comp_apply]
    omega

/-- The lines of a rank are the nodes of its path: both lists are in the order of the text, and they
have the same nodes. -/
theorem map_nodePtr_linesOf (hlength : els.length ≤ 2 ^ 16) {i : Nat} {e : ConnectionBeamElement}
    (he : els[i]? = some e) : (linesOf lines (i + 1)).map (·.nodePtr) =
      ((pathConnections e.ptr.previous).map ConnectionPtr.latticeNodePtr).reverse := by
  have hirrefl : Std.Irrefl fun p q : LatticeNodePtr => standsBefore p q = true :=
    ⟨fun p h => by rw [standsBefore_iff] at h; omega⟩
  have hantisymm : Std.Antisymm fun p q : LatticeNodePtr => standsBefore p q = true :=
    ⟨fun p q h h' => by rw [standsBefore_iff] at h h'; omega⟩
  have hnodes := map_nodePtr_lines hlines
  have hsorted : (lines.map (·.nodePtr)).Pairwise fun p q => standsBefore p q = true := by
    rw [hnodes]
    exact hpub.sorted
  refine List.Pairwise.eq_of_mem_iff (hsorted.sublist (List.filter_sublist.map _)) ?_ fun p => ?_
  · rw [List.pairwise_reverse, List.pairwise_map]
    refine (hels e (List.mem_of_getElem? he)).pairwise.imp fun {x y} hxy => ?_
    exact (standsBefore_iff _ _).mpr (.inl hxy)
  · rw [List.mem_map, List.mem_reverse, List.mem_map]
    constructor
    · rintro ⟨l, hl, rfl⟩
      obtain ⟨hl, hrank⟩ := List.mem_filter.mp hl
      obtain ⟨x, hx, hnode, rfl⟩ :=
        (mem_ranks_iff hpub hlines hlength hl).mp (of_decide_eq_true hrank)
      obtain ⟨e', he', hmem⟩ := mem_rankedConnections.mp hx
      rw [he, Option.some.injEq] at he'
      exact ⟨x.1, he' ▸ hmem, hnode⟩
    · rintro ⟨c, hc, rfl⟩
      have hx : (c, i) ∈ rankedConnections els 0 := mem_rankedConnections.mpr ⟨e, he, hc⟩
      have hview : c.latticeNodePtr ∈ lines.map (·.nodePtr) := by
        rw [hnodes]
        exact (mem_view_iff hpub).mpr ⟨(c, i), hx, rfl⟩
      obtain ⟨l, hl, hnode⟩ := List.mem_map.mp hview
      have hrank := (mem_ranks_iff hpub hlines hlength hl).mpr ⟨(c, i), hx, hnode.symm, rfl⟩
      exact ⟨l, List.mem_filter.mpr ⟨hl, decide_eq_true hrank⟩, hnode⟩

/-- Along the way back, the lines of its nodes cover the text and name each other. -/
theorem LeadsBack.reads {b' : Nat} {ptr : ConnectionPtr} (h : LeadsBack lat b' ptr)
    (hmem : ∀ c ∈ pathConnections ptr, ∃ r, (c, r) ∈ rankedConnections els 0)
    {path : List LatticeLine} (hpath : ∀ l ∈ path, l ∈ lines)
    (hnodes : path.map (·.nodePtr) =
      ((pathConnections ptr).map ConnectionPtr.latticeNodePtr).reverse) :
    Covers 0 path ((b' : Int) - 2) ∧ Linked 0 path ∧
      lastId 0 path = idOf view ptr.latticeNodePtr := by
  induction h generalizing path with
  | bos =>
      rw [pathConnections_bosPtr] at hnodes
      obtain rfl := List.map_eq_nil_iff.mp hnodes
      exact ⟨rfl, trivial, (idOf_bos hels hpub).symm⟩
  | @step b' ptr ninfo htwo hends hinfo hstart hend hlt hprev ih =>
      rw [pathConnections_of_le htwo] at hmem hnodes
      rw [List.map_cons, List.reverse_cons] at hnodes
      obtain ⟨before, rest, rfl, hbefore, hrest⟩ := List.map_eq_append_iff.mp hnodes
      obtain ⟨l, rfl, hl⟩ := List.map_eq_singleton_iff.mp hrest
      obtain ⟨hcovers, hlinked, hid⟩ := ih (fun c hc => hmem c (List.mem_cons_of_mem ptr hc))
        (fun l hl => hpath l (List.mem_append_left _ hl)) hbefore
      obtain ⟨v, hv, hprints⟩ := exists_of_forall₂_right hlines
        (hpath l (List.mem_append_right _ (List.mem_singleton.mpr rfl)))
      have hnode : v.nodePtr = ptr.latticeNodePtr := hprints.nodePtr_eq.symm.trans hl
      obtain ⟨ninfo', hninfo', hposition, hlast⟩ := hprints.place
      rw [hnode] at hninfo' hposition
      obtain rfl : ninfo' = ninfo := Option.some.inj (hninfo'.symm.trans hinfo)
      have hboundary : ptr.latticeNodePtr.boundary = ptr.boundary := rfl
      rw [hboundary] at hposition
      refine ⟨covers_append_singleton.mpr ⟨?_, ?_, ?_⟩,
        linked_append_singleton.mpr ⟨hlinked, ?_⟩, ?_⟩
      · rw [hposition]
        exact hcovers
      · omega
      · omega
      · obtain ⟨r, hr⟩ := hmem ptr List.mem_cons_self
        have hgroup : (ptr, r) ∈ rowsOf nodeOf (rankedConnections els 0) v.nodePtr :=
          mem_rowsOf.mpr ⟨hr, hnode.symm⟩
        rw [hid, hprints.prev_eq]
        exact List.mem_map_of_mem (((hpub.collects v hv).mem_prev _).mpr ⟨(ptr, r), hgroup, rfl⟩)
      · rw [lastId_append_singleton, hprints.id_eq, ← hpub.idOf_eq hv, hnode]

end Lines

/-! ## The paths -/

/-- The real elements of the EOS beam that are printed. -/
def printedElems (lat : Lattice) (beams : Beams) (outputN : Int) : List ConnectionBeamElement :=
  (activeBeam (eosBeam lat beams)).take outputN.toNat

/-- What a reader of the lines gets for a lattice of `n` code points. -/
structure ReadsBack (lat : Lattice) (n : Nat) (els : List ConnectionBeamElement)
    (lines : List LatticeLine) : Prop where
  ids : lines.map (·.id) = (List.range lines.length).map fun (i : Nat) => (i : Int) + 1
  prev : ∀ l ∈ lines, l.prev.Pairwise (· < ·) ∧ ∀ p ∈ l.prev, 0 ≤ p ∧ p < l.id
  ranks : ∀ l ∈ lines, l.ranks ≠ [] ∧ l.ranks.Pairwise (· < ·) ∧
    ∀ r ∈ l.ranks, 1 ≤ r ∧ r ≤ els.length
  path : ∀ (i : Nat) (e : ConnectionBeamElement), els[i]? = some e →
    lat.IsPath (e.path ⟨n + 2, 0⟩) ∧ e.path ⟨n + 2, 0⟩ =
      ⟨n + 2, 0⟩ :: ((linesOf lines (i + 1)).map (·.nodePtr)).reverse ++ [⟨1, 0⟩, ⟨0, 0⟩]
  covers : ∀ r, 1 ≤ r → r ≤ els.length → Covers 0 (linesOf lines r) n
  linked : ∀ r, 1 ≤ r → r ≤ els.length → Linked 0 (linesOf lines r)

section ReadsBack

variable {lat : Lattice} {n : Nat} {els : List ConnectionBeamElement} {view : List LatticeInfoView}
  {lines : List LatticeLine} (hels : ∀ e ∈ els, LeadsBack lat (n + 2) e.ptr.previous)
  (hpub : Published (rankedConnections els 0) view)
  (hlines : List.Forall₂ (PrintsNode lat view) view lines)

include hels hpub hlines

theorem pairwise_prev {l : LatticeLine} (hl : l ∈ lines) :
    l.prev.Pairwise (· < ·) ∧ ∀ p ∈ l.prev, 0 ≤ p ∧ p < l.id := by
  obtain ⟨v, hv, hprints⟩ := exists_of_forall₂_right hlines hl
  have hcollects := hpub.collects v hv
  have hconnection : ∀ p ∈ v.nodeInfo.prev, ∃ x ∈ rankedConnections els 0,
      nodeOf x = v.nodePtr ∧ x.1.previous.latticeNodePtr = p := by
    intro p hp
    obtain ⟨x, hx, hprevious⟩ := (hcollects.mem_prev p).mp hp
    obtain ⟨hx, hnode⟩ := mem_rowsOf.mp hx
    exact ⟨x, hx, hnode, hprevious⟩
  have hnode : ∀ p ∈ v.nodeInfo.prev, p = ⟨1, 0⟩ ∨ p ∈ view.map (·.nodePtr) := by
    intro p hp
    obtain ⟨x, hx, -, rfl⟩ := hconnection p hp
    exact previous_node hels hpub hx
  rw [hprints.prev_eq, hprints.id_eq, ← hpub.idOf_eq hv]
  constructor
  · rw [List.pairwise_map]
    refine (hpub.prev_sorted v hv).imp_of_mem fun {p q} hp hq hpq => ?_
    obtain rfl | hq := hnode q hq
    · -- nothing stands before BOS
      obtain rfl | hp := hnode p hp
      · exact absurd hpq (by decide)
      · have htwo := two_le_of_mem_view hels hpub hp
        rw [standsBefore_iff] at hpq
        dsimp only at hpq
        omega
    · exact (hpub.idOf_lt hpq hq).2
  · intro p hp
    obtain ⟨q, hq, rfl⟩ := List.mem_map.mp hp
    obtain ⟨x, hx, hnode, rfl⟩ := hconnection q hq
    have hbefore := previous_before hels hx
    rw [hnode] at hbefore
    exact hpub.idOf_lt hbefore (List.mem_map_of_mem hv)

theorem pairwise_ranks (hlength : els.length ≤ 2 ^ 16) {l : LatticeLine} (hl : l ∈ lines) :
    l.ranks ≠ [] ∧ l.ranks.Pairwise (· < ·) ∧ ∀ r ∈ l.ranks, 1 ≤ r ∧ r ≤ els.length := by
  obtain ⟨v, hv, hprints⟩ := exists_of_forall₂_right hlines hl
  have hgroup := (hpub.mem_iff v.nodePtr).mp (List.mem_map_of_mem hv)
  have hrank : ∀ x ∈ rowsOf nodeOf (rankedConnections els 0) v.nodePtr,
      u16 x.2 = x.2 ∧ x.2 < els.length ∧ nodeOf x = v.nodePtr := by
    intro x hx
    obtain ⟨hx, hnode⟩ := mem_rowsOf.mp hx
    exact ⟨u16_of_lt ((rank_lt hx).trans_le hlength), rank_lt hx, hnode⟩
  rw [hprints.ranks_eq, (hpub.collects v hv).ranks_eq, List.map_map]
  refine ⟨fun hnil => hgroup (List.map_eq_nil_iff.mp hnil), ?_, ?_⟩
  · rw [List.pairwise_map]
    have hrising := (pairwise_rankedConnections hels 0).sublist
      (List.filter_sublist (p := fun x => decide (nodeOf x = v.nodePtr)))
    refine hrising.imp_of_mem fun {x y} hx hy hxy => ?_
    obtain ⟨hx16, -, hxnode⟩ := hrank x hx
    obtain ⟨hy16, -, hynode⟩ := hrank y hy
    simp only [Function.comp_apply]
    have := hxy (hxnode.trans hynode.symm)
    omega
  · intro r hr
    obtain ⟨x, hx, rfl⟩ := List.mem_map.mp hr
    obtain ⟨hx16, hlt, -⟩ := hrank x hx
    simp only [Function.comp_apply]
    omega

theorem linesOf_reads (hlength : els.length ≤ 2 ^ 16) {i : Nat} {e : ConnectionBeamElement}
    (he : els[i]? = some e) :
    Covers 0 (linesOf lines (i + 1)) n ∧ Linked 0 (linesOf lines (i + 1)) := by
  have hback := hels e (List.mem_of_getElem? he)
  obtain ⟨hcovers, hlinked, -⟩ := hback.reads hels hpub hlines
    (fun c hc => ⟨i, mem_rankedConnections.mpr ⟨e, he, hc⟩⟩) (fun l hl => List.mem_of_mem_filter hl)
    (map_nodePtr_linesOf hels hpub hlines hlength he)
  have hlast : ((n + 2 : Nat) : Int) - 2 = n := by omega
  rw [hlast] at hcovers
  exact ⟨hcovers, hlinked⟩

theorem readsBack (hlength : els.length ≤ 2 ^ 16) : ReadsBack lat n els lines := by
  have hrank : ∀ r, 1 ≤ r → r ≤ els.length → ∃ i e, r = i + 1 ∧ els[i]? = some e := by
    intro r hone hle
    have hi : r - 1 < els.length := by omega
    exact ⟨r - 1, els[r - 1], by omega, List.getElem?_eq_getElem hi⟩
  constructor
  · rw [map_eq_map_of_forall₂ (fun v l h => h.id_eq) hlines, hpub.ids, hlines.length_eq]
  · exact fun l hl => pairwise_prev hels hpub hlines hl
  · exact fun l hl => pairwise_ranks hels hpub hlines hlength hl
  · intro i e he
    have hback := hels e (List.mem_of_getElem? he)
    unfold ConnectionBeamElement.path
    refine ⟨hback.isPath rfl, ?_⟩
    rw [map_nodePtr_linesOf hels hpub hlines hlength he, List.reverse_reverse, hback.nodes_eq]
    rfl
  · intro r hone hle
    obtain ⟨i, e, rfl, he⟩ := hrank r hone hle
    exact (linesOf_reads hels hpub hlines hlength he).1
  · intro r hone hle
    obtain ⟨i, e, rfl, he⟩ := hrank r hone hle
    exact (linesOf_reads hels hpub hlines hlength he).2

end ReadsBack

/-! ## After the analysis -/

theorem activeBeam_take (row : List ConnectionBeamElement) (k : Nat) :
    activeBeam (row.take k) = (activeBeam row).take k := by
  induction row generalizing k with
  | nil => simp [activeBeam]
  | cons e row ih =>
      cases k with
      | zero => rfl
      | succ k =>
          have hk := ih k
          unfold activeBeam at hk ⊢
          rw [List.take_succ_cons, List.takeWhile_cons, List.takeWhile_cons]
          split_ifs
          · rw [List.take_succ_cons, hk]
          · rfl

section Analyzed

variable {lat : Lattice} {n : Nat} {beams : Beams} (hspans : Spans lat n)
  (hlive : LiveInv lat (n + 3) beams) (hbos : activePtrs beams ⟨1, 0⟩ = [bosPtr])

include hspans hlive hbos

/-- By induction on the boundary of the node: before a live connection there is a live one or
BOS. -/
theorem leadsBack_previous {ptr : LatticeNodePtr} {c : ConnectionPtr} (htwo : 2 ≤ ptr.boundary)
    (hlt : ptr.boundary < n + 3) (hcontinues : ∃ left prev, Continues lat beams ptr c left prev) :
    LeadsBack lat ptr.boundary c.previous := by
  induction hb : ptr.boundary using Nat.strong_induction_on generalizing ptr c with
  | h b ih =>
      subst hb
      obtain ⟨left, prev, hcontinues⟩ := hcontinues
      have hprev : c.previous = prev := by
        rw [hcontinues.eq]
        rfl
      have hmem := List.mem_of_getElem? hcontinues.ends
      have hprevLive := List.mem_of_getElem? hcontinues.beam
      have hback := lat.ends_back ptr.boundary htwo left hmem
      rw [hprev]
      by_cases hone : left.boundary = 1
      · obtain rfl := lat.ends_eq_bos htwo hmem hone
        rw [hbos, List.mem_singleton] at hprevLive
        have hfirst : ptr.boundary = 2 := by
          by_contra hne
          obtain ⟨info, -, hstart, -⟩ := hspans.info ptr.boundary (by omega) hlt ⟨1, 0⟩ hmem
          simp only at hstart
          omega
        rw [hprevLive, hfirst]
        exact .bos
      · obtain ⟨info, hinfo, hstart, hend, hne⟩ :=
          hspans.info ptr.boundary (by omega) hlt left hmem
        have hvalid := lat.ends_valid ptr.boundary htwo left hmem
        have hu16 := lat.ends_u16 ptr.boundary htwo left hmem
        have hbefore := hlive.continues left (by omega) (by omega) hvalid prev hprevLive
        have hnode : prev.latticeNodePtr = left := by
          obtain ⟨left', prev', hcontinues'⟩ := hbefore
          rw [hcontinues'.eq, u16_of_lt hu16.1, u16_of_lt hu16.2]
          rfl
        have hprevious := ih left.boundary hback.2 (by omega) (by omega) hbefore rfl
        rw [← hnode] at hmem hinfo hstart hprevious
        exact .step (by rw [← hnode] at hback; exact hback.1.lt_of_ne (by rw [hnode]; omega)) hmem
          hinfo hstart hend hne hprevious

theorem format_readsBack (alg : StdAlgorithm) (order : MapOrder LatticeNodePtr LatticeNodeInfo)
    (ptrOrder : MapOrder ConnectionKey ConnectionPtr)
    (greater : ConnectionPtr → ConnectionPtr → Bool) (outputN : Int)
    (hlength : (printedElems lat beams outputN).length ≤ 2 ^ 16) :
    ∃ lines, format alg order ptrOrder greater lat beams outputN = some lines ∧
      ReadsBack lat n (printedElems lat beams outputN) lines := by
  have hpos := hspans.pos
  have hcount := hspans.count
  have hbeam : eosBeam lat beams = beamAt beams ⟨n + 2, 0⟩ := by
    unfold eosBeam
    rw [hcount]
    rfl
  have hels : ∀ e ∈ printedElems lat beams outputN, LeadsBack lat (n + 2) e.ptr.previous := by
    intro e he
    have hmem := List.mem_of_mem_take he
    rw [hbeam] at hmem
    have hactive : e.ptr ∈ activePtrs beams ⟨n + 2, 0⟩ := List.mem_map_of_mem hmem
    have htwo : 2 ≤ n + 2 := by omega
    have hcontinues := hlive.continues ⟨n + 2, 0⟩ htwo (Nat.lt_succ_self _)
      hspans.localNodeCount_eos e.ptr hactive
    exact leadsBack_previous hspans hlive hbos htwo (Nat.lt_succ_self _) hcontinues
  let maxN := min ((eosBeam lat beams).length : Int) outputN
  have helems : activeBeam ((eosBeam lat beams).take maxN.toNat) =
      printedElems lat beams outputN := by
    have htake : (eosBeam lat beams).take maxN.toNat =
        (eosBeam lat beams).take outputN.toNat := by
      rw [List.take_eq_take_iff]
      omega
    rw [htake, activeBeam_take]
    rfl
  rw [← helems] at hels
  obtain ⟨info, hinfo, hgroups⟩ := groups_fillElems hels
  rw [helems] at hels hgroups
  have hpub := published_publishResult alg order hgroups
  obtain ⟨lines, hformat, hlines⟩ := exists_lines hels hpub ptrOrder greater
  refine ⟨lines, ?_, readsBack hels hpub hlines hlength⟩
  have hfill : fillInfo lat beams outputN = some info := by
    unfold fillInfo
    rw [if_neg (by omega)]
    exact hinfo
  unfold format
  rw [if_neg (by omega), hfill]
  exact hformat

end Analyzed

theorem printedElems_ne_nil {lat : Lattice} {n : Nat} {beams : Beams} (hspans : Spans lat n)
    (hlive : LiveInv lat (n + 3) beams) {outputN : Int} (hpos : 0 < outputN) :
    printedElems lat beams outputN ≠ [] := by
  have hactive := hlive.live ⟨n + 2, 0⟩ (by simp only; omega) (Nat.lt_succ_self _)
    hspans.localNodeCount_eos hspans.paths
  intro hnil
  unfold printedElems eosBeam at hnil
  rw [hspans.count, List.take_eq_nil_iff] at hnil
  obtain hzero | hnil := hnil
  · omega
  · apply hactive
    unfold activePtrs
    rw [List.map_eq_nil_iff]
    exact hnil

/-- Two characters with two nodes each, and so four paths. -/
def twinPair : Lattice :=
  .ofBoundaries (twinBoundaries 2) (by decide) (by decide) (by decide) (by decide) (by decide)
    (by decide) (by decide)

theorem exists_beams_twinPair : ∃ beams,
    (flatAnalyzer 5 beamSize_five_pos).computeScores twinPair [] [] = some beams :=
  Option.isSome_iff_exists.mp (by decide +kernel)

end Jumanpp.Jumandic.LatticeFormat
