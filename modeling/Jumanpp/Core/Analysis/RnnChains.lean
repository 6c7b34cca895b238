import Jumanpp.Core.Analysis.RnnIdResolver

/-!
# Chains of connections

A kept connection stands for its chain: the coordinates on the way back to BOS.  Connections are
visited path by path, each of them once.
-/

namespace Jumanpp.Core.Analysis.Rnn

/-- The chain of a node of the RNN lattice. -/
inductive HasChain (nodes : List RnnNode) : RnnNodePtr → List RnnCoordinate → Prop
  | bos : HasChain nodes RnnIdContainer.bos1 []
  | node {ptr prev : RnnNodePtr} {node : RnnNode} {chain : List RnnCoordinate}
      (hptr : ptr ≠ RnnIdContainer.bos1) (hnode : nodes[ptr]? = some node)
      (hprev : node.prev = some prev) (hchain : HasChain nodes prev chain) :
      HasChain nodes ptr (⟨node.boundary, node.length, node.id⟩ :: chain)

theorem HasChain.unique {nodes : List RnnNode} {ptr : RnnNodePtr} {chain chain' : List RnnCoordinate}
    (h : HasChain nodes ptr chain) (h' : HasChain nodes ptr chain') : chain = chain' := by
  induction h generalizing chain' with
  | bos =>
      cases h' with
      | bos => rfl
      | node hptr => exact absurd rfl hptr
  | node hptr hnode hprev _ ih =>
      cases h' with
      | bos => exact absurd rfl hptr
      | node _ hnode' hprev' hchain' =>
          rw [hnode, Option.some.injEq] at hnode'
          subst hnode'
          rw [hprev, Option.some.injEq] at hprev'
          subst hprev'
          rw [ih hchain']

def chainHash : List RnnCoordinate → UInt64
  | [] => 0xdeadbeef0000
  | coord :: chain => ((FastHash1.mk (chainHash chain)).mix coord.hashData).result

/-! ## The connections of the paths -/

section Paths

variable (bos : ConnectionPtr) (coordOf : ConnectionPtr → RnnCoordinate)

/-- The coordinates of a connection and of those before it. -/
def chain : ConnectionPtr → List RnnCoordinate
  | .null => []
  | .conn b l r m previous =>
      if .conn b l r m previous = bos then []
      else coordOf (.conn b l r m previous) :: chain previous

def connections : ConnectionPtr → List ConnectionPtr
  | .null => []
  | .conn b l r m previous =>
      if .conn b l r m previous = bos then []
      else .conn b l r m previous :: connections previous

/-- The connections visited so far, the last one first, and those that a path adds. -/
def visit (seen : List ConnectionPtr) : ConnectionPtr → List ConnectionPtr
  | .null => seen
  | .conn b l r m previous =>
      if .conn b l r m previous = bos ∨ .conn b l r m previous ∈ seen then seen
      else .conn b l r m previous :: visit seen previous

def visited (paths : List ConnectionPtr) : List ConnectionPtr :=
  paths.foldl (visit bos) []

/-- Among the connections with one coordinate those with the same chain were visited in a row. -/
def Grouped (seen : List ConnectionPtr) : Prop :=
  ∀ x y z, [x, y, z].Sublist seen → coordOf x = coordOf y → chain bos coordOf x = chain bos coordOf z →
    chain bos coordOf y = chain bos coordOf x

end Paths

section Grouped

variable {bos : ConnectionPtr} {coordOf : ConnectionPtr → RnnCoordinate}
  {seen seen' : List ConnectionPtr}

theorem Grouped.sublist (h : Grouped bos coordOf seen) (hsub : seen'.Sublist seen) :
    Grouped bos coordOf seen' :=
  fun x y z hxyz => h x y z (hxyz.trans hsub)

theorem grouped_nil : Grouped bos coordOf [] := by
  intro x y z hsub
  cases hsub

theorem grouped_cons {c : ConnectionPtr} : Grouped bos coordOf (c :: seen) ↔
    Grouped bos coordOf seen ∧ ∀ y z, [y, z].Sublist seen → coordOf c = coordOf y →
      chain bos coordOf c = chain bos coordOf z → chain bos coordOf y = chain bos coordOf c := by
  constructor
  · intro h
    exact ⟨h.sublist (List.sublist_cons_self c seen), fun y z hyz => h c y z (hyz.cons_cons c)⟩
  · rintro ⟨hseen, hc⟩ x y z hsub hcoord hchain
    cases hsub with
    | cons _ hsub => exact hseen x y z hsub hcoord hchain
    | cons_cons _ hsub => exact hc y z hsub hcoord hchain

theorem sublist_visit (c : ConnectionPtr) : seen.Sublist (visit bos seen c) := by
  induction c with
  | null => exact List.Sublist.refl seen
  | conn b l r m previous ih =>
      unfold visit
      split_ifs with h
      · exact List.Sublist.refl seen
      · exact ih.trans (List.sublist_cons_self _ _)

theorem mem_of_mem_visit {c x : ConnectionPtr} (hx : x ∈ visit bos seen c) :
    x ∈ seen ∨ x ∈ connections bos c := by
  induction c with
  | null => exact Or.inl hx
  | conn b l r m previous ih =>
      unfold visit at hx
      unfold connections
      split_ifs at hx with h
      · exact Or.inl hx
      · rw [not_or] at h
        rw [if_neg h.1]
        rcases List.mem_cons.mp hx with rfl | hx
        · exact Or.inr List.mem_cons_self
        · exact (ih hx).imp_right (List.mem_cons_of_mem _)

theorem mem_visit_iff (hclosed : ∀ c ∈ seen, ∀ x ∈ connections bos c, x ∈ seen)
    {c x : ConnectionPtr} : x ∈ visit bos seen c ↔ x ∈ seen ∨ x ∈ connections bos c := by
  induction c with
  | null => simp [visit, connections]
  | conn b l r m previous ih =>
      unfold visit connections
      by_cases hbos : ConnectionPtr.conn b l r m previous = bos
      · simp [hbos]
      · by_cases hseen : ConnectionPtr.conn b l r m previous ∈ seen
        · have hsub := hclosed _ hseen
          unfold connections at hsub
          rw [if_neg hbos] at hsub ⊢
          rw [if_pos (Or.inr hseen)]
          constructor
          · exact Or.inl
          · rintro (h | h)
            · exact h
            · exact hsub x h
        · rw [if_neg (by simp [hbos, hseen]), if_neg hbos, List.mem_cons, ih, List.mem_cons]
          tauto

end Grouped

/-! ## Kept connections -/

/-- What the code relies on for the connections of the kept paths. -/
structure Links (bos : ConnectionPtr) (coordOf : ConnectionPtr → RnnCoordinate) (numBnds : Nat)
    (level : ConnectionPtr → Nat) (kept : ConnectionPtr → Prop) : Prop where
  bos_ne_null : bos ≠ .null
  ne_bos : ∀ c, kept c → c ≠ bos
  ne_null : ∀ c, kept c → c ≠ .null
  previous : ∀ c, kept c → c.previous = bos ∨ kept c.previous
  key_inj : ∀ c c', kept c → kept c' → c.key = c'.key → c = c'
  key_bos : ∀ c, kept c → c.key ≠ bos.key
  boundary_eq : ∀ c, kept c → (coordOf c).boundary = c.boundary
  boundary_lt : ∀ c, kept c → c.boundary < numBnds
  boundary_ne : ∀ c, kept c → c.boundary ≠ 1
  level_lt : ∀ c, kept c → kept c.previous → level c.previous < level c
  level_inj : ∀ c c', kept c → kept c' → level c = level c' → c.boundary = c'.boundary
  level_boundary : ∀ c c', kept c → kept c' → c.boundary = c'.boundary → level c = level c'
  follows : ∀ c, kept c → kept c.previous →
    level c = level c.previous + (coordOf c.previous).length
  hash_inj : ∀ c c', kept c → kept c' →
    chainHash (chain bos coordOf c) = chainHash (chain bos coordOf c') →
    (chain bos coordOf c).map (fun x => (x.rnnId, x.length)) =
      (chain bos coordOf c').map fun x => (x.rnnId, x.length)

namespace Links

variable {bos : ConnectionPtr} {coordOf : ConnectionPtr → RnnCoordinate} {numBnds : Nat}
  {level : ConnectionPtr → Nat} {kept : ConnectionPtr → Prop}
  (h : Links bos coordOf numBnds level kept)

include h

theorem chain_bos : chain bos coordOf bos = [] := by
  cases hb : bos with
  | null => exact absurd hb h.bos_ne_null
  | conn b l r m p =>
      unfold chain
      rw [if_pos rfl]

theorem chain_eq {c : ConnectionPtr} (hc : kept c) :
    chain bos coordOf c = coordOf c :: chain bos coordOf c.previous := by
  cases c with
  | null => exact absurd rfl (h.ne_null _ hc)
  | conn b l r m p =>
      conv_lhs => unfold chain
      rw [if_neg (h.ne_bos _ hc)]
      rfl

theorem connections_eq {c : ConnectionPtr} (hc : kept c) :
    connections bos c = c :: connections bos c.previous := by
  cases c with
  | null => exact absurd rfl (h.ne_null _ hc)
  | conn b l r m p =>
      conv_lhs => unfold connections
      rw [if_neg (h.ne_bos _ hc)]
      rfl

theorem visit_eq {c : ConnectionPtr} (hc : kept c) {seen : List ConnectionPtr} (hseen : c ∉ seen) :
    visit bos seen c = c :: visit bos seen c.previous := by
  cases c with
  | null => exact absurd rfl (h.ne_null _ hc)
  | conn b l r m p =>
      conv_lhs => unfold visit
      rw [if_neg (by rw [not_or]; exact ⟨h.ne_bos _ hc, hseen⟩)]
      rfl

omit h in
theorem visit_of_mem {c : ConnectionPtr} {seen : List ConnectionPtr} (hc : c = bos ∨ c ∈ seen) :
    visit bos seen c = seen := by
  cases c with
  | null => rfl
  | conn b l r m p =>
      unfold visit
      rw [if_pos hc]

theorem coordOf_eq {c c' : ConnectionPtr} (hc : kept c) (hc' : kept c')
    (hchain : chain bos coordOf c = chain bos coordOf c') : coordOf c = coordOf c' := by
  rw [h.chain_eq hc, h.chain_eq hc', List.cons.injEq] at hchain
  exact hchain.1

/-- In one boundary chains are told apart by their ids and lengths. -/
theorem chain_eq_of_data {c c' : ConnectionPtr} (hc : kept c) (hc' : kept c')
    (hboundary : c.boundary = c'.boundary)
    (hdata : (chain bos coordOf c).map (fun x => (x.rnnId, x.length)) =
      (chain bos coordOf c').map fun x => (x.rnnId, x.length)) :
    chain bos coordOf c = chain bos coordOf c' := by
  induction c generalizing c' with
  | null => exact absurd rfl (h.ne_null _ hc)
  | conn b l r m p ih =>
      have hlevel := h.level_boundary _ _ hc hc' hboundary
      have hcoordBoundary := h.boundary_eq _ hc
      have hcoordBoundary' := h.boundary_eq _ hc'
      rw [h.chain_eq hc, h.chain_eq hc'] at hdata ⊢
      rw [List.map_cons, List.map_cons, List.cons.injEq, Prod.mk.injEq] at hdata
      obtain ⟨⟨hid, hlength⟩, hrest⟩ := hdata
      have hcoord : coordOf (.conn b l r m p) = coordOf c' := by
        generalize coordOf (.conn b l r m p) = x at *
        generalize coordOf c' = x' at *
        cases x
        cases x'
        simp_all
      rw [hcoord]
      congr 1
      -- the chains before are both empty or both not
      rcases h.previous _ hc with hbos | hprev <;> rcases h.previous _ hc' with hbos' | hprev'
      · rw [hbos, hbos']
      · rw [hbos, h.chain_bos, h.chain_eq hprev'] at hrest
        cases hrest
      · rw [hbos', h.chain_bos, h.chain_eq hprev] at hrest
        cases hrest
      · have hfollows := h.follows _ hc hprev
        have hfollows' := h.follows _ hc' hprev'
        have hlengthPrev : (coordOf p).length = (coordOf c'.previous).length := by
          have hrest' := hrest
          rw [h.chain_eq hprev, h.chain_eq hprev', List.map_cons, List.map_cons, List.cons.injEq,
            Prod.mk.injEq] at hrest'
          exact hrest'.1.2
        have hlevelPrev : level p = level c'.previous := by
          have hp : (ConnectionPtr.conn b l r m p).previous = p := rfl
          rw [hp] at hfollows
          omega
        exact ih hprev hprev' (h.level_inj _ _ hprev hprev' hlevelPrev) hrest

theorem chain_eq_of_hash {c c' : ConnectionPtr} (hc : kept c) (hc' : kept c')
    (hboundary : c.boundary = c'.boundary)
    (hhash : chainHash (chain bos coordOf c) = chainHash (chain bos coordOf c')) :
    chain bos coordOf c = chain bos coordOf c' :=
  h.chain_eq_of_data hc hc' hboundary (h.hash_inj c c' hc hc' hhash)

theorem chain_ne_nil {c : ConnectionPtr} (hc : kept c) : chain bos coordOf c ≠ [] := by
  rw [h.chain_eq hc]
  exact List.cons_ne_nil _ _

theorem level_lt_of_mem {c x : ConnectionPtr} (hc : kept c)
    (hx : x ∈ connections bos c.previous) : kept x ∧ level x < level c := by
  induction c with
  | null => exact absurd rfl (h.ne_null _ hc)
  | conn b l r m p ih =>
      have hp : (ConnectionPtr.conn b l r m p).previous = p := rfl
      rw [hp] at hx
      rcases h.previous _ hc with hbos | hprev
      · rw [hp] at hbos
        rw [hbos] at hx
        cases hb : bos with
        | null => exact absurd hb h.bos_ne_null
        | conn b l r m p =>
            rw [hb] at hx
            unfold connections at hx
            rw [if_pos rfl] at hx
            cases hx
      · have hlt := h.level_lt _ hc hprev
        rw [hp] at hprev hlt
        rw [h.connections_eq hprev, List.mem_cons] at hx
        rcases hx with rfl | hx
        · exact ⟨hprev, hlt⟩
        · obtain ⟨hx, hlevel⟩ := ih hprev hx
          exact ⟨hx, by omega⟩

end Links

end Jumanpp.Core.Analysis.Rnn
