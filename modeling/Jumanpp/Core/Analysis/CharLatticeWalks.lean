import Jumanpp.Core.Analysis.CharLatticeMemory

/-!
# Walks over the lattice of characters

The frontier at a position has a state for each walk to it that the trie can follow, and the results
are the words of all walks so far.  Walks with equal flags to one node of the trie share a state.
-/

namespace Jumanpp.Core.Analysis.CharLattceTraversal

open Jumanpp.Lib Jumanpp.Util Jumanpp.Core.Dic

/-- A walk from `start` with the original character there: its end, the bytes taken, the flags,
whether some later character is replaced or deleted, and the flag of the last character. -/
inductive Walk (cl : CharLattice) (input : List InputCodepoint) (start : Nat) :
    Nat → List UInt8 → Modifiers → Bool → Modifiers → Prop
  | start : Walk cl input start (start + 1) (codepointAt input start).bytes Modifiers.ORIGINAL false
      Modifiers.ORIGINAL
  | original {p key flags altered last} (h : Walk cl input start p key flags altered last)
      (hp : p < input.length) :
      Walk cl input start (p + 1) (key ++ (codepointAt input p).bytes)
        (flags ||| Modifiers.ORIGINAL) altered Modifiers.ORIGINAL
  | replaced {p key flags altered last node} (h : Walk cl input start p key flags altered last)
      (hp : p < input.length) (hnode : node ∈ cl.nodesAt p)
      (htype : node.hasType Modifiers.DELETE = false) :
      Walk cl input start (p + 1) (key ++ node.cp.bytes) (flags ||| node.type) true node.type
  | deleted {p key flags altered last node} (h : Walk cl input start p key flags altered last)
      (hp : p < input.length) (hnode : node ∈ cl.nodesAt p)
      (htype : node.hasType Modifiers.DELETE = true) :
      Walk cl input start (p + 1) key (flags ||| node.type) true node.type

/-- The key after one more character. -/
def Offer.keyAfter (offer : Offer) (key : List UInt8) : List UInt8 :=
  if offer.doStep then key ++ offer.cp.bytes else key

section Walks

variable {cl : CharLattice} {input : List InputCodepoint} {start : Nat}
  {p : Nat} {key : List UInt8} {flags last : Modifiers} {altered : Bool}

theorem Walk.offer (h : Walk cl input start p key flags altered last) (hp : p < input.length)
    {offer : Offer} (hoffer : offer ∈ offersAt cl input p) :
    ∃ altered', Walk cl input start (p + 1) (offer.keyAfter key) (flags ||| offer.flag) altered'
      offer.flag := by
  obtain rfl | hoffer := List.mem_cons.mp hoffer
  · exact ⟨altered, h.original hp⟩
  · obtain ⟨node, hnode, rfl⟩ := List.mem_map.mp hoffer
    cases htype : node.hasType Modifiers.DELETE with
    | false => exact ⟨true, by simpa [Offer.keyAfter, htype] using h.replaced hp hnode htype⟩
    | true => exact ⟨true, by simpa [Offer.keyAfter, htype] using h.deleted hp hnode htype⟩

/-- The last character of a longer walk is one of the offers. -/
theorem Walk.exists_offer {key' : List UInt8} {flags' last' : Modifiers} {altered' : Bool}
    (h : Walk cl input start (p + 1) key' flags' altered' last') (hp : start + 1 ≤ p) :
    ∃ key flags altered last, Walk cl input start p key flags altered last ∧
      ∃ offer ∈ offersAt cl input p, key' = offer.keyAfter key ∧ flags' = flags ||| offer.flag ∧
        last' = offer.flag := by
  cases h with
  | start => omega
  | original h hlt => exact ⟨_, _, _, _, h, _, List.mem_cons_self, rfl, rfl, rfl⟩
  | @replaced _ _ _ _ _ node h hlt hnode htype =>
      refine ⟨_, _, _, _, h, ⟨node.cp, node.type, !node.hasType Modifiers.DELETE⟩,
        List.mem_cons_of_mem _ (List.mem_map_of_mem hnode), ?_, rfl, rfl⟩
      simp [Offer.keyAfter, htype]
  | @deleted _ _ _ _ _ node h hlt hnode htype =>
      refine ⟨_, _, _, _, h, ⟨node.cp, node.type, !node.hasType Modifiers.DELETE⟩,
        List.mem_cons_of_mem _ (List.mem_map_of_mem hnode), ?_, rfl, rfl⟩
      simp [Offer.keyAfter, htype]

theorem Walk.bounds (h : Walk cl input start p key flags altered last)
    (hstart : start < input.length) : start + 1 ≤ p ∧ p ≤ input.length := by
  induction h <;> omega

/-- A walk begins with the original character. -/
theorem Walk.exists_rest (h : Walk cl input start p key flags altered last) :
    ∃ rest, key = (codepointAt input start).bytes ++ rest := by
  induction h with
  | start => exact ⟨[], (List.append_nil _).symm⟩
  | original h hp ih =>
      obtain ⟨rest, rfl⟩ := ih
      exact ⟨_, List.append_assoc _ _ _⟩
  | replaced h hp hnode htype ih =>
      obtain ⟨rest, rfl⟩ := ih
      exact ⟨_, List.append_assoc _ _ _⟩
  | deleted h hp hnode htype ih => exact ih

/-- Replacements and deletions have flags of their own. -/
def Marked (cl : CharLattice) : Prop :=
  ∀ p, ∀ node ∈ cl.nodesAt p, node.type &&& ~~~Modifiers.ORIGINAL ≠ 0

theorem or_marked {a b : Modifiers} (h : a &&& ~~~Modifiers.ORIGINAL ≠ 0 ∨
    b &&& ~~~Modifiers.ORIGINAL ≠ 0) : (a ||| b) &&& ~~~Modifiers.ORIGINAL ≠ 0 := by
  rw [BitVec.and_or_distrib_right]
  intro hzero
  obtain ⟨ha, hb⟩ := BitVec.or_eq_zero_iff.mp hzero
  obtain h | h := h
  · exact h ha
  · exact h hb

theorem Walk.marked (hmarked : Marked cl) (h : Walk cl input start p key flags altered last) :
    (altered = false → flags = Modifiers.ORIGINAL) ∧
      (altered = true → flags &&& ~~~Modifiers.ORIGINAL ≠ 0) := by
  induction h with
  | start => exact ⟨fun _ => rfl, fun h => nomatch h⟩
  | original h hp ih =>
      refine ⟨fun hnone => ?_, fun hsome => or_marked (.inl (ih.2 hsome))⟩
      rw [ih.1 hnone]
      rfl
  | replaced h hp hnode htype ih =>
      exact ⟨fun h => (nomatch h), fun _ => or_marked (.inr (hmarked _ _ hnode))⟩
  | deleted h hp hnode htype ih =>
      exact ⟨fun h => (nomatch h), fun _ => or_marked (.inr (hmarked _ _ hnode))⟩

theorem Walk.altered_iff (hmarked : Marked cl) (h : Walk cl input start p key flags altered last) :
    altered = true ↔ flags ≠ Modifiers.ORIGINAL := by
  obtain ⟨hfalse, htrue⟩ := h.marked hmarked
  constructor
  · rintro haltered rfl
    exact htrue haltered (by decide)
  · intro hne
    cases altered with
    | false => exact absurd (hfalse rfl) hne
    | true => rfl

end Walks

/-! ## The frontier -/

/-- A state that stands for the walks with a key and flags. -/
structure Represents (dic : DictionaryEntries) (s : TraverasalState) (key : List UInt8)
    (flags : Modifiers) : Prop where
  stands : Stands dic key s.traversal
  flags : s.allFlags = flags
  status : s.lastStatus = statusAt dic s.traversal.node_pos
  value : ∀ v, dic.leafValue s.traversal.node_pos = some v → s.traversal.value = v

theorem statusAt_ne_noNode {dic : DictionaryEntries} (node_pos : UInt32) :
    statusAt dic node_pos ≠ .NoNode := by
  unfold statusAt
  split <;> decide

section Step

variable {dic : DictionaryEntries} {s : TraverasalState} {key : List UInt8} {flags : Modifiers}
  {offer : Offer}

theorem Represents.walkState (h : Represents dic s key flags)
    (hviable : Viable dic (offer.keyAfter key)) :
    Represents dic (walkState dic s offer) (offer.keyAfter key) (flags ||| offer.flag) := by
  unfold CharLattceTraversal.walkState Offer.keyAfter at *
  cases hstep : offer.doStep with
  | false =>
      simp only [Bool.false_eq_true, ↓reduceIte]
      exact ⟨h.stands, by rw [h.flags], h.status, h.value⟩
  | true =>
      simp only [hstep, ↓reduceIte] at hviable ⊢
      obtain ⟨hstands, hstatus, hvalue⟩ := h.stands.step hviable
      exact ⟨hstands, by rw [h.flags], hstatus, hvalue⟩

theorem Represents.walkState_noNode (h : Represents dic s key flags)
    (hviable : ¬Viable dic (offer.keyAfter key)) :
    (CharLattceTraversal.walkState dic s offer).lastStatus = .NoNode := by
  unfold CharLattceTraversal.walkState Offer.keyAfter at *
  cases hstep : offer.doStep with
  | false =>
      simp only [hstep, Bool.false_eq_true, ↓reduceIte] at hviable
      exact absurd h.stands.viable hviable
  | true =>
      simp only [hstep, ↓reduceIte] at hviable ⊢
      exact h.stands.step_noNode hviable

/-- A state goes on if the trie can follow the longer walk. -/
theorem Represents.mem_nextStates (h : Represents dic s key flags) {s' : TraverasalState} :
    s' ∈ nextStates dic s offer ↔
      Viable dic (offer.keyAfter key) ∧ s' = CharLattceTraversal.walkState dic s offer := by
  unfold nextStates
  by_cases hviable : Viable dic (offer.keyAfter key)
  · have hstatus := (h.walkState hviable).status
    rw [if_neg (by rw [hstatus]; exact statusAt_ne_noNode _), List.mem_singleton]
    simp [hviable]
  · rw [if_pos (h.walkState_noNode hviable)]
    simp [hviable]

/-- The results are the entries of the longer walk. -/
theorem Represents.mem_nextResults (h : Represents dic s key flags) {r : CLResult} :
    r ∈ nextResults dic s offer ↔ flags ||| offer.flag ≠ Modifiers.ORIGINAL ∧
      ∃ ptr ∈ dic.entriesOf (offer.keyAfter key),
        r = ⟨ptr, resultFlags (flags ||| offer.flag) offer.flag, s.start, s.end_ + 1⟩ := by
  have hflags : (CharLattceTraversal.walkState dic s offer).allFlags = flags ||| offer.flag := by
    show s.allFlags ||| offer.flag = _
    rw [h.flags]
  have hentries : ∀ ptr, ptr ∈ dic.entriesOf (offer.keyAfter key) ↔
      (CharLattceTraversal.walkState dic s offer).lastStatus = .Ok ∧
        ptr ∈ dic.entryTraversal (CharLattceTraversal.walkState dic s offer).traversal := by
    intro ptr
    by_cases hviable : Viable dic (offer.keyAfter key)
    · have hnext := h.walkState hviable
      rw [hnext.stands.entriesOf hnext.value, hnext.status]
      simp
    · rw [h.walkState_noNode hviable]
      constructor
      · exact fun hmem => absurd (viable_of_mem_entriesOf hmem) hviable
      · rintro ⟨hok, -⟩
        cases hok
  unfold nextResults
  simp only [hentries, hflags]
  split
  next hcond =>
    rw [List.mem_map]
    constructor
    · rintro ⟨ptr, hptr, rfl⟩
      exact ⟨hcond.2, ptr, ⟨hcond.1, hptr⟩, rfl⟩
    · rintro ⟨-, ptr, ⟨-, hptr⟩, rfl⟩
      exact ⟨ptr, hptr, rfl⟩
  next hcond =>
    constructor
    · exact fun hmem => nomatch hmem
    · rintro ⟨hne, ptr, ⟨hok, -⟩, -⟩
      exact absurd ⟨hok, hne⟩ hcond

end Step

end Jumanpp.Core.Analysis.CharLattceTraversal
