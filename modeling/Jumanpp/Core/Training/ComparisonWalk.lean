import Jumanpp.Core.Training.Comparison

/-!
# The comparison holds both paths

Between two turns some nodes of both paths are merged and the others start behind them; a turn takes
the node that starts first, or a pair.
-/

namespace Jumanpp.Core.Training

open Jumanpp.Lib Jumanpp.Core.Analysis

namespace Comparison

/-! ## The walk -/

section Worst

variable {W : Type} [Zero W] [One W] [Neg W] [Add W] [LT W] [DecidableLT W]
  {lattice : ScoredLattice} {specFlds : List (TrainingField W)} {p : PathCursor} {c : Nat}
  {t : ConnectionBeamElement}

/-- What the fields that differ weigh together. -/
def mismatchWeight (lattice : ScoredLattice) (specFlds : List (TrainingField W))
    (g : LatticeNodePtr) (t : ConnectionBeamElement) : W :=
  (mismatches specFlds (lattice.entryData t.ptr.latticeNodePtr) (lattice.entryData g)).2

omit [One W] [Neg W] in
/-- The loop over the one node of a chunk. -/
theorem findWorstFrom_eq (h : p.At c) (hc : p.elems_.reverse[c]? = some t) (goldPos turns : Nat)
    (worst : Worst W) :
    findWorstFrom lattice specFlds t.ptr.boundary goldPos (turns + 2) worst p =
      let found := mismatches specFlds (lattice.entryData t.ptr.latticeNodePtr)
        (lattice.entryData ⟨t.ptr.boundary, goldPos⟩)
      .ok (if worst.maxMismatchWeight < found.2 then ⟨found.1, found.2, some t⟩ else worst,
        { p with currentNode_ := 1 }) := by
  rw [findWorstFrom, h.nextBeamPtr hc]
  simp only [ok_bind]
  rw [findWorstFrom, h.nextBeamPtr_end (PathCursor.lt_length_of_getElem? hc)]
  rfl

theorem findWorstTopNode_eq (h : p.At c) (hc : p.elems_.reverse[c]? = some t) {g : LatticeNodePtr}
    (hg : g.boundary = t.ptr.boundary) :
    findWorstTopNode lattice specFlds g.position p =
      .ok (if -1 < mismatchWeight lattice specFlds g t then
          some (t.ptr.boundary, t,
            ⟨(mismatches specFlds (lattice.entryData t.ptr.latticeNodePtr) (lattice.entryData g)).1,
              mismatchWeight lattice specFlds g t, some t⟩)
        else none, { p with currentNode_ := 1 }) := by
  have hlt := PathCursor.lt_length_of_getElem? hc
  have hnode : (⟨t.ptr.boundary, g.position⟩ : LatticeNodePtr) = g := by rw [← hg]
  obtain ⟨turns, hturns⟩ : ∃ k, p.elems_.length + 1 = k + 2 := ⟨p.elems_.length - 1, by omega⟩
  unfold findWorstTopNode
  rw [h.currentBoundary hc, ok_bind, hturns, findWorstFrom_eq h hc, hnode]
  simp only [ok_bind]
  unfold mismatchWeight
  split
  · rfl
  · rfl

end Worst

section Walk

variable {W : Type} {lattice : ScoredLattice} {gold : List LatticeNodePtr}
  {goldScores : List Score} {t : ConnectionBeamElement}

theorem goldScoreAt_ok {i : Nat} (h : i < goldScores.length) :
    ∃ score, goldScoreAt goldScores i = .ok score := by
  unfold goldScoreAt
  rw [List.getElem?_eq_getElem h]
  exact ⟨_, rfl⟩

theorem isGoldStillInBeam_ok {i : Nat} (h : i ≤ gold.length) (beam : List ConnectionBeamElement) :
    ∃ b, isGoldStillInBeam gold beam i = .ok b := by
  unfold isGoldStillInBeam
  by_cases hi : i = 0
  · rw [if_pos hi]
    exact ⟨true, rfl⟩
  · rw [if_neg hi, List.getElem?_eq_getElem (show i - 1 < gold.length by omega)]
    exact ⟨_, rfl⟩

/-- Between two turns: the nodes in `g1` and `t1` are merged, those in `g2` and `t2` start behind. -/
structure Between (gold : List LatticeNodePtr) (elems : List ConnectionBeamElement)
    (g1 g2 : List LatticeNodePtr) (t1 t2 : List ConnectionBeamElement) (st : State W) : Prop where
  gold : gold = g1 ++ g2
  top : elems.reverse = t1 ++ t2
  curGold : st.curGold = g1.length
  path : st.top1.elems_ = elems
  cursor : st.top1.At t1.length
  hasNextTop : st.hasNextTop = decide (t1.length < elems.length)
  merges : Merges g1 t1 st.comparison
  goldAfter : ∀ s ∈ st.comparison, ∀ g ∈ g2, s.boundary < g.boundary
  topAfter : ∀ s ∈ st.comparison, ∀ t ∈ t2, s.boundary < t.ptr.boundary

variable {elems t1 t2 : List ConnectionBeamElement} {g1 g2 : List LatticeNodePtr} {st : State W}
  {g : LatticeNodePtr} {eosPos : Nat}

theorem Between.getElem?_top (h : Between gold elems g1 g2 t1 (t :: t2) st) :
    st.top1.elems_.reverse[t1.length]? = some t := by
  rw [h.path, h.top, List.getElem?_append_right (Nat.le_refl _), Nat.sub_self]
  rfl

theorem Between.getElem?_gold (h : Between gold elems g1 (g :: g2) t1 t2 st) :
    gold[st.curGold]? = some g := by
  rw [h.gold, h.curGold, List.getElem?_append_right (Nat.le_refl _), Nat.sub_self]
  rfl

theorem Between.hasNextTop_iff (h : Between gold elems g1 g2 t1 t2 st) :
    st.hasNextTop = true ↔ t2 ≠ [] := by
  have hlength := congrArg List.length h.top
  rw [List.length_reverse, List.length_append] at hlength
  rw [h.hasNextTop, decide_eq_true_eq, ← List.length_pos_iff]
  omega

theorem Between.nextBoundary (h : Between gold elems g1 g2 t1 (t :: t2) st) (node : Int) :
    PathCursor.nextBoundary { st.top1 with currentNode_ := node } =
      .ok (decide ((t1 ++ [t]).length < elems.length), st.top1.behind (t1 ++ [t]).length) := by
  have hnext := @PathCursor.nextBoundary_eq { st.top1 with currentNode_ := node } t1.length
    h.cursor.offsets h.cursor.chunk
  rw [hnext, List.length_append, List.length_singleton, ← h.path]
  rfl

/-- What a step keeps that takes `golds` and `tops` from the paths. -/
theorem Between.step {golds : List LatticeNodePtr} {tops : List ConnectionBeamElement}
    (h : Between gold elems g1 (golds ++ g2) t1 (tops ++ t2) st) {step : ComparisonStep W}
    {st' : State W} (hgold : step.goldNode.toList = golds) (htop : step.topNode.toList = tops)
    (hlt : ∀ s ∈ st.comparison, s.boundary < step.boundary)
    (htopPtr : step.cmpClass ≠ .GoldOnly →
      ∃ t, step.topPtr = some t ∧ t.ptr.boundary = step.boundary)
    (hgolds : ∀ g ∈ g2, step.boundary < g.boundary)
    (htops : ∀ t ∈ t2, step.boundary < t.ptr.boundary)
    (hcomparison : st'.comparison = st.comparison ++ [step])
    (hcurGold : st'.curGold = (g1 ++ golds).length)
    (htop1 : st'.top1 = st.top1.behind (t1 ++ tops).length)
    (hhasNextTop : st'.hasNextTop = decide ((t1 ++ tops).length < elems.length)) :
    Between gold elems (g1 ++ golds) g2 (t1 ++ tops) t2 st' := by
  refine ⟨?_, ?_, hcurGold, by rw [htop1]; exact h.path,
    by rw [htop1]; exact ⟨h.cursor.offsets, rfl, rfl⟩, hhasNextTop, ?_, ?_, ?_⟩
  · rw [h.gold, List.append_assoc]
  · rw [h.top, List.append_assoc]
  · rw [hcomparison, ← hgold, ← htop]
    exact h.merges.append hlt htopPtr
  · rw [hcomparison]
    intro s hs g hg
    rcases List.mem_append.mp hs with hs | hs
    · exact h.goldAfter s hs g (List.mem_append_right _ hg)
    · rw [List.mem_singleton.mp hs]
      exact hgolds g hg
  · rw [hcomparison]
    intro s hs t ht
    rcases List.mem_append.mp hs with hs | hs
    · exact h.topAfter s hs t (List.mem_append_right _ ht)
    · rw [List.mem_singleton.mp hs]
      exact htops t ht

variable {eosPos : Nat}

theorem Between.goldPtr (h : Between gold elems g1 (g :: g2) t1 t2 st) :
    gold.getD st.curGold ⟨eosPos, 0⟩ = g := by
  rw [List.getD_eq_getElem?_getD, h.getElem?_gold]
  rfl

theorem Between.goldPtr_nil (h : Between gold elems g1 [] t1 t2 st) :
    gold.getD st.curGold ⟨eosPos, 0⟩ = ⟨eosPos, 0⟩ := by
  have hgold := h.gold
  rw [List.append_nil] at hgold
  rw [List.getD_eq_default _ _ (by rw [hgold, h.curGold])]

theorem Between.topBoundary (h : Between gold elems g1 g2 t1 (t :: t2) st) :
    Comparison.topBoundary eosPos st = .ok t.ptr.boundary := by
  rw [Comparison.topBoundary, if_pos (h.hasNextTop_iff.mpr (List.cons_ne_nil _ _)),
    h.cursor.currentBoundary h.getElem?_top]

theorem Between.topBoundary_nil (h : Between gold elems g1 g2 t1 [] st) :
    Comparison.topBoundary eosPos st = .ok eosPos := by
  rw [Comparison.topBoundary, if_neg (fun hnext => h.hasNextTop_iff.mp hnext rfl)]

end Walk

section Turns

variable {W : Type} [Zero W] [One W] [Neg W] [Add W] [LT W] [DecidableLT W]
  {lattice : ScoredLattice} {specFlds : List (TrainingField W)} {gold : List LatticeNodePtr}
  {goldScores : List Score} {elems t1 t2 : List ConnectionBeamElement}
  {g1 g2 : List LatticeNodePtr} {st : State W} {g : LatticeNodePtr} {t : ConnectionBeamElement}
  {eosPos : Nat}

theorem goldNode_eq {b : Nat} (h : g.boundary = b) :
    (⟨b, (g.position : Int).toNat⟩ : LatticeNodePtr) = g := by
  rw [← h, Int.toNat_natCast]

/-- Both paths have a node at the boundary. -/
theorem Between.bothTurn (h : Between gold elems g1 (g :: g2) t1 (t :: t2) st)
    (hscores : goldScores.length = gold.length + 1) (heq : g.boundary = t.ptr.boundary)
    (hg2 : ∀ g' ∈ g2, g.boundary < g'.boundary)
    (ht2 : ∀ t' ∈ t2, t.ptr.boundary < t'.ptr.boundary) :
    (-1 < mismatchWeight lattice specFlds g t → ∃ st',
      turn lattice specFlds gold goldScores eosPos st = .ok st' ∧
        Between gold elems (g1 ++ [g]) g2 (t1 ++ [t]) t2 st') ∧
    (¬ -1 < mismatchWeight lattice specFlds g t → ∃ e,
      turn lattice specFlds gold goldScores eosPos st = .error e) := by
  have hlength := congrArg List.length h.gold
  rw [List.length_append, List.length_cons] at hlength
  have hcur := h.curGold
  have hturn : turn lattice specFlds gold goldScores eosPos st =
      Comparison.bothTurn lattice specFlds gold goldScores t.ptr.boundary g st := by
    unfold turn
    rw [h.goldPtr, h.topBoundary, ok_bind, if_pos heq]
  rw [hturn]
  unfold Comparison.bothTurn
  rw [findWorstTopNode_eq h.cursor h.getElem?_top heq]
  constructor
  · intro hgood
    obtain ⟨score, hscore⟩ := @goldScoreAt_ok goldScores st.curGold (by omega)
    obtain ⟨inBeam, hinBeam⟩ := @isGoldStillInBeam_ok gold st.curGold (by omega)
      (beamAt lattice.beams ⟨t.ptr.boundary, g.position⟩)
    simp only [if_pos hgood, ok_bind, hscore, hinBeam, h.nextBoundary]
    refine ⟨_, rfl, @Between.step _ gold elems t1 t2 g1 g2 st [g] [t] h _ _ ?_ ?_ ?_ ?_ ?_ ?_ rfl ?_
      rfl rfl⟩
    · exact congrArg (fun g => [g]) (goldNode_eq heq)
    · rfl
    · exact fun s hs => h.topAfter s hs t List.mem_cons_self
    · exact fun _ => ⟨t, rfl, rfl⟩
    · intro g' hg'
      rw [← heq]
      exact hg2 g' hg'
    · exact ht2
    · show st.curGold + 1 = (g1 ++ [g]).length
      rw [List.length_append, List.length_singleton, hcur]
  · intro hbad
    simp only [if_neg hbad, ok_bind]
    exact ⟨_, rfl⟩

/-- Only the best path has a node at the boundary. -/
theorem Between.topTurn (h : Between gold elems g1 g2 t1 (t :: t2) st) (heos : t.ptr.boundary < eosPos)
    (hg2 : ∀ g ∈ g2, t.ptr.boundary < g.boundary)
    (ht2 : ∀ t' ∈ t2, t.ptr.boundary < t'.ptr.boundary) :
    ∃ st', turn lattice specFlds gold goldScores eosPos st = .ok st' ∧
      Between gold elems g1 g2 (t1 ++ [t]) t2 st' := by
  have hgoldPtr : t.ptr.boundary < (gold.getD st.curGold ⟨eosPos, 0⟩).boundary := by
    cases g2 with
    | nil =>
      rw [h.goldPtr_nil]
      exact heos
    | cons g g2 =>
      rw [h.goldPtr]
      exact hg2 g List.mem_cons_self
  unfold turn
  simp only [h.topBoundary, ok_bind]
  rw [if_neg (Nat.ne_of_gt hgoldPtr), if_pos hgoldPtr, Comparison.topTurn,
    h.cursor.nextBeamPtr h.getElem?_top]
  simp only [ok_bind, h.nextBoundary]
  refine ⟨_, rfl, ?_⟩
  have hstep := @Between.step _ gold elems t1 t2 g1 g2 st [] [t] h
    ⟨.TopOnly, st.goldScore, t.totalScore - st.goldScore, 0, 0, t.ptr.boundary, some t, -1, -1, false⟩
    ⟨decide ((t1 ++ [t]).length < elems.length), st.top1.behind (t1 ++ [t]).length, st.curGold,
      st.goldScore, _⟩
    rfl rfl (fun s hs => h.topAfter s hs t List.mem_cons_self) (fun _ => ⟨t, rfl, rfl⟩) hg2 ht2 rfl
    (by rw [List.append_nil]; exact h.curGold) rfl rfl
  rw [List.append_nil] at hstep
  exact hstep

/-- Only the gold path has a node at the boundary. -/
theorem Between.goldTurn (h : Between gold elems g1 (g :: g2) t1 t2 st)
    (hscores : goldScores.length = gold.length + 1) (heos : g.boundary < eosPos)
    (hg2 : ∀ g' ∈ g2, g.boundary < g'.boundary)
    (ht2 : ∀ t ∈ t2, g.boundary < t.ptr.boundary) :
    ∃ st', turn lattice specFlds gold goldScores eosPos st = .ok st' ∧
      Between gold elems (g1 ++ [g]) g2 t1 t2 st' := by
  have hlength := congrArg List.length h.gold
  rw [List.length_append, List.length_cons] at hlength
  have hcur := h.curGold
  obtain ⟨b, htop, hlt⟩ : ∃ b, Comparison.topBoundary eosPos st = .ok b ∧ g.boundary < b := by
    cases t2 with
    | nil => exact ⟨eosPos, h.topBoundary_nil, heos⟩
    | cons t t2 => exact ⟨_, h.topBoundary, ht2 t List.mem_cons_self⟩
  obtain ⟨score, hscore⟩ := @goldScoreAt_ok goldScores st.curGold (by omega)
  obtain ⟨inBeam, hinBeam⟩ := @isGoldStillInBeam_ok gold st.curGold (by omega)
    (beamAt lattice.beams g)
  unfold turn
  simp only [h.goldPtr, htop, ok_bind]
  rw [if_neg (Nat.ne_of_lt hlt), if_neg (Nat.lt_asymm hlt), Comparison.goldTurn, h.getElem?_gold]
  simp only [ok_bind, hscore, hinBeam]
  refine ⟨_, rfl, ?_⟩
  have hself : st.top1 = st.top1.behind t1.length := by
    rw [PathCursor.behind, ← h.cursor.chunk, ← h.cursor.node]
  have hstep := @Between.step _ gold elems t1 t2 g1 g2 st [g] [] h
    ⟨.GoldOnly, score, 0, 0, 0, g.boundary, none, g.position, st.curGold, inBeam⟩
    ⟨st.hasNextTop, st.top1, st.curGold + 1, score, _⟩
    (congrArg (fun g => [g]) (goldNode_eq rfl)) rfl
    (fun s hs => h.goldAfter s hs g List.mem_cons_self) (fun hgold => absurd rfl hgold) hg2 ht2 rfl
    (by rw [List.length_append, List.length_singleton, ← h.curGold])
    (by rw [List.append_nil]; exact hself) (by rw [List.append_nil]; exact h.hasNextTop)
  rw [List.append_nil] at hstep
  exact hstep

/-- Before the nodes in `g2` and `t2` the loop ends with all nodes merged, unless two of them that start
at one boundary weigh too little. -/
structure RunsTo (lattice : ScoredLattice) (specFlds : List (TrainingField W))
    (gold : List LatticeNodePtr) (goldScores : List Score) (elems : List ConnectionBeamElement)
    (eosPos fuel : Nat) (g2 : List LatticeNodePtr) (t2 : List ConnectionBeamElement)
    (st : State W) : Prop where
  ok : (∀ g ∈ g2, ∀ t ∈ t2, g.boundary = t.ptr.boundary → -1 < mismatchWeight lattice specFlds g t) →
    ∃ st', turns lattice specFlds gold goldScores eosPos fuel st = .ok st' ∧
      Between gold elems gold [] elems.reverse [] st'
  error : (∃ g ∈ g2, ∃ t ∈ t2, g.boundary = t.ptr.boundary ∧
    ¬ -1 < mismatchWeight lattice specFlds g t) →
      ∃ e, turns lattice specFlds gold goldScores eosPos fuel st = .error e

/-- A turn that takes nodes from the paths, which weigh enough if they are a pair. -/
theorem RunsTo.of_turn {g2' : List LatticeNodePtr} {t2' : List ConnectionBeamElement} {fuel : Nat}
    {st' : State W} (hnext : st.hasNextTop = true ∨ st.curGold < gold.length)
    (hturn : turn lattice specFlds gold goldScores eosPos st = .ok st')
    (h : RunsTo lattice specFlds gold goldScores elems eosPos fuel g2' t2' st') (hg2' : g2' ⊆ g2)
    (ht2' : t2' ⊆ t2) (hpairs : ∀ g ∈ g2, ∀ t ∈ t2, g.boundary = t.ptr.boundary →
      -1 < mismatchWeight lattice specFlds g t ∨ g ∈ g2' ∧ t ∈ t2') :
    RunsTo lattice specFlds gold goldScores elems eosPos (fuel + 1) g2 t2 st := by
  have hrun : turns lattice specFlds gold goldScores eosPos (fuel + 1) st =
      turns lattice specFlds gold goldScores eosPos fuel st' := by
    rw [turns, if_pos hnext, hturn, ok_bind]
  constructor
  · intro hall
    rw [hrun]
    exact h.ok fun g hg t ht => hall g (hg2' hg) t (ht2' ht)
  · rintro ⟨g, hg, t, ht, heq, hlow⟩
    rw [hrun]
    rcases hpairs g hg t ht heq with hgood | ⟨hg', ht'⟩
    · exact absurd hgood hlow
    · exact h.error ⟨g, hg', t, ht', heq, hlow⟩

variable (hscores : goldScores.length = gold.length + 1)
  (hgolds : gold.Pairwise fun g g' => g.boundary < g'.boundary)
  (hgoldsEos : ∀ g ∈ gold, g.boundary < eosPos)
  (htops : elems.reverse.Pairwise fun t t' => t.ptr.boundary < t'.ptr.boundary)
  (htopsEos : ∀ t ∈ elems, t.ptr.boundary < eosPos)

include hscores hgolds hgoldsEos htops htopsEos

/-- By induction on the turns; every turn takes a node from one of the paths. -/
theorem runsTo : ∀ (fuel : Nat) {g1 g2 : List LatticeNodePtr}
    {t1 t2 : List ConnectionBeamElement} {st : State W}, g2.length + t2.length < fuel →
    Between gold elems g1 g2 t1 t2 st →
      RunsTo lattice specFlds gold goldScores elems eosPos fuel g2 t2 st
  | 0, _, _, _, _, _, hfuel, _ => absurd hfuel (Nat.not_lt_zero _)
  | fuel + 1, g1, g2, t1, t2, st, hfuel, h => by
    have hg := h.gold ▸ hgolds
    have ht := h.top ▸ htops
    rw [List.pairwise_append] at hg ht
    have hgEos : ∀ g ∈ g2, g.boundary < eosPos := fun g hmem =>
      hgoldsEos g (h.gold ▸ List.mem_append_right _ hmem)
    have htEos : ∀ t ∈ t2, t.ptr.boundary < eosPos := fun t hmem =>
      htopsEos t (List.mem_reverse.mp (h.top ▸ List.mem_append_right _ hmem))
    have hlength := congrArg List.length h.gold
    rw [List.length_append] at hlength
    have hcur := h.curGold
    have hgoldNext : g2 ≠ [] → st.hasNextTop = true ∨ st.curGold < gold.length := fun hne => by
      have hpos := List.length_pos_iff.mpr hne
      exact .inr (by omega)
    have htopNext : t2 ≠ [] → st.hasNextTop = true ∨ st.curGold < gold.length := fun hne =>
      .inl (h.hasNextTop_iff.mpr hne)
    -- a node of the best path that starts before all gold nodes
    have htopOnly : ∀ t t2', t2 = t :: t2' → (∀ g ∈ g2, t.ptr.boundary < g.boundary) →
        RunsTo lattice specFlds gold goldScores elems eosPos (fuel + 1) g2 t2 st := by
      rintro t t2' rfl hlt
      have ht2 := (List.pairwise_cons.mp ht.2.1).1
      obtain ⟨st', hturn, h'⟩ := @Between.topTurn _ _ _ _ _ _ _ lattice specFlds gold goldScores _ _ _
        _ _ _ _ eosPos h (htEos t List.mem_cons_self) hlt ht2
      rw [List.length_cons] at hfuel
      refine .of_turn (htopNext (List.cons_ne_nil _ _)) hturn (runsTo fuel (by omega) h')
        (List.Subset.refl _) (List.subset_cons_self _ _) ?_
      intro g hg t' ht' heq
      rcases List.mem_cons.mp ht' with rfl | ht'
      · exact absurd heq (Nat.ne_of_gt (hlt g hg))
      · exact .inr ⟨hg, ht'⟩
    -- a gold node that starts before all nodes of the best path
    have hgoldOnly : ∀ g g2', g2 = g :: g2' → (∀ t ∈ t2, g.boundary < t.ptr.boundary) →
        RunsTo lattice specFlds gold goldScores elems eosPos (fuel + 1) g2 t2 st := by
      rintro g g2' rfl hlt
      have hg2 := (List.pairwise_cons.mp hg.2.1).1
      obtain ⟨st', hturn, h'⟩ := @Between.goldTurn _ _ _ _ _ _ _ lattice specFlds gold goldScores _ _ _
        _ _ _ _ eosPos h hscores (hgEos g List.mem_cons_self) hg2 hlt
      rw [List.length_cons] at hfuel
      refine .of_turn (hgoldNext (List.cons_ne_nil _ _)) hturn (runsTo fuel (by omega) h')
        (List.subset_cons_self _ _) (List.Subset.refl _) ?_
      intro g' hg' t ht heq
      rcases List.mem_cons.mp hg' with rfl | hg'
      · exact absurd heq (Nat.ne_of_lt (hlt t ht))
      · exact .inr ⟨hg', ht⟩
    cases g2 with
    | nil =>
      cases t2 with
      | nil =>
        have hstop : ¬ (st.hasNextTop = true ∨ st.curGold < gold.length) := by
          rintro (hnext | hlt)
          · exact h.hasNextTop_iff.mp hnext rfl
          · rw [List.length_nil] at hlength
            omega
        constructor
        · intro _
          refine ⟨st, by rw [turns, if_neg hstop], ?_⟩
          have hg1 := h.gold
          have ht1 := h.top
          rw [List.append_nil] at hg1 ht1
          rw [ht1]
          exact hg1 ▸ h
        · rintro ⟨g, hg, -⟩
          exact absurd hg List.not_mem_nil
      | cons t t2 => exact htopOnly t t2 rfl fun g hg => absurd hg List.not_mem_nil
    | cons g g2 =>
      cases t2 with
      | nil => exact hgoldOnly g g2 rfl fun t ht => absurd ht List.not_mem_nil
      | cons t t2 =>
        have hg2 := (List.pairwise_cons.mp hg.2.1).1
        have ht2 := (List.pairwise_cons.mp ht.2.1).1
        rcases Nat.lt_trichotomy g.boundary t.ptr.boundary with hlt | heq | hlt
        · apply hgoldOnly g g2 rfl
          intro t' ht'
          rcases List.mem_cons.mp ht' with rfl | ht'
          · exact hlt
          · exact Nat.lt_trans hlt (ht2 t' ht')
        · have hboth := @Between.bothTurn _ _ _ _ _ _ _ lattice specFlds gold goldScores _ _ _ _ _ _ _
            _ eosPos h hscores heq hg2 ht2
          by_cases hgood : -1 < mismatchWeight lattice specFlds g t
          · obtain ⟨st', hturn, h'⟩ := hboth.1 hgood
            rw [List.length_cons, List.length_cons] at hfuel
            refine .of_turn (hgoldNext (List.cons_ne_nil _ _)) hturn (runsTo fuel (by omega) h')
              (List.subset_cons_self _ _) (List.subset_cons_self _ _) ?_
            intro g' hg' t' ht' heq'
            rcases List.mem_cons.mp hg' with rfl | hg'
            · rcases List.mem_cons.mp ht' with rfl | ht'
              · exact .inl hgood
              · have hlt := ht2 t' ht'
                omega
            · rcases List.mem_cons.mp ht' with rfl | ht'
              · have hlt := hg2 g' hg'
                omega
              · exact .inr ⟨hg', ht'⟩
          · obtain ⟨e, herror⟩ := hboth.2 hgood
            constructor
            · intro hall
              exact absurd (hall g List.mem_cons_self t List.mem_cons_self heq) hgood
            · intro _
              refine ⟨e, ?_⟩
              rw [turns, if_pos (hgoldNext (List.cons_ne_nil _ _)), herror, error_bind]
        · apply htopOnly t t2 rfl
          intro g' hg'
          rcases List.mem_cons.mp hg' with rfl | hg'
          · exact hlt
          · exact Nat.lt_trans hlt (hg2 g' hg')

end Turns

/-! ## Paths that tile the input -/

/-- The nodes cover the input of `n` code points; `infoAt` are the nodes of the lattice. -/
def TilesBy (infoAt : LatticeNodePtr → Option NodeInfo) (n : Nat) (nodes : List LatticeNodePtr) :
    Prop :=
  ∃ infos, List.Forall₂ (fun ptr info => infoAt ptr = some info ∧ ptr.boundary = info.start + 2)
    nodes infos ∧ Tiles 0 infos n

theorem tiles_le : ∀ {infos : List NodeInfo} {first last : Nat}, Tiles first infos last → first ≤ last
  | [], _, _, h => Nat.le_of_eq h
  | info :: infos, _, _, ⟨hstart, hlt, hrest⟩ => by
    have hle := tiles_le hrest
    omega

/-- By induction on the nodes. -/
theorem boundaries_of_tiles {infoAt : LatticeNodePtr → Option NodeInfo} {nodes : List LatticeNodePtr}
    {infos : List NodeInfo} (h : List.Forall₂ (fun ptr info => infoAt ptr = some info ∧
      ptr.boundary = info.start + 2) nodes infos) : ∀ {first n : Nat}, Tiles first infos n →
        nodes.Pairwise (fun g g' => g.boundary < g'.boundary) ∧
          ∀ g ∈ nodes, first + 2 ≤ g.boundary ∧ g.boundary < n + 2 := by
  induction h with
  | nil => exact fun _ => ⟨.nil, fun g hg => absurd hg List.not_mem_nil⟩
  | @cons ptr info nodes infos hptr _ ih =>
    rintro first n ⟨hstart, hlt, hrest⟩
    obtain ⟨hpairwise, hinside⟩ := ih hrest
    have hle := tiles_le hrest
    constructor
    · refine List.pairwise_cons.mpr ⟨fun g hg => ?_, hpairwise⟩
      have hg := (hinside g hg).1
      omega
    · refine List.forall_mem_cons.mpr ⟨by omega, fun g hg => ?_⟩
      have hg := hinside g hg
      omega

/-- What is there before the comparison: both paths tile the input, the gold scores are computed, and
the best path is filled in, which leaves the cursor as it was when the input is empty. -/
structure Prepared (lattice : ScoredLattice) (infoAt : LatticeNodePtr → Option NodeInfo) (n : Nat)
    (gold : List LatticeNodePtr) (goldScores : List Score) (top1 : PathCursor) : Prop where
  count : lattice.createdBoundaryCount = n + 3
  fits : n + 2 < 2 ^ 16
  goldTiles : TilesBy infoAt n gold
  topTiles : TilesBy infoAt n (top1.elems_.reverse.map (·.ptr.latticeNodePtr))
  scores : goldScores.length = gold.length + 1
  filled : 0 < n → top1.offsets_ = List.range (top1.elems_.length + 1) ∧
    top1.currentChunk_ = some (-1)
  empty : n = 0 → top1.offsets_ = []
  eos : ∃ e, (beamAt lattice.beams ⟨n + 2, 0⟩)[0]? = some e ∧ e.ptr.boundary = n + 2

section Compared

variable {W : Type} [Zero W] [One W] [Neg W] [Add W] [LT W] [DecidableLT W]
  {lattice : ScoredLattice} {infoAt : LatticeNodePtr → Option NodeInfo} {n : Nat}
  {gold : List LatticeNodePtr} {goldScores : List Score} {top1 : PathCursor}

/-- The comparison holds both paths, and the pair of EOS at its end. -/
def Compared (lattice : ScoredLattice) (n : Nat) (gold : List LatticeNodePtr) (top1 : PathCursor)
    (r : Except Failure (List (ComparisonStep W))) : Prop :=
  ∃ (steps : List (ComparisonStep W)) (last : ComparisonStep W) (e : ConnectionBeamElement),
    r = .ok (steps ++ [last]) ∧ (beamAt lattice.beams ⟨n + 2, 0⟩)[0]? = some e ∧
      last.cmpClass = .Both ∧ last.goldNode = some ⟨n + 2, 0⟩ ∧ last.topNode = some e ∧
        Merges (gold ++ [⟨n + 2, 0⟩]) (top1.elems_.reverse ++ [e]) (steps ++ [last])

omit [One W] [Neg W] [Add W] [LT W] [DecidableLT W] in
theorem eosStep_compared (h : Prepared lattice infoAt n gold goldScores top1) {st : State W}
    (hcur : st.curGold = gold.length) (hmerges : Merges gold top1.elems_.reverse st.comparison)
    (hlt : ∀ s ∈ st.comparison, s.boundary < n + 2) :
    Compared lattice n gold top1 (eosStep lattice gold goldScores (n + 2) st >>= fun step =>
      pure (st.comparison ++ [step])) := by
  obtain ⟨e, he, hboundary⟩ := h.eos
  have hscores := h.scores
  obtain ⟨score, hscore⟩ := @goldScoreAt_ok goldScores st.curGold (by omega)
  obtain ⟨inBeam, hinBeam⟩ := @isGoldStillInBeam_ok gold st.curGold (by omega)
    (beamAt lattice.beams ⟨n + 2, 0⟩)
  unfold eosStep
  rw [he]
  simp only [hscore, hinBeam, ok_bind]
  have hstep := @Merges.append W gold top1.elems_.reverse st.comparison hmerges
    ⟨.Both, score, e.totalScore - score, 0, 0, n + 2, some e, 0, st.curGold, inBeam⟩ hlt
    fun _ => ⟨e, rfl, hboundary⟩
  exact ⟨st.comparison, _, e, rfl, he, rfl, rfl, rfl, hstep⟩

/-- An empty input has empty paths. -/
theorem Prepared.empty_paths (h : Prepared lattice infoAt 0 gold goldScores top1) :
    gold = [] ∧ top1.elems_ = [] := by
  obtain ⟨golds, hgolds, hgoldTiles⟩ := h.goldTiles
  obtain ⟨tops, htops, htopTiles⟩ := h.topTiles
  have hgold := (boundaries_of_tiles hgolds hgoldTiles).2
  have htop := (boundaries_of_tiles htops htopTiles).2
  constructor
  · apply List.eq_nil_iff_forall_not_mem.mpr
    intro g hg
    have hlt := hgold g hg
    omega
  · apply List.eq_nil_iff_forall_not_mem.mpr
    intro t ht
    have hlt := htop _ (List.mem_map.mpr ⟨t, List.mem_reverse.mpr ht, rfl⟩)
    omega

/-- Nothing but EOS is compared for an empty input. -/
theorem computeComparison_empty (h : Prepared lattice infoAt 0 gold goldScores top1)
    (specFlds : List (TrainingField W)) :
    Compared lattice 0 gold top1 (computeComparison lattice specFlds gold goldScores top1) ↔
      ∃ c, top1.currentChunk_ = some c ∧ -2 ≤ c := by
  obtain ⟨rfl, helems⟩ := h.empty_paths
  have hoffsets := h.empty rfl
  have heos : u16 (lattice.createdBoundaryCount - 1) = 2 := by
    rw [h.count]
    rfl
  unfold computeComparison PathCursor.nextBoundary PathCursor.numBoundaries
  rw [hoffsets, heos]
  cases hchunk : top1.currentChunk_ with
  | none =>
    constructor
    · rintro ⟨steps, last, e, hok, -⟩
      cases hok
    · rintro ⟨c, hc, -⟩
      cases hc
  | some c =>
    simp only [ok_bind, helems, List.length_nil]
    by_cases hc : -2 ≤ c
    · apply iff_of_true _ ⟨c, rfl, hc⟩
      have hfalse : decide (c + 1 < ((0 : Nat) : Int) - 1) = false := decide_eq_false (by omega)
      rw [hfalse, turns, if_neg (by simp), ok_bind]
      apply eosStep_compared h rfl
      · rw [helems]
        exact merges_nil
      · exact fun s hs => absurd hs List.not_mem_nil
    · apply iff_of_false
      · -- there is no offset to read
        rintro ⟨steps, last, e, hok, -⟩
        have htrue : decide (c + 1 < ((0 : Nat) : Int) - 1) = true := decide_eq_true (by omega)
        have hturn : turn lattice specFlds [] goldScores 2
            ⟨true, ⟨[], [], some (c + 1), -1⟩, 0, 0, []⟩ = .error .undefined := by
          unfold turn topBoundary PathCursor.currentBoundary PathCursor.offsetAt
          simp only [if_true, PathCursor.chunk, ok_bind, List.getElem?_nil, ite_self, error_bind]
        rw [htrue, turns, if_pos (.inl rfl), hturn, error_bind, error_bind] at hok
        cases hok
      · rintro ⟨c', hc', hle⟩
        rw [Option.some.injEq] at hc'
        omega

theorem computeComparison_nonempty (h : Prepared lattice infoAt n gold goldScores top1) (hpos : 0 < n)
    (specFlds : List (TrainingField W)) :
    Compared lattice n gold top1 (computeComparison lattice specFlds gold goldScores top1) ↔
      ∀ g ∈ gold, ∀ t ∈ top1.elems_, g.boundary = t.ptr.boundary →
        -1 < mismatchWeight lattice specFlds g t := by
  obtain ⟨hoffsets, hchunk⟩ := h.filled hpos
  obtain ⟨golds, hgolds, hgoldTiles⟩ := h.goldTiles
  obtain ⟨tops, htops, htopTiles⟩ := h.topTiles
  obtain ⟨hgoldOrder, hgoldInside⟩ := boundaries_of_tiles hgolds hgoldTiles
  obtain ⟨htopOrder, htopInside⟩ := boundaries_of_tiles htops htopTiles
  rw [List.pairwise_map] at htopOrder
  have hgoldEos : ∀ g ∈ gold, g.boundary < n + 2 := fun g hg => (hgoldInside g hg).2
  have htopEos : ∀ t ∈ top1.elems_, t.ptr.boundary < n + 2 := fun t ht =>
    (htopInside _ (List.mem_map.mpr ⟨t, List.mem_reverse.mpr ht, rfl⟩)).2
  have heos : u16 (lattice.createdBoundaryCount - 1) = n + 2 := by
    rw [h.count]
    exact u16_of_lt h.fits
  have hnext : top1.nextBoundary = .ok (decide (0 < top1.elems_.length), top1.behind 0) := by
    have hiff : ((-1 : Int) + 1 < top1.numBoundaries) ↔ 0 < top1.elems_.length := by
      rw [PathCursor.numBoundaries, hoffsets, List.length_range]
      omega
    unfold PathCursor.nextBoundary
    rw [hchunk]
    exact congrArg (fun b => Except.ok (b, _)) (decide_eq_decide.mpr hiff)
  have hbetween : Between gold top1.elems_ [] gold [] top1.elems_.reverse
      (⟨decide (0 < top1.elems_.length), top1.behind 0, 0, 0, []⟩ : State W) := by
    constructor
    · rfl
    · rfl
    · rfl
    · rfl
    · exact ⟨hoffsets, rfl, rfl⟩
    · rfl
    · exact merges_nil
    · exact fun s hs => absurd hs List.not_mem_nil
    · exact fun s hs => absurd hs List.not_mem_nil
  have hruns := @runsTo W _ _ _ _ _ _ lattice specFlds gold goldScores top1.elems_ (n + 2) h.scores
    hgoldOrder hgoldEos htopOrder htopEos (gold.length + top1.elems_.length + 1) _ _ _ _ _
    (by rw [List.length_reverse]; omega) hbetween
  unfold computeComparison
  simp only [hnext, heos, ok_bind]
  show Compared _ _ _ _ (turns lattice specFlds gold goldScores (n + 2)
    (gold.length + top1.elems_.length + 1) _ >>= _) ↔ _
  constructor
  · intro hcompared g hg t ht heq
    by_contra hlow
    obtain ⟨e, herror⟩ := hruns.error ⟨g, hg, t, List.mem_reverse.mpr ht, heq, hlow⟩
    rw [herror, error_bind] at hcompared
    obtain ⟨steps, last, e, hok, -⟩ := hcompared
    cases hok
  · intro hall
    obtain ⟨st', hok, hdone⟩ := hruns.ok fun g hg t ht => hall g hg t (List.mem_reverse.mp ht)
    rw [hok, ok_bind]
    apply eosStep_compared h hdone.curGold hdone.merges
    apply hdone.merges.boundary_lt hgoldEos
    exact fun t ht => htopEos t (List.mem_reverse.mp ht)

end Compared

/-! ## One word -/

/-- A word with the nodes 0 and 1, whose first field differs. -/
def wordLattice : ScoredLattice where
  createdBoundaryCount := 4
  entryData ptr := [ptr.position]
  beams := [[], [], [], [[⟨.conn 3 0 0 0 .null, 0⟩]]]

/-- The best path takes the node 1. -/
def wordTop : PathCursor := ⟨[⟨.conn 2 0 1 0 .null, 0⟩], [0, 1], some (-1), -1⟩

theorem wordPrepared :
    Prepared wordLattice (fun _ => some ⟨0, 0, 1⟩) 1 [⟨2, 0⟩] [0, 0] wordTop := by
  have htiles : Tiles 0 [⟨0, 0, 1⟩] 1 := ⟨rfl, by decide, rfl⟩
  constructor
  · rfl
  · decide
  · exact ⟨[⟨0, 0, 1⟩], .cons ⟨rfl, rfl⟩ .nil, htiles⟩
  · exact ⟨[⟨0, 0, 1⟩], .cons ⟨rfl, rfl⟩ .nil, htiles⟩
  · rfl
  · exact fun _ => ⟨rfl, rfl⟩
  · exact fun h => absurd h (by decide)
  · exact ⟨_, rfl, rfl⟩

end Comparison

section FillIn

variable {lat : Lattice} {n : Nat} {beams : Beams}

/-- Every turn of `fillIn` adds one chunk with one node.  By induction on the connection. -/
theorem fillLoop_offsets : ∀ (conn : ConnectionPtr) {i : Nat} {path path' : AnalysisPath},
    AnalysisPath.fillLoop beams conn i path = .ok path' →
      path.offsets = List.range (path.elems.length + 1) →
        path'.offsets = List.range (path'.elems.length + 1)
  | .null, _, _, _, h, _ => by cases h
  | .conn boundary left right beam previous, i, path, path', h, hoffsets => by
    rw [AnalysisPath.fillLoop] at h
    split at h
    · split at h
      · cases h
      · apply fillLoop_offsets previous h
        show path.offsets ++ [_] = _
        rw [hoffsets, List.length_append, List.length_singleton]
        exact List.range_succ.symm
    · cases h
      exact hoffsets

theorem isPath_cons_cons {ptr left : LatticeNodePtr} {path : List LatticeNodePtr}
    (h : lat.IsPath (ptr :: left :: path)) : path = [] ∨
      2 ≤ ptr.boundary ∧ left ∈ (lat.boundary ptr.boundary).ends ∧ lat.IsPath (left :: path) := by
  cases h with
  | bos => exact .inl rfl
  | step htwo hleft hrest => exact .inr ⟨htwo, hleft, hrest⟩

/-- A path that begins in BOS ends there. -/
theorem isPath_bos {path : List LatticeNodePtr} (h : lat.IsPath path) (hhead : path.head? = some ⟨1, 0⟩) :
    path.length = 2 := by
  cases h with
  | bos => rfl
  | step htwo hleft hrest =>
    obtain rfl := Option.some.inj hhead
    exact absurd htwo (by decide)

/-- By induction on the path. -/
theorem start_of_isPath (hspans : Spans lat n) : ∀ (elems : List ConnectionPtr) {ptr : LatticeNodePtr},
    lat.IsPath (ptr :: elems.map ConnectionPtr.latticeNodePtr ++ [⟨1, 0⟩, ⟨0, 0⟩]) →
      ptr.boundary < n + 3 → ∀ c ∈ elems, ∃ info,
        (lat.boundary c.boundary).nodeInfo[c.right]? = some info ∧ c.boundary = info.start + 2
  | [], _, _, _, c, hc => absurd hc List.not_mem_nil
  | c :: elems, ptr, hpath, hlt, c', hc' => by
    rcases isPath_cons_cons hpath with hnil | ⟨htwo, hleft, hrest⟩
    · exact absurd hnil (List.append_ne_nil_of_right_ne_nil _ (List.cons_ne_nil _ _))
    · have hne : ptr.boundary ≠ 2 := by
        intro hfirst
        have hends : (lat.boundary ptr.boundary).ends = [⟨1, 0⟩] := by
          rw [hfirst]
          exact lat.firstEnds
        rw [hends] at hleft
        have hlength : (elems.map ConnectionPtr.latticeNodePtr ++
            [(⟨1, 0⟩ : LatticeNodePtr), ⟨0, 0⟩]).length + 1 = 2 :=
          isPath_bos hrest (congrArg some (List.mem_singleton.mp hleft))
        rw [List.length_append] at hlength
        simp at hlength
      rcases List.mem_cons.mp hc' with rfl | hc'
      · obtain ⟨info, hinfo, hstart, -, -⟩ := hspans.info ptr.boundary (by omega) hlt _ hleft
        exact ⟨info, hinfo, hstart.symm⟩
      · have hback := (lat.ends_back ptr.boundary htwo _ hleft).2
        exact start_of_isPath hspans elems hrest (by omega) c' hc'

/-- The loop begins with the offset of the last chunk. -/
theorem fillIn_offsets (hspans : Spans lat n) {path : AnalysisPath}
    (hfill : AnalysisPath.fillIn lat beams = .ok path) :
    path.offsets = List.range (path.elems.length + 1) := by
  have hpos := hspans.pos
  have hcount := hspans.count
  unfold AnalysisPath.fillIn at hfill
  simp only [hcount] at hfill
  rw [if_neg (by omega)] at hfill
  split at hfill
  · split at hfill
    · cases hfill
    · split at hfill
      · cases hfill
      · exact fillLoop_offsets _ hfill rfl
  · cases hfill

/-- The real element of EOS knows its boundary. -/
theorem eos_boundary (hspans : Spans lat n) (hlive : LiveInv lat (n + 3) beams)
    (hfits : n + 2 < 2 ^ 16) {e : ConnectionBeamElement}
    (he : (beamAt beams ⟨n + 2, 0⟩)[0]? = some e) (hreal : isFake e = false) :
    e.ptr.boundary = n + 2 := by
  have hnode : (lat.boundary (n + 2)).localNodeCount = 1 := by
    unfold LatticeBoundary.localNodeCount
    rw [hspans.eos]
    rfl
  have hmem : e.ptr ∈ activePtrs beams ⟨n + 2, 0⟩ := by
    cases hrow : beamAt beams ⟨n + 2, 0⟩ with
    | nil =>
      rw [hrow] at he
      cases he
    | cons first row =>
      rw [hrow] at he
      obtain rfl := Option.some.inj he
      unfold activePtrs activeBeam
      rw [hrow, List.takeWhile_cons_of_pos (by rw [hreal]; rfl), List.map_cons]
      exact List.mem_cons_self
  obtain ⟨left, prev, hcontinues⟩ := hlive.continues ⟨n + 2, 0⟩ (by simp) (by simp)
    (by rw [hnode]; exact Nat.one_pos) e.ptr hmem
  rw [hcontinues.eq]
  exact u16_of_lt hfits

/-- The path that the analysis leaves is ready for the comparison. -/
theorem prepared_of_fillIn (hspans : Spans lat n) (hlive : LiveInv lat (n + 3) beams)
    (htop : TopOneTiles lat n beams) {path : AnalysisPath} (hfill : AnalysisPath.fillIn lat beams = .ok path)
    {top1 : PathCursor} (helems : top1.elems_.map (·.ptr) = path.elems)
    (hoffsets : top1.offsets_ = path.offsets) (hchunk : top1.currentChunk_ = some (-1))
    {gold : List LatticeNodePtr} {goldScores : List Score} (entryData : LatticeNodePtr → List Int)
    (hgold : Comparison.TilesBy (fun ptr => (lat.boundary ptr.boundary).nodeInfo[ptr.position]?) n gold)
    (hscores : goldScores.length = gold.length + 1) :
    Comparison.Prepared ⟨lat.createdBoundaryCount, entryData, beams⟩
      (fun ptr => (lat.boundary ptr.boundary).nodeInfo[ptr.position]?) n gold goldScores top1 := by
  have hpos := hspans.pos
  have hfits := (topOneTiles_iff hspans hlive).mp htop
  obtain ⟨path', hpath', hisPath, infos, hinfos, htiles⟩ := htop.path
  obtain rfl : path' = path := by
    rw [hfill] at hpath'
    exact (Except.ok.inj hpath').symm
  constructor
  · exact hspans.count
  · exact hfits
  · exact hgold
  · refine ⟨infos, ?_, htiles⟩
    have hmap : top1.elems_.reverse.map (·.ptr.latticeNodePtr) =
        path'.elems.reverse.map ConnectionPtr.latticeNodePtr := by
      rw [← helems, ← List.map_reverse, List.map_map]
      rfl
    have hstarts : ∀ c ∈ path'.elems.reverse, ∃ info,
        (lat.boundary c.boundary).nodeInfo[c.right]? = some info ∧ c.boundary = info.start + 2 :=
      fun c hc => start_of_isPath hspans path'.elems hisPath (by simp) c (List.mem_reverse.mp hc)
    rw [hmap, List.forall₂_map_left_iff]
    apply ((List.forall₂_and_left _ _).mpr ⟨hstarts, hinfos⟩).imp
    rintro c info ⟨⟨info', hinfo', hstart⟩, hinfo⟩
    obtain rfl := Option.some.inj (hinfo'.symm.trans hinfo)
    exact ⟨hinfo, hstart⟩
  · exact hscores
  · intro _
    have hlength : top1.elems_.length = path'.elems.length := by rw [← helems, List.length_map]
    rw [hoffsets, hlength]
    exact ⟨fillIn_offsets hspans hfill, hchunk⟩
  · exact fun hzero => absurd hzero (Nat.ne_of_gt hpos)
  · obtain ⟨e, he, hreal⟩ := htop.real
    rw [hspans.count] at he
    exact ⟨e, he, eos_boundary hspans hlive hfits he hreal⟩

end FillIn

end Jumanpp.Core.Training
