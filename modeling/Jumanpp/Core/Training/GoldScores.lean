import Jumanpp.Core.Analysis.FullBeam
import Jumanpp.Core.Impl.FeatureComputer

/-!
# The score of the gold path

The trainer scores its example with features of its own.  The total is the one that the analysis
gives to the same path, so the weights that are trained are the weights that are used.
-/

namespace Jumanpp.Core.Training

open Jumanpp.Lib Jumanpp.Core.Analysis Jumanpp.Core.Features

/-! ## Rows of a vector -/

/-- `std::vector::resize`. -/
def resize (v : List UInt32) (n : Nat) : List UInt32 :=
  v.take n ++ List.replicate (n - v.length) 0

/-- The rows of a `Sliceable`. -/
def viewRows (rowSize numRows : Nat) (data : List UInt32) : List (List UInt32) :=
  (List.range numRows).map fun i => (data.drop (i * rowSize)).take rowSize

theorem length_resize (v : List UInt32) (n : Nat) : (resize v n).length = n := by
  unfold resize
  rw [List.length_append, List.length_take, List.length_replicate]
  omega

theorem length_of_mem_viewRows {rowSize numRows : Nat} {data row : List UInt32}
    (hdata : data.length = numRows * rowSize) (hrow : row ∈ viewRows rowSize numRows data) :
    row.length = rowSize := by
  unfold viewRows at hrow
  rw [List.mem_map] at hrow
  obtain ⟨i, hi, rfl⟩ := hrow
  rw [List.mem_range] at hi
  rw [List.length_take, List.length_drop, hdata, ← Nat.sub_mul]
  have hle : 1 * rowSize ≤ (numRows - i) * rowSize := Nat.mul_le_mul_right _ (by omega)
  omega

theorem viewRows_flatten {rowSize : Nat} {rows : List (List UInt32)}
    (h : ∀ row ∈ rows, row.length = rowSize) :
    viewRows rowSize rows.length rows.flatten = rows := by
  induction rows with
  | nil => rfl
  | cons row rows ih =>
      have hrow := h row (by simp)
      have hrest := ih fun r hr => h r (List.mem_cons_of_mem row hr)
      unfold viewRows at hrest ⊢
      rw [List.length_cons, List.range_succ_eq_map, List.map_cons, List.flatten_cons, Nat.zero_mul,
        List.drop_zero, List.take_left' hrow, List.map_map]
      conv_rhs => rw [← hrest]
      congr 1
      apply List.map_congr_left
      intro i _
      have hoffset : (i + 1) * rowSize = rowSize + i * rowSize := by ring
      simp only [Function.comp_apply, Nat.succ_eq_add_one]
      rw [hoffset, ← List.drop_drop, List.drop_left' hrow]

/-! ## `LossCalculator` -/

structure LossCalculator where
  gold : List LatticeNodePtr
  rawGoldFeatures : List UInt32
  goldNodeScores : List Score
  goldScores : List Score

namespace LossCalculator

/-- `calculateNgramFeatures(nfr, goldNgrams.row(idx))`. -/
def calculateRow (features : NgramDynamicFeatureApply) (patterns : LatticeNodePtr → PatternRow)
    (idx : Nat) (nfr : NgramFeatureRef) (goldNgrams : List (List UInt32)) :
    Option (List (List UInt32)) := do
  let row ← readAt goldNgrams idx
  let row ← calculateNgramFeatures features patterns nfr row
  writeAt goldNgrams idx row

def resolveGold (loss : LossCalculator) (features : NgramDynamicFeatureApply)
    (patterns : LatticeNodePtr → PatternRow) (totalBndCount numNgrams : Nat) :
    Option LossCalculator := do
  let goldNodes := loss.gold
  let numNodes := goldNodes.length
  let withEos := numNodes + 1
  let rawGoldFeatures := resize loss.rawGoldFeatures (withEos * numNgrams)
  if numNodes = 0 then
    some { loss with rawGoldFeatures := rawGoldFeatures }
  else
    let goldNgrams := viewRows numNgrams withEos rawGoldFeatures
    let first ← goldNodes[0]?
    let nfr := NgramFeatureRef.init first
    let goldNgrams ← calculateRow features patterns 0 nfr goldNgrams
    let (nfr, goldNgrams) ← forRange (fun idx (nfr, goldNgrams) => do
      let node ← goldNodes[idx]?
      let nfr := NgramFeatureRef.next nfr node
      let goldNgrams ← calculateRow features patterns idx nfr goldNgrams
      pure (nfr, goldNgrams)) 1 (numNodes - 1) (nfr, goldNgrams)
    let eosBoundary := u16 (totalBndCount - 1)
    let nfr := nfr.next ⟨eosBoundary, 0⟩  -- EOS
    let goldNgrams ← calculateRow features patterns numNodes nfr goldNgrams
    pure { loss with rawGoldFeatures := goldNgrams.flatten }

/-- `std::partial_sum` behind the first element. -/
def partialSumFrom (sum : Score) : List Score → List Score
  | [] => []
  | x :: xs => (sum + x) :: partialSumFrom (sum + x) xs

def partialSum : List Score → List Score
  | [] => []
  | x :: xs => x :: partialSumFrom x xs

/-- The scores of the nodes are those of `HashedFeaturePerceptron::compute`. -/
def computeGoldScores (loss : LossCalculator) (weights : WeightBuffer) (numNgrams : Nat) :
    Option LossCalculator := do
  let numGoldNodes := loss.gold.length + 1  -- EOS as well
  let features := viewRows numNgrams numGoldNodes loss.rawGoldFeatures
  let goldNodeScores ← features.mapM fun row => computeUnrolled4Perceptron weights row weights.mask
  pure { loss with goldNodeScores := goldNodeScores, goldScores := partialSum goldNodeScores }

end LossCalculator

/-! ## The triples of a path -/

/-- The triple that ends in the node `i`. -/
def refAt (nodes : List LatticeNodePtr) : Nat → NgramFeatureRef
  | 0 => .init (nodes.getD 0 ⟨0, 0⟩)
  | i + 1 => (refAt nodes i).next (nodes.getD (i + 1) ⟨0, 0⟩)

/-- The path to the last of the first `n` nodes, written back to BOS. -/
def pathBack (nodes : List LatticeNodePtr) (n : Nat) : List LatticeNodePtr :=
  (nodes.take n).reverse ++ [⟨1, 0⟩, ⟨0, 0⟩]

theorem pathBack_succ {nodes : List LatticeNodePtr} {n : Nat} (hn : n < nodes.length) :
    pathBack nodes (n + 1) = nodes.getD n ⟨0, 0⟩ :: pathBack nodes n := by
  unfold pathBack
  rw [List.take_succ_eq_append_getElem hn, List.getD_eq_getElem _ _ hn, List.reverse_append,
    List.reverse_singleton]
  rfl

theorem pathBack_refAt {nodes : List LatticeNodePtr} {n : Nat} (hn : n < nodes.length) :
    ∃ rest, pathBack nodes (n + 1) =
      (refAt nodes n).t0 :: (refAt nodes n).t1 :: (refAt nodes n).t2 :: rest := by
  induction n with
  | zero =>
      rw [pathBack_succ hn]
      exact ⟨[], rfl⟩
  | succ n ih =>
      obtain ⟨rest, hrest⟩ := ih (by omega)
      rw [pathBack_succ hn, hrest]
      exact ⟨_, rfl⟩

/-- The n-grams that end in the node `t0`. -/
def refScore {P : Type} (a : AnalyzerImpl P) (ref : NgramFeatureRef) : Score :=
  a.scorer.uni (a.patterns ref.t0) + a.scorer.bi (a.patterns ref.t0) (a.patterns ref.t1) +
    a.scorer.tri (a.patterns ref.t0) (a.patterns ref.t1) (a.patterns ref.t2)

theorem pathScore_pathBack {P : Type} (a : AnalyzerImpl P) (nodes : List LatticeNodePtr) {n : Nat}
    (hn : n ≤ nodes.length) :
    a.pathScore (pathBack nodes n) = ((List.range n).map fun i => refScore a (refAt nodes i)).sum := by
  induction n with
  | zero =>
      unfold pathBack AnalyzerImpl.pathScore
      simp
  | succ n ih =>
      have hback := pathBack_succ (show n < nodes.length by omega)
      obtain ⟨rest, hrest⟩ := pathBack_refAt (show n < nodes.length by omega)
      have htail : pathBack nodes n = (refAt nodes n).t1 :: (refAt nodes n).t2 :: rest := by
        rw [hback, List.cons.injEq] at hrest
        exact hrest.2
      rw [hrest, AnalyzerImpl.pathScore, ← htail, ih (by omega), List.range_succ, List.map_append,
        List.sum_append, List.map_singleton, List.sum_singleton, add_comm]
      rfl

/-! ## The features of the gold path -/

namespace LossCalculator

variable {spec : NgramSpec} {features : NgramDynamicFeatureApply}

def refValues (spec : NgramSpec) (patterns : LatticeNodePtr → PatternRow)
    (ref : NgramFeatureRef) : List UInt32 :=
  spec.values (patterns ref.t2) (patterns ref.t1) (patterns ref.t0)

theorem calculateRow_overwrite (hfeatures : features.map (·.descriptor) = spec.ngram)
    (patterns : LatticeNodePtr → PatternRow) (refs : Nat → NgramFeatureRef)
    {rows : List (List UInt32)} (hrows : ∀ row ∈ rows, row.length = spec.ngram.length) {idx : Nat}
    (hidx : idx < rows.length) :
    calculateRow features patterns idx (refs idx)
        (overwrite (fun i _ => refValues spec patterns (refs i)) idx rows) =
      some (overwrite (fun i _ => refValues spec patterns (refs i)) (idx + 1) rows) := by
  have hread : readAt (overwrite (fun i _ => refValues spec patterns (refs i)) idx rows)
      (idx : Int) = some rows[idx] := by
    rw [readAt_natCast, getElem?_overwrite, List.getElem?_eq_getElem hidx]
    simp
  have hwrite := writeAt_overwrite (fun i => refValues spec patterns (refs i)) hidx
  unfold calculateRow
  rw [Option.bind_eq_bind, hread, Option.bind_some, calculateNgramFeatures,
    NgramDynamicFeatureApply.apply_eq hfeatures (hrows _ (List.getElem_mem hidx))]
  exact hwrite

/-- The loop over the nodes: before turn `i` the triple ends in the node `i - 1`. -/
theorem goldLoop_eq {gold nodes : List LatticeNodePtr} {patterns : LatticeNodePtr → PatternRow}
    {done : Nat → List (List UInt32)} (hpos : 0 < gold.length)
    (hnodes : ∀ i < gold.length, gold[i]? = some (nodes.getD i ⟨0, 0⟩))
    (hrow : ∀ i ≤ gold.length, calculateRow features patterns i (refAt nodes i) (done i) =
      some (done (i + 1))) :
    forRange (fun idx (nfr, goldNgrams) => do
      let node ← gold[idx]?
      let nfr := NgramFeatureRef.next nfr node
      let goldNgrams ← calculateRow features patterns idx nfr goldNgrams
      pure (nfr, goldNgrams)) 1 (gold.length - 1) (refAt nodes 0, done 1) =
    some (refAt nodes (gold.length - 1), done gold.length) := by
  have hend : 1 + (gold.length - 1) = gold.length := by omega
  have hloop := forRange_eq (fun idx (nfr, goldNgrams) => do
      let node ← gold[idx]?
      let nfr := NgramFeatureRef.next nfr node
      let goldNgrams ← calculateRow features patterns idx nfr goldNgrams
      pure (nfr, goldNgrams)) 1 (gold.length - 1) (fun i => (refAt nodes (i - 1), done i)) (by
    intro i hlow hhigh
    have hnext : (refAt nodes (i - 1)).next (nodes.getD i ⟨0, 0⟩) = refAt nodes i := by
      cases i with
      | zero => omega
      | succ i => rfl
    simp only [hnodes i (by omega), Option.bind_eq_bind, Option.bind_some, hnext,
      hrow i (by omega), Option.pure_def, Nat.add_sub_cancel])
  rw [hend] at hloop
  exact hloop

/-- `resolveGold` stores the features of all triples of the path, with the number of EOS as it is
after the conversion to `u16`. -/
theorem resolveGold_eq (hfeatures : features.map (·.descriptor) = spec.ngram)
    (patterns : LatticeNodePtr → PatternRow) (loss : LossCalculator) (hgold : loss.gold ≠ [])
    (totalBndCount : Nat) :
    loss.resolveGold features patterns totalBndCount spec.ngram.length =
      some { loss with
        rawGoldFeatures := ((List.range (loss.gold.length + 1)).map fun i =>
          refValues spec patterns
            (refAt (loss.gold ++ [⟨u16 (totalBndCount - 1), 0⟩]) i)).flatten } := by
  let n := loss.gold.length
  let nodes := loss.gold ++ [⟨u16 (totalBndCount - 1), 0⟩]
  let rows := viewRows spec.ngram.length (n + 1)
    (resize loss.rawGoldFeatures ((n + 1) * spec.ngram.length))
  let done := fun i => overwrite (fun i _ => refValues spec patterns (refAt nodes i)) i rows
  have hpos : 0 < n := List.length_pos_of_ne_nil hgold
  have hlength : rows.length = n + 1 := by
    show (viewRows _ _ _).length = _
    unfold viewRows
    rw [List.length_map, List.length_range]
  have hrows : ∀ row ∈ rows, row.length = spec.ngram.length := fun row hrow =>
    length_of_mem_viewRows (length_resize _ _) hrow
  have hnodes : ∀ i < n, loss.gold[i]? = some (nodes.getD i ⟨0, 0⟩) := by
    intro i hi
    rw [List.getD_append _ _ _ _ hi, List.getD_eq_getElem _ _ hi, List.getElem?_eq_getElem hi]
  have hrow : ∀ i ≤ n, calculateRow features patterns i (refAt nodes i) (done i) =
      some (done (i + 1)) := fun i hi =>
    calculateRow_overwrite hfeatures patterns (refAt nodes) hrows (by omega)
  have hloop := goldLoop_eq hpos hnodes hrow
  have hlast : (refAt nodes (n - 1)).next ⟨u16 (totalBndCount - 1), 0⟩ = refAt nodes n := by
    have heos : nodes.getD n ⟨0, 0⟩ = ⟨u16 (totalBndCount - 1), 0⟩ := by
      rw [List.getD_append_right _ _ _ _ (Nat.le_refl _), Nat.sub_self]
      rfl
    have hn : n = n - 1 + 1 := by omega
    rw [← heos, hn]
    rfl
  have hall : done (n + 1) = (List.range (n + 1)).map fun i =>
      refValues spec patterns (refAt nodes i) := by
    have htake := take_overwrite (v := fun i => refValues spec patterns (refAt nodes i))
      (show n + 1 ≤ rows.length by omega)
    rwa [List.take_of_length_le (by rw [length_overwrite]; omega)] at htake
  have hne : ¬ loss.gold.length = 0 := by omega
  have hrow0 := hrow 0 (by omega)
  have hstart : done 0 = rows := overwrite_zero _ _
  rw [hstart] at hrow0
  unfold resolveGold
  simp only [hne, ↓reduceIte, hnodes 0 hpos, Option.bind_eq_bind, Option.bind_some]
  refine (congrArg (Option.bind · _) hrow0).trans ?_
  refine (congrArg (Option.bind · _) hloop).trans ?_
  simp only [Option.bind_some]
  rw [hlast, hrow n (Nat.le_refl n), hall]
  rfl

/-- The gold scores from the features of all triples. -/
theorem computeGoldScores_eq (loss : LossCalculator) (weights : WeightBuffer) {numNgrams : Nat}
    {rows : List (List UInt32)} (hrows : ∀ row ∈ rows, row.length = numNgrams)
    (hlength : rows.length = loss.gold.length + 1) (hraw : loss.rawGoldFeatures = rows.flatten) :
    loss.computeGoldScores weights numNgrams =
      some { loss with
        goldNodeScores := rows.map fun row =>
          (row.map fun i => weights.value (i &&& weights.mask)).sum
        goldScores := partialSum (rows.map fun row =>
          (row.map fun i => weights.value (i &&& weights.mask)).sum) } := by
  have hscores : rows.mapM (fun row => computeUnrolled4Perceptron weights row weights.mask) =
      some (rows.map fun row => (row.map fun i => weights.value (i &&& weights.mask)).sum) := by
    simp only [computeUnrolled4Perceptron_eq]
    exact List.mapM_pure
  unfold computeGoldScores
  simp only [← hlength]
  rw [hraw, viewRows_flatten hrows, hscores]
  rfl

theorem getLast?_partialSumFrom (sum : Score) (l : List Score) :
    (sum :: partialSumFrom sum l).getLast? = some (sum + l.sum) := by
  induction l generalizing sum with
  | nil => simp [partialSumFrom]
  | cons x xs ih =>
      rw [partialSumFrom, List.getLast?_cons_cons, ih, List.sum_cons, add_assoc]

theorem getLast?_partialSum {l : List Score} (hl : l ≠ []) :
    (partialSum l).getLast? = some l.sum := by
  cases l with
  | nil => exact absurd rfl hl
  | cons x xs =>
      rw [partialSum, getLast?_partialSumFrom, List.sum_cons]

/-- The last gold score is the score of the path to EOS, whose number went through `u16`. -/
theorem exists_goldScores {child : PartialNgramFeatures} (hbuilt : child.BuiltFrom spec.ngram)
    (hfeatures : features.map (·.descriptor) = spec.ngram) {weights : WeightBuffer}
    {a : AnalyzerImpl PatternRow} (hscorer : a.scorer = child.scorer weights)
    (loss : LossCalculator) (hgold : loss.gold ≠ []) (totalBndCount : Nat) :
    ∃ resolved scored,
      loss.resolveGold features a.patterns totalBndCount spec.ngram.length = some resolved ∧
      resolved.computeGoldScores weights spec.ngram.length = some scored ∧
      scored.goldScores.getLast? =
        some (a.pathScore (⟨u16 (totalBndCount - 1), 0⟩ :: pathBack loss.gold loss.gold.length)) := by
  let nodes := loss.gold ++ [⟨u16 (totalBndCount - 1), 0⟩]
  let rows := (List.range (loss.gold.length + 1)).map fun i =>
    refValues spec a.patterns (refAt nodes i)
  have hrows : ∀ row ∈ rows, row.length = spec.ngram.length := by
    intro row hrow
    obtain ⟨i, _, rfl⟩ := List.mem_map.mp hrow
    exact List.length_map _
  have hlength : rows.length = loss.gold.length + 1 := by
    rw [List.length_map, List.length_range]
  refine ⟨_, _, resolveGold_eq hfeatures a.patterns loss hgold totalBndCount,
    computeGoldScores_eq _ weights hrows hlength rfl, ?_⟩
  have hne : rows ≠ [] := by
    intro hnil
    rw [hnil] at hlength
    cases hlength
  have hback : ⟨u16 (totalBndCount - 1), 0⟩ :: pathBack loss.gold loss.gold.length =
      pathBack nodes nodes.length := by
    unfold pathBack
    rw [List.take_length, List.take_length, List.reverse_append]
    rfl
  have hscores : (rows.map fun row =>
      (row.map fun i => weights.value (i &&& weights.mask)).sum) =
      (List.range nodes.length).map fun i => refScore a (refAt nodes i) := by
    rw [List.map_map, List.length_append, List.length_singleton]
    apply List.map_congr_left
    intro i _
    unfold refScore
    rw [hscorer]
    exact PartialNgramFeatures.sum_values hbuilt weights _ _ _
  rw [getLast?_partialSum (by simpa using hne), hscores, hback,
    pathScore_pathBack a nodes (Nat.le_refl _)]

end LossCalculator

/-! ## The trainer and the analysis -/

/-- The path of the gold nodes in the lattice, from EOS back. -/
def goldPath (lat : Lattice) (gold : List LatticeNodePtr) : List LatticeNodePtr :=
  ⟨lat.createdBoundaryCount - 1, 0⟩ :: (gold.reverse ++ [⟨1, 0⟩, ⟨0, 0⟩])

/-- The n-grams that end in an EOS node behind the gold nodes. -/
def eosScore (a : AnalyzerImpl PatternRow) (gold : List LatticeNodePtr) (eos : LatticeNodePtr) :
    Score :=
  refScore a (refAt (gold ++ [eos]) gold.length)

/-- The trainer's features, gold scores and subsets of features are those of the analysis. -/
structure TrainerAgrees (spec : NgramSpec) (child : PartialNgramFeatures)
    (features : NgramDynamicFeatureApply) (weights : WeightBuffer) (a : AnalyzerImpl PatternRow)
    (lat : Lattice) (loss : LossCalculator) (what : NgramSubset) (original : List UInt32) :
    Prop where
  stepwise : ∀ ptrs (result : List UInt32), result.length = spec.ngram.length → ∃ row,
    calculateNgramFeatures features a.patterns ptrs result = some row ∧
      StepsAgree child weights.mask (a.patterns ptrs.t2) (a.patterns ptrs.t1) (a.patterns ptrs.t0)
        row
  total : ∃ resolved scored total,
    loss.resolveGold features a.patterns lat.createdBoundaryCount spec.ngram.length =
        some resolved ∧
      resolved.computeGoldScores weights spec.ngram.length = some scored ∧
      scored.goldScores.getLast? = some total ∧ a.pathScore (goldPath lat loss.gold) = total ∧
      (a.Plain lat → ∀ beams, a.computeScoresFull lat = some beams →
        ∀ e ∈ activeBeam (beamAt beams ⟨lat.createdBoundaryCount - 1, 0⟩),
          e.path ⟨lat.createdBoundaryCount - 1, 0⟩ = goldPath lat loss.gold → e.totalScore = total)
  subset : subset child original what = spec.requested what original

theorem pathScore_eos (a : AnalyzerImpl PatternRow) (gold : List LatticeNodePtr)
    (eos : LatticeNodePtr) :
    a.pathScore (eos :: pathBack gold gold.length) =
      eosScore a gold eos + a.pathScore (pathBack gold gold.length) := by
  have hlength : gold.length < (gold ++ [eos]).length := by
    rw [List.length_append, List.length_singleton]
    omega
  have hpath : pathBack (gold ++ [eos]) (gold.length + 1) = eos :: pathBack gold gold.length := by
    rw [pathBack_succ hlength, List.getD_append_right _ _ _ _ (Nat.le_refl _), Nat.sub_self]
    unfold pathBack
    rw [List.take_left, List.take_length]
    rfl
  obtain ⟨rest, hrest⟩ := pathBack_refAt hlength
  rw [hpath] at hrest
  rw [hrest, AnalyzerImpl.pathScore]
  rw [List.cons.injEq] at hrest
  rw [← hrest.2]
  rfl

section Agreement

variable {spec : NgramSpec} {child : PartialNgramFeatures} {features : NgramDynamicFeatureApply}
  {weights : WeightBuffer} {a : AnalyzerImpl PatternRow} {lat : Lattice} {loss : LossCalculator}
  {what : NgramSubset} {original : List UInt32}

theorem goldPath_eq (lat : Lattice) (gold : List LatticeNodePtr) :
    goldPath lat gold = ⟨lat.createdBoundaryCount - 1, 0⟩ :: pathBack gold gold.length := by
  unfold goldPath pathBack
  rw [List.take_length]

/-- The EOS node that the trainer looks at has the score of the lattice's one. -/
theorem TrainerAgrees.eosScore_eq (hbuilt : child.BuiltFrom spec.ngram)
    (hdescriptors : features.map (·.descriptor) = spec.ngram)
    (hscorer : a.scorer = child.scorer weights) (hgold : loss.gold ≠ [])
    (h : TrainerAgrees spec child features weights a lat loss what original) :
    eosScore a loss.gold ⟨u16 (lat.createdBoundaryCount - 1), 0⟩ =
      eosScore a loss.gold ⟨lat.createdBoundaryCount - 1, 0⟩ := by
  obtain ⟨resolved, scored, hresolve, hcompute, hlast⟩ := LossCalculator.exists_goldScores hbuilt
    hdescriptors hscorer loss hgold lat.createdBoundaryCount
  obtain ⟨resolved', scored', total, hresolve', hcompute', hlast', htotal, _⟩ := h.total
  rw [hresolve, Option.some.injEq] at hresolve'
  subst hresolve'
  rw [hcompute, Option.some.injEq] at hcompute'
  subst hcompute'
  rw [hlast, Option.some.injEq] at hlast'
  rw [← hlast', goldPath_eq, pathScore_eos, pathScore_eos] at htotal
  exact (add_right_cancel htotal).symm

theorem trainerAgrees_of_eosScore_eq (hbuilt : child.BuiltFrom spec.ngram)
    (hdescriptors : features.map (·.descriptor) = spec.ngram)
    (hscorer : a.scorer = child.scorer weights) (hgold : loss.gold ≠ [])
    (heos : eosScore a loss.gold ⟨u16 (lat.createdBoundaryCount - 1), 0⟩ =
      eosScore a loss.gold ⟨lat.createdBoundaryCount - 1, 0⟩)
    (hsubset : subset child original what = spec.requested what original) :
    TrainerAgrees spec child features weights a lat loss what original := by
  have hlength := lat.four_le_length
  have hnode : lat.IsNode ⟨lat.createdBoundaryCount - 1, 0⟩ := by
    unfold Lattice.IsNode Lattice.boundary Lattice.createdBoundaryCount
    rw [lat.eosNode]
    exact ⟨show 2 ≤ lat.boundaries.length - 1 by omega,
      show lat.boundaries.length - 1 < lat.boundaries.length by omega, Nat.one_pos⟩
  have hscore : a.pathScore (goldPath lat loss.gold) =
      a.pathScore (⟨u16 (lat.createdBoundaryCount - 1), 0⟩ ::
        pathBack loss.gold loss.gold.length) := by
    rw [goldPath_eq, pathScore_eos, pathScore_eos, heos]
  obtain ⟨resolved, scored, hresolve, hcompute, hlast⟩ := LossCalculator.exists_goldScores hbuilt
    hdescriptors hscorer loss hgold lat.createdBoundaryCount
  refine ⟨?_, ⟨resolved, scored, _, hresolve, hcompute, hlast, hscore, ?_⟩, hsubset⟩
  · intro ptrs result hresult
    exact ⟨_, NgramDynamicFeatureApply.apply_eq hdescriptors hresult _ _ _,
      PartialNgramFeatures.stepsAgree hbuilt weights.mask _ _ _⟩
  · intro hplain beams hbeams e he hpath
    rw [AnalyzerImpl.totalScore_of_computeScoresFull hplain hbeams hnode he, hpath, hscore]

end Agreement

/-- The boundary `b` of an input of `n` characters with one node each. -/
def chainBoundary (n b : Nat) : LatticeBoundary where
  nodeInfo :=
    if b < 2 then [⟨.BOS, 0, 0⟩] else if b = n + 2 then [⟨.EOS, n, n⟩] else [⟨0, b - 2, b - 1⟩]
  ends := if b = 0 then [] else [⟨b - 1, 0⟩]

theorem localNodeCount_chainBoundary (n b : Nat) : (chainBoundary n b).localNodeCount = 1 := by
  unfold chainBoundary LatticeBoundary.localNodeCount
  dsimp only
  split_ifs <;> rfl

theorem boundaryAt_chain {n b : Nat} (hb : b < n + 3) :
    boundaryAt ((List.range (n + 3)).map (chainBoundary n)) b = chainBoundary n b := by
  have hlt : b < ((List.range (n + 3)).map (chainBoundary n)).length := by simpa using hb
  unfold boundaryAt
  rw [List.getD_eq_getElem _ _ hlt, List.getElem_map, List.getElem_range]

def chainLattice (n : Nat) (hpos : 0 < n) (hn : n < 65535) : Lattice :=
  .ofBoundaries ((List.range (n + 3)).map (chainBoundary n))
    (by rw [List.length_map, List.length_range]; omega)
    (by
      intro b hb
      rw [boundaryAt_chain (by omega), localNodeCount_chainBoundary])
    (by rw [boundaryAt_chain (by omega)]; rfl)
    (by
      rw [List.length_map, List.length_range, boundaryAt_chain (by omega),
        localNodeCount_chainBoundary])
    (by
      intro b hb htwo p hp
      rw [List.length_map, List.length_range] at hb
      rw [boundaryAt_chain hb] at hp
      have hne : ¬ b = 0 := by omega
      simp only [chainBoundary, hne, ↓reduceIte, List.mem_singleton] at hp
      subst hp
      rw [boundaryAt_chain (by show b - 1 < n + 3; omega), localNodeCount_chainBoundary]
      exact ⟨⟨show 1 ≤ b - 1 by omega, show b - 1 < b by omega⟩, Nat.one_pos,
        show b - 1 < 2 ^ 16 by omega, Nat.two_pow_pos 16⟩)
    (by
      intro b hb
      rw [List.length_map, List.length_range] at hb
      rw [boundaryAt_chain hb]
      unfold chainBoundary
      split_ifs <;> simp)
    (by
      intro b hb
      rw [List.length_map, List.length_range] at hb
      rw [boundaryAt_chain hb]
      unfold chainBoundary
      split_ifs <;> simp)

theorem createdBoundaryCount_chainLattice (n : Nat) (hpos : 0 < n) (hn : n < 65535) :
    (chainLattice n hpos hn).createdBoundaryCount = n + 3 := by
  show ((List.range (n + 3)).map (chainBoundary n)).length = n + 3
  rw [List.length_map, List.length_range]

def chainGold (n : Nat) : List LatticeNodePtr :=
  (List.range n).map fun i => ⟨i + 2, 0⟩

def unigramSpec : NgramSpec :=
  .build [.unigram 0]

def unigramFeatures : PartialNgramFeatures :=
  ⟨[⟨0, 0, 0⟩], [], []⟩

/-- Both weights are used: the pattern of the boundary 65536 has another bit than the others. -/
theorem length_evenOdd : ([1, 2] : List Score).length = 2 ^ 1 := rfl

def evenOdd : WeightBuffer :=
  ⟨[1, 2], 1, length_evenOdd⟩

theorem markedBeamSize_pos : 0 < 5 := by decide

def markedAnalyzer : AnalyzerImpl PatternRow where
  platform := { StdAlgorithm.insertion with overflowScore := fun score _ _ => score }
  patterns ptr := if ptr.boundary = 65536 then [2] else [0]
  scorer := unigramFeatures.scorer evenOdd
  plugin := none
  beamSize := 5
  beamSize_pos := markedBeamSize_pos
  globalBeamSize := 0
  rightGbeamCheck := 0
  rightGbeamSize := 0

theorem make_unigramSpec : PartialNgramFeatures.make unigramSpec = .ok unigramFeatures ∧
    NgramDynamicFeatureApply.make unigramSpec = .ok [.one 0 0] := by
  have hsort : sortByOrder [.unigram 0] = [.unigram 0] := by simp [sortByOrder]
  unfold PartialNgramFeatures.make NgramDynamicFeatureApply.make unigramSpec NgramSpec.build
  simp only [hsort]
  exact ⟨rfl, rfl⟩

theorem uni_unigramFeatures (t0 : PatternRow) : (unigramFeatures.scorer evenOdd).uni t0 =
    evenOdd.value (UnigramFeature.value ⟨0, 0, 0⟩ t0 1) := by
  have hmask : evenOdd.mask = 1 := by decide
  unfold PartialNgramFeatures.scorer unigramFeatures
  simp only [List.map_cons, List.map_nil, List.sum_singleton, hmask]

theorem eosScore_markedAnalyzer (gold : List LatticeNodePtr) (eos : LatticeNodePtr) :
    eosScore markedAnalyzer gold eos = if eos.boundary = 65536 then 2 else 1 := by
  have ht0 : ∀ nodes i, (refAt nodes i).t0 = nodes.getD i ⟨0, 0⟩ := by
    intro nodes i
    cases i <;> rfl
  have heos : (gold ++ [eos]).getD gold.length ⟨0, 0⟩ = eos := by
    rw [List.getD_append_right _ _ _ _ (Nat.le_refl _), Nat.sub_self]
    rfl
  unfold eosScore refScore
  rw [ht0, heos]
  show (unigramFeatures.scorer evenOdd).uni (if eos.boundary = 65536 then [2] else [0]) + 0 + 0 = _
  rw [add_zero, add_zero, uni_unigramFeatures]
  split_ifs <;> rfl

end Jumanpp.Core.Training
