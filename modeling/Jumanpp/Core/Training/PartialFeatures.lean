import Jumanpp.Core.Training.FeatureDiff

/-!
# What a partial example teaches

The features of a wrong node stand against those of the nodes that could have been there.  A feature that
only one of the sides has is scored, and at the end the scores of equal features are added up in place.
-/

namespace Jumanpp.Core.Training

open Jumanpp.Lib Jumanpp.Core.Analysis Jumanpp.Core.Features

namespace PartialTrainer

/-! ## Adding up -/

/-- `std::sort` by the features: what it does with the order of equal ones is its own matter. -/
structure FeatureSort where
  sort : List ScoredFeature → List ScoredFeature
  perm : ∀ l, (sort l).Perm l
  sorted : ∀ l, (sort l).Pairwise fun f1 f2 => f1.feature ≤ f2.feature

/-- The vector while it is merged: everything up to `prev` is done. -/
structure MergeState where
  features_ : List ScoredFeature
  prev : Nat

/-- One turn of the loop; `none` is a read outside of the vector. -/
def mergeTurn (s : MergeState) (cur : Nat) : Option MergeState := do
  let prevItem ← s.features_[s.prev]?
  let curItem ← s.features_[cur]?
  if prevItem.feature = curItem.feature then
    some { s with
      features_ := s.features_.set s.prev { prevItem with score := prevItem.score + curItem.score } }
  else
    let prev := s.prev + 1
    some ⟨if prev ≠ cur then s.features_.set prev curItem else s.features_, prev⟩

/-- The features and the loss. -/
def finalizeFeatures (sorting : FeatureSort) (mask_ : UInt32) (features_ : List ScoredFeature)
    (loss_ : Score) : Option (List ScoredFeature × Score) :=
  let features_ := sorting.sort (features_.map fun f => { f with feature := f.feature &&& mask_ })
  let nfeatures := features_.length
  if nfeatures ≤ 1 then some (features_, 0)
  else do
    let s ← (List.range' 1 (nfeatures - 1)).foldlM mergeTurn ⟨features_, 0⟩
    let features_ := s.features_.take (s.prev + 1)
    some (features_, if features_.length = 0 then 0 else loss_)

/-- The masked features, each once, with the sums of the scores. -/
structure Finalized (mask_ : UInt32) (scored result : List ScoredFeature) : Prop where
  increasing : Increasing result
  features : ∀ f, f ∈ result.map ScoredFeature.feature ↔ f ∈ scored.map fun s => s.feature &&& mask_
  score : ∀ s ∈ result, s.score =
    ((scored.filter fun t => t.feature &&& mask_ = s.feature).map ScoredFeature.score).sum

/-! ## Both sides -/

/-- The order in which a set of features is gone over. -/
structure SetOrder where
  order : Finset UInt32 → List UInt32
  nodup : ∀ s, (order s).Nodup
  mem : ∀ s f, f ∈ order s ↔ f ∈ s

/-- What a call reads of the analyzer and of the example: the nodes that end at a boundary, whether a
node matches, and what `calculateNgramFeatures` leaves in the buffer. -/
structure Analyzed (n : Nat) where
  ends : Nat → List LatticeNodePtr
  doesNodeMatch : LatticeNodePtr → Bool
  ngrams : NgramFeatureRef → Vector UInt32 n

section Sides

variable {n : Nat} (an : Analyzed n)

structure Sides where
  goodFeatures_ : Finset UInt32
  badFeatures_ : Finset UInt32

/-- The connection with its two predecessors. -/
def refOf (t0 : ConnectionPtr) : NgramFeatureRef :=
  ⟨t0.previous.previous.latticeNodePtr, t0.previous.latticeNodePtr, t0.latticeNodePtr⟩

def insertFeatures (s : Finset UInt32) (nfr : NgramFeatureRef) : Finset UInt32 :=
  s ∪ (an.ngrams nfr).toList.toFinset

/-- The n-grams of the words behind, when these match and the good node could stand before them. -/
def addBiTriCorrections (good bad badPrev badPrev2 : ConnectionPtr) (sides : Sides) : Sides :=
  if badPrev = .null ∨ an.doesNodeMatch badPrev.latticeNodePtr = false then sides
  else if good.latticeNodePtr ∉ an.ends badPrev.boundary then sides
  else
    let sides : Sides := {
      goodFeatures_ := insertFeatures an sides.goodFeatures_
        ⟨good.previous.latticeNodePtr, good.latticeNodePtr, badPrev.latticeNodePtr⟩
      badFeatures_ := insertFeatures an sides.badFeatures_
        ⟨bad.previous.latticeNodePtr, bad.latticeNodePtr, badPrev.latticeNodePtr⟩ }
    if badPrev2 = .null ∨ an.doesNodeMatch badPrev2.latticeNodePtr = false then sides
    else {
      goodFeatures_ := insertFeatures an sides.goodFeatures_
        ⟨good.latticeNodePtr, badPrev.latticeNodePtr, badPrev2.latticeNodePtr⟩
      badFeatures_ := insertFeatures an sides.badFeatures_
        ⟨bad.latticeNodePtr, badPrev.latticeNodePtr, badPrev2.latticeNodePtr⟩ }

/-- The features of the candidates. -/
def candidateFeatures (good : List ConnectionBeamElement) : Finset UInt32 :=
  good.foldl (fun s node => insertFeatures an s (refOf node.ptr)) ∅

/-- What stands on the two sides in the end. -/
def gatherSides (good : List ConnectionBeamElement) (bad badPrev badPrev2 : ConnectionPtr) : Sides :=
  let sides : Sides := ⟨candidateFeatures an good, ∅⟩
  let sides := match good with
    | [] => sides
    | node :: _ => addBiTriCorrections an node.ptr bad badPrev badPrev2 sides
  { sides with badFeatures_ := insertFeatures an sides.badFeatures_ (refOf bad) }

/-- The loops over both sets. -/
def scoreSides (iteration : SetOrder) (sides : Sides) (features_ : List ScoredFeature) :
    List ScoredFeature :=
  let onlyBad := (iteration.order sides.badFeatures_).filter (· ∉ sides.goodFeatures_)
  let features_ := features_ ++ onlyBad.map fun f => ⟨f, -1⟩
  let numBad := onlyBad.length
  let onlyGood := (iteration.order sides.goodFeatures_).filter (· ∉ sides.badFeatures_)
  let numGood := onlyGood.length
  let goodWeight : Score := if numGood ≠ 0 then numBad / numGood else 0
  features_ ++ onlyGood.map fun f => ⟨f, goodWeight⟩

def addFeatures (iteration : SetOrder) (good : List ConnectionBeamElement)
    (bad badPrev badPrev2 : ConnectionPtr) (features_ : List ScoredFeature) : List ScoredFeature :=
  if candidateFeatures an good = ∅ then features_
  else scoreSides iteration (gatherSides an good bad badPrev badPrev2) features_

end Sides

/-- One entry for each feature that only one of the sides has. -/
structure AddsSides (sides : Sides) (added : List ScoredFeature) : Prop where
  onlyBad : ∀ f ∈ sides.badFeatures_, f ∉ sides.goodFeatures_ → entries f added = [⟨f, -1⟩]
  onlyGood : ∃ goodWeight, ∀ f ∈ sides.goodFeatures_, f ∉ sides.badFeatures_ →
    entries f added = [⟨f, goodWeight⟩]
  others : ∀ f, (f ∈ sides.goodFeatures_ ↔ f ∈ sides.badFeatures_) → entries f added = []
  balanced : (∃ f ∈ sides.goodFeatures_, f ∉ sides.badFeatures_) →
    (added.map ScoredFeature.score).sum = 0

/-! ## The loop that merges -/

/-- Merging the rest of a sorted vector, one element after the other. -/
def mergeRest (scored : ScoredVector) (rest : List ScoredFeature) : ScoredVector :=
  rest.foldl (fun scored f => scored.mergeOne f.feature f.score) scored

/-- The vector is what is merged, a gap with what was moved away, and what is still to be read. -/
structure MergesTo (s : MergeState) (scored : ScoredVector) (gap rest : List ScoredFeature) : Prop where
  features : s.features_ = scored.front ++ scored.back :: (gap ++ rest)
  prev : s.prev = scored.front.length

theorem MergesTo.turn {s : MergeState} {scored : ScoredVector} {gap rest : List ScoredFeature}
    {curItem : ScoredFeature} (h : MergesTo s scored gap (curItem :: rest)) :
    ∃ s' gap', mergeTurn s (scored.front.length + 1 + gap.length) = some s' ∧
      MergesTo s' (scored.mergeOne curItem.feature curItem.score) gap' rest ∧
      (scored.mergeOne curItem.feature curItem.score).front.length + 1 + gap'.length =
        scored.front.length + 1 + gap.length + 1 := by
  have hprev : s.features_[s.prev]? = some scored.back := by
    rw [h.features, h.prev]
    simp
  have hsplit : s.features_ = (scored.front ++ scored.back :: gap) ++ curItem :: rest := by
    rw [h.features]
    simp
  have hcur : s.features_[scored.front.length + 1 + gap.length]? = some curItem := by
    rw [hsplit, List.getElem?_append_right (by simp; omega)]
    simp [Nat.add_comm, Nat.add_left_comm]
  unfold mergeTurn
  rw [hprev, hcur]
  simp only [Option.bind_eq_bind, Option.bind_some]
  by_cases heq : scored.back.feature = curItem.feature
  · -- the element is added to the last one that is done, and its place joins the gap
    have hone : scored.mergeOne curItem.feature curItem.score =
        ⟨scored.front, { scored.back with score := scored.back.score + curItem.score }⟩ := by
      simp [ScoredVector.mergeOne, heq]
    rw [if_pos heq, hone]
    refine ⟨_, gap ++ [curItem], rfl, ⟨?_, h.prev⟩, ?_⟩
    · rw [h.features, h.prev]
      simp
    · simp only [List.length_append, List.length_singleton]
      omega
  · have hone : scored.mergeOne curItem.feature curItem.score = ⟨scored.toList, curItem⟩ := by
      simp [ScoredVector.mergeOne, heq, ScoredVector.push_back]
    rw [if_neg heq, hone]
    cases gap with
    | nil =>
        refine ⟨_, [], rfl, ⟨?_, ?_⟩, ?_⟩
        · rw [if_neg (by rw [h.prev]; simp), h.features]
          simp [ScoredVector.toList]
        · simp [h.prev, ScoredVector.toList]
        · simp [ScoredVector.toList]
    | cons g gap =>
        -- the first place of the gap takes the element
        refine ⟨_, gap ++ [curItem], rfl, ⟨?_, ?_⟩, ?_⟩
        · rw [if_pos (by rw [h.prev]; simp), h.features, h.prev]
          simp [ScoredVector.toList]
        · simp [h.prev, ScoredVector.toList]
        · simp [ScoredVector.toList]
          omega

theorem MergesTo.turns {s : MergeState} {scored : ScoredVector} {gap rest : List ScoredFeature}
    (h : MergesTo s scored gap rest) :
    ∃ s' gap', (List.range' (scored.front.length + 1 + gap.length) rest.length).foldlM mergeTurn s =
      some s' ∧ MergesTo s' (mergeRest scored rest) gap' [] := by
  induction rest generalizing s scored gap with
  | nil => exact ⟨s, gap, rfl, h⟩
  | cons curItem rest ih =>
      obtain ⟨s₁, gap₁, hturn, hmerges, hlength⟩ := h.turn
      obtain ⟨s', gap', hturns, hend⟩ := ih hmerges
      refine ⟨s', gap', ?_, hend⟩
      rw [List.length_cons, List.range'_succ, List.foldlM_cons, hturn]
      rw [hlength] at hturns
      exact hturns

theorem MergesTo.take {s : MergeState} {scored : ScoredVector} {gap : List ScoredFeature}
    (h : MergesTo s scored gap []) : s.features_.take (s.prev + 1) = scored.toList := by
  have hsplit : scored.front ++ scored.back :: gap = scored.toList ++ gap := by
    simp [ScoredVector.toList]
  have hlength : scored.toList.length = scored.front.length + 1 := by
    simp [ScoredVector.toList]
  rw [h.features, h.prev, List.append_nil, hsplit, List.take_left' hlength]

/-- Merging sorted elements keeps what an increasing vector stands for. -/
theorem mergeRest_entries {scored : ScoredVector} {rest : List ScoredFeature}
    (h : Increasing scored.toList) (hrest : rest.Pairwise fun f1 f2 => f1.feature ≤ f2.feature)
    (hback : ∀ f ∈ rest, scored.back.feature ≤ f.feature) :
    Increasing (mergeRest scored rest).toList ∧ ∀ f,
      (f ∈ (mergeRest scored rest).toList.map ScoredFeature.feature ↔
        f ∈ (scored.toList ++ rest).map ScoredFeature.feature) ∧
      entrySum f (mergeRest scored rest).toList = entrySum f (scored.toList ++ rest) := by
  induction rest generalizing scored with
  | nil =>
      rw [List.append_nil]
      exact ⟨h, fun f => ⟨Iff.rfl, rfl⟩⟩
  | cons g rest ih =>
      obtain ⟨hg, hrest⟩ := List.pairwise_cons.mp hrest
      have hle := hback g List.mem_cons_self
      obtain ⟨hincreasing, hall⟩ := ih (ScoredVector.mergeOne_increasing h hle g.score) hrest
        fun f hf => (ScoredVector.mergeOne_back ..).trans_le (hg f hf)
      refine ⟨hincreasing, fun f => ?_⟩
      obtain ⟨hfeatures, hsum⟩ := hall f
      constructor
      · refine hfeatures.trans ?_
        rw [List.map_append, List.mem_append, ScoredVector.mergeOne_features, List.map_append,
          List.map_cons, List.mem_append, List.mem_cons, or_assoc]
      · refine hsum.trans ?_
        rw [entrySum_append, ScoredVector.mergeOne_entrySum, entrySum_append,
          ← List.singleton_append, entrySum_append, entrySum_singleton, add_assoc]

theorem entrySum_perm {l r : List ScoredFeature} (h : l.Perm r) (f : UInt32) :
    entrySum f l = entrySum f r :=
  ((h.filter _).map _).sum_eq

theorem entrySum_masked (mask_ f : UInt32) (scored : List ScoredFeature) :
    entrySum f (scored.map fun s => { s with feature := s.feature &&& mask_ }) =
      ((scored.filter fun t => t.feature &&& mask_ = f).map ScoredFeature.score).sum := by
  rw [entrySum, entries, List.filter_map, List.map_map]
  rfl

/-- An increasing vector has the sums of all entries if it has the sums of the sorted ones. -/
theorem finalized_of_entries {mask_ : UInt32} {scored sorted result : List ScoredFeature}
    (hperm : sorted.Perm (scored.map fun s => { s with feature := s.feature &&& mask_ }))
    (hincreasing : Increasing result)
    (hall : ∀ f, (f ∈ result.map ScoredFeature.feature ↔ f ∈ sorted.map ScoredFeature.feature) ∧
      entrySum f result = entrySum f sorted) : Finalized mask_ scored result := by
  refine ⟨hincreasing, fun f => ?_, fun s hs => ?_⟩
  · refine (hall f).1.trans ?_
    rw [(hperm.map ScoredFeature.feature).mem_iff, List.map_map]
    rfl
  · have hentries := entries_of_increasing hincreasing s.feature
    rw [if_pos (List.mem_map_of_mem hs)] at hentries
    have hmem : s ∈ entries s.feature result := List.mem_filter.mpr ⟨hs, by simp⟩
    rw [hentries, List.mem_singleton] at hmem
    rw [← entrySum_masked, ← entrySum_perm hperm, ← (hall s.feature).2]
    exact congrArg ScoredFeature.score hmem

theorem finalizeFeatures_finalized (sorting : FeatureSort) (mask_ : UInt32)
    (features_ : List ScoredFeature) (loss_ : Score) :
    ∃ result loss, finalizeFeatures sorting mask_ features_ loss_ = some (result, loss) ∧
      Finalized mask_ features_ result := by
  have hperm := sorting.perm (features_.map fun f => { f with feature := f.feature &&& mask_ })
  have hsorted := sorting.sorted (features_.map fun f => { f with feature := f.feature &&& mask_ })
  unfold finalizeFeatures
  generalize sorting.sort (features_.map fun f => { f with feature := f.feature &&& mask_ }) =
    sorted at hperm hsorted
  cases sorted with
  | nil =>
      exact ⟨[], 0, rfl, finalized_of_entries hperm List.Pairwise.nil fun f => ⟨Iff.rfl, rfl⟩⟩
  | cons first rest =>
      obtain ⟨hfirst, hrest⟩ := List.pairwise_cons.mp hsorted
      have hstart : MergesTo ⟨first :: rest, 0⟩ ⟨[], first⟩ [] rest := ⟨rfl, rfl⟩
      have hincreasing : Increasing (ScoredVector.toList ⟨[], first⟩) := List.pairwise_singleton ..
      obtain ⟨hmerged, hall⟩ := mergeRest_entries hincreasing hrest hfirst
      have hresult := finalized_of_entries hperm hmerged hall
      cases rest with
      | nil => exact ⟨[first], 0, rfl, hresult⟩
      | cons second rest =>
          obtain ⟨s, gap, hturns, hend⟩ := hstart.turns
          have hmany : ¬ (first :: second :: rest).length ≤ 1 := by simp
          refine ⟨_, if (mergeRest ⟨[], first⟩ (second :: rest)).toList.length = 0 then 0 else loss_, ?_,
            hresult⟩
          dsimp only
          rw [if_neg hmany]
          exact Option.bind_eq_some_iff.mpr ⟨s, hturns, by rw [hend.take]⟩

/-! ## The scores of both sides -/

theorem filter_eq_singleton {l : List UInt32} (h : l.Nodup) {f : UInt32} (hf : f ∈ l) :
    (l.filter fun g => g = f) = [f] := by
  induction l with
  | nil => cases hf
  | cons g l ih =>
      obtain ⟨hg, hl⟩ := List.nodup_cons.mp h
      by_cases heq : g = f
      · subst heq
        have hnone : (l.filter fun x => x = g) = [] := by
          rw [List.filter_eq_nil_iff]
          intro x hx
          simp only [decide_eq_true_eq]
          rintro rfl
          exact hg hx
        rw [List.filter_cons_of_pos (by simp), hnone]
      · have hmem : f ∈ l := by
          obtain rfl | hmem := List.mem_cons.mp hf
          · exact absurd rfl heq
          · exact hmem
        rw [List.filter_cons_of_neg (by simpa using heq)]
        exact ih hl hmem

/-- The entries of a feature among features that all have one score. -/
theorem entries_map {l : List UInt32} (h : l.Nodup) (score : Score) (f : UInt32) :
    entries f (l.map fun g => ⟨g, score⟩) = if f ∈ l then [⟨f, score⟩] else [] := by
  have hfilter : entries f (l.map fun g => (⟨g, score⟩ : ScoredFeature)) =
      (l.filter fun g => g = f).map fun g => ⟨g, score⟩ := by
    rw [entries, List.filter_map]
    rfl
  rw [hfilter]
  split_ifs with hf
  · rw [filter_eq_singleton h hf]
    rfl
  · have hnone : (l.filter fun g => g = f) = [] := by
      rw [List.filter_eq_nil_iff]
      intro g hg
      simp only [decide_eq_true_eq]
      rintro rfl
      exact hf hg
    rw [hnone]
    rfl

theorem sum_map_const (l : List UInt32) (score : Score) :
    ((l.map fun f => (⟨f, score⟩ : ScoredFeature)).map ScoredFeature.score).sum = l.length * score := by
  rw [List.map_map]
  show (l.map fun _ => score).sum = _
  rw [List.map_const', List.sum_replicate, nsmul_eq_mul]

/-- What the loops append. -/
theorem scoreSides_adds (iteration : SetOrder) (sides : Sides) (features_ : List ScoredFeature) :
    ∃ added, scoreSides iteration sides features_ = features_ ++ added ∧ AddsSides sides added := by
  have hbad : ((iteration.order sides.badFeatures_).filter (· ∉ sides.goodFeatures_)).Nodup :=
    (iteration.nodup _).filter _
  have hgood : ((iteration.order sides.goodFeatures_).filter (· ∉ sides.badFeatures_)).Nodup :=
    (iteration.nodup _).filter _
  have hmemBad : ∀ f, f ∈ (iteration.order sides.badFeatures_).filter (· ∉ sides.goodFeatures_) ↔
      f ∈ sides.badFeatures_ ∧ f ∉ sides.goodFeatures_ := by
    intro f
    rw [List.mem_filter, iteration.mem, decide_eq_true_eq]
  have hmemGood : ∀ f, f ∈ (iteration.order sides.goodFeatures_).filter (· ∉ sides.badFeatures_) ↔
      f ∈ sides.goodFeatures_ ∧ f ∉ sides.badFeatures_ := by
    intro f
    rw [List.mem_filter, iteration.mem, decide_eq_true_eq]
  unfold scoreSides
  generalize (iteration.order sides.badFeatures_).filter (· ∉ sides.goodFeatures_) = onlyBad
    at hbad hmemBad
  generalize (iteration.order sides.goodFeatures_).filter (· ∉ sides.badFeatures_) = onlyGood
    at hgood hmemGood
  dsimp only
  generalize hweight : (if onlyGood.length ≠ 0 then (onlyBad.length : Score) / onlyGood.length else 0) =
    goodWeight
  refine ⟨onlyBad.map (fun f => ⟨f, -1⟩) ++ onlyGood.map fun f => ⟨f, goodWeight⟩,
    List.append_assoc .., ?_⟩
  have hentries : ∀ f, entries f (onlyBad.map (fun f => (⟨f, -1⟩ : ScoredFeature)) ++
      onlyGood.map fun f => ⟨f, goodWeight⟩) =
      (if f ∈ onlyBad then [⟨f, -1⟩] else []) ++ if f ∈ onlyGood then [⟨f, goodWeight⟩] else [] := by
    intro f
    rw [entries_append, entries_map hbad, entries_map hgood]
  constructor
  case onlyBad =>
    intro f hf hnot
    rw [hentries, if_pos ((hmemBad f).mpr ⟨hf, hnot⟩), if_neg fun h => hnot ((hmemGood f).mp h).1,
      List.append_nil]
  case onlyGood =>
    refine ⟨goodWeight, fun f hf hnot => ?_⟩
    rw [hentries, if_pos ((hmemGood f).mpr ⟨hf, hnot⟩), if_neg fun h => hnot ((hmemBad f).mp h).1,
      List.nil_append]
  case others =>
    intro f hiff
    have hnotBad : f ∉ onlyBad := fun h => ((hmemBad f).mp h).2 (hiff.mpr ((hmemBad f).mp h).1)
    have hnotGood : f ∉ onlyGood := fun h => ((hmemGood f).mp h).2 (hiff.mp ((hmemGood f).mp h).1)
    rw [hentries, if_neg hnotBad, if_neg hnotGood, List.append_nil]
  case balanced =>
    rintro ⟨f, hf, hnot⟩
    have hpos : onlyGood.length ≠ 0 := by
      intro hzero
      have hmem := (hmemGood f).mpr ⟨hf, hnot⟩
      rw [List.length_eq_zero_iff.mp hzero] at hmem
      cases hmem
    rw [if_pos hpos] at hweight
    rw [List.map_append, List.sum_append, sum_map_const, sum_map_const, ← hweight]
    have hne : (onlyGood.length : Score) ≠ 0 := Nat.cast_ne_zero.mpr hpos
    field_simp
    ring

/-! ## A call with candidates -/

section Calls

variable {n : Nat} (an : Analyzed n)

theorem subset_candidateFeatures (good : List ConnectionBeamElement) (s : Finset UInt32) :
    s ⊆ good.foldl (fun s node => insertFeatures an s (refOf node.ptr)) s := by
  induction good generalizing s with
  | nil => exact Finset.Subset.refl s
  | cons node good ih => exact Finset.subset_union_left.trans (ih _)

/-- Candidates have features unless no connection has any. -/
theorem eq_zero_of_candidateFeatures {good : List ConnectionBeamElement} (hgood : good ≠ [])
    (h : candidateFeatures an good = ∅) : n = 0 := by
  obtain ⟨node, good, rfl⟩ := List.exists_cons_of_ne_nil hgood
  by_contra hn
  have hlt : 0 < (an.ngrams (refOf node.ptr)).toList.length := by
    rw [Vector.length_toList]
    omega
  have hmem : (an.ngrams (refOf node.ptr)).toList[0] ∈ insertFeatures an ∅ (refOf node.ptr) := by
    rw [insertFeatures, Finset.mem_union, List.mem_toFinset]
    exact .inr (List.getElem_mem hlt)
  have hall : (an.ngrams (refOf node.ptr)).toList[0] ∈ candidateFeatures an (node :: good) :=
    subset_candidateFeatures an good _ hmem
  rw [h] at hall
  exact absurd hall (Finset.notMem_empty _)

theorem insertFeatures_zero (an : Analyzed 0) (s : Finset UInt32) (nfr : NgramFeatureRef) :
    insertFeatures an s nfr = s := by
  have hnil : (an.ngrams nfr).toList = [] := List.eq_nil_of_length_eq_zero Vector.length_toList
  rw [insertFeatures, hnil]
  exact Finset.union_empty s

theorem addBiTriCorrections_zero (an : Analyzed 0) (good bad badPrev badPrev2 : ConnectionPtr)
    (sides : Sides) : addBiTriCorrections an good bad badPrev badPrev2 sides = sides := by
  unfold addBiTriCorrections
  simp only [insertFeatures_zero]
  split_ifs
  all_goals rfl

theorem gatherSides_zero (an : Analyzed 0) (good : List ConnectionBeamElement)
    (bad badPrev badPrev2 : ConnectionPtr) (h : candidateFeatures an good = ∅) :
    gatherSides an good bad badPrev badPrev2 = ⟨∅, ∅⟩ := by
  unfold gatherSides
  rw [h]
  cases good with
  | nil => simp only [insertFeatures_zero]
  | cons node good => simp only [insertFeatures_zero, addBiTriCorrections_zero]

theorem addFeatures_nil (iteration : SetOrder) (bad badPrev badPrev2 : ConnectionPtr)
    (features_ : List ScoredFeature) :
    addFeatures an iteration [] bad badPrev badPrev2 features_ = features_ :=
  if_pos rfl

theorem addFeatures_adds (iteration : SetOrder) {good : List ConnectionBeamElement} (hgood : good ≠ [])
    (bad badPrev badPrev2 : ConnectionPtr) (features_ : List ScoredFeature) :
    ∃ added, addFeatures an iteration good bad badPrev badPrev2 features_ = features_ ++ added ∧
      AddsSides (gatherSides an good bad badPrev badPrev2) added := by
  unfold addFeatures
  by_cases hempty : candidateFeatures an good = ∅
  · have hn := eq_zero_of_candidateFeatures an hgood hempty
    subst hn
    rw [if_pos hempty, gatherSides_zero an good bad badPrev badPrev2 hempty]
    refine ⟨[], (List.append_nil _).symm, ?_⟩
    exact ⟨by simp, ⟨0, by simp⟩, fun _ _ => rfl, by simp⟩
  · rw [if_neg hempty]
    exact scoreSides_adds iteration _ features_

/-- The final vector, and what each call adds to it: a call without candidates adds nothing. -/
theorem finalizeFeatures_addFeatures (sorting : FeatureSort) (iteration : SetOrder) :
    (∀ mask_ features_ loss_, ∃ result loss,
      finalizeFeatures sorting mask_ features_ loss_ = some (result, loss) ∧
        Finalized mask_ features_ result) ∧
    ∀ good bad badPrev badPrev2 features_,
      (good ≠ [] → ∃ added,
        addFeatures an iteration good bad badPrev badPrev2 features_ = features_ ++ added ∧
          AddsSides (gatherSides an good bad badPrev badPrev2) added) ∧
      (good = [] → addFeatures an iteration good bad badPrev badPrev2 features_ = features_) := by
  refine ⟨finalizeFeatures_finalized sorting, fun good bad badPrev badPrev2 features_ => ⟨?_, ?_⟩⟩
  · intro hgood
    exact addFeatures_adds an iteration hgood bad badPrev badPrev2 features_
  · rintro rfl
    exact addFeatures_nil an iteration bad badPrev badPrev2 features_

end Calls

/-! ## A call without candidates -/

theorem stable_sorted (l : List ScoredFeature) :
    (l.mergeSort fun f1 f2 => f1.feature ≤ f2.feature).Pairwise fun f1 f2 => f1.feature ≤ f2.feature := by
  have htrans : ∀ f1 f2 f3 : ScoredFeature, decide (f1.feature ≤ f2.feature) = true →
      decide (f2.feature ≤ f3.feature) = true → decide (f1.feature ≤ f3.feature) = true := by
    intro f1 f2 f3 h12 h23
    rw [decide_eq_true_eq] at h12 h23 ⊢
    exact le_trans h12 h23
  have htotal : ∀ f1 f2 : ScoredFeature,
      (decide (f1.feature ≤ f2.feature) || decide (f2.feature ≤ f1.feature)) = true := by
    intro f1 f2
    rw [Bool.or_eq_true, decide_eq_true_eq, decide_eq_true_eq]
    exact le_total _ _
  exact (List.pairwise_mergeSort htrans htotal l).imp of_decide_eq_true

def stableSort : FeatureSort where
  sort := fun l => l.mergeSort fun f1 f2 => f1.feature ≤ f2.feature
  perm := fun l => List.mergeSort_perm l _
  sorted := stable_sorted

def increasingOrder : SetOrder where
  order := fun s => s.sort (· ≤ ·)
  nodup := fun s => s.sort_nodup (· ≤ ·)
  mem := fun s _ => s.mem_sort (· ≤ ·)

/-- A lattice in which each connection has one feature, the boundary of its node. -/
def boundaryFeature : Analyzed 1 where
  ends := fun _ => []
  doesNodeMatch := fun _ => true
  ngrams := fun nfr => #v[UInt32.ofNat nfr.t0.boundary]

def atBoundary (boundary : Nat) : ConnectionPtr := .conn boundary 0 0 0 .null

theorem addFeatures_boundaryFeature : ∃ added,
    addFeatures boundaryFeature increasingOrder [⟨atBoundary 3, 0⟩] (atBoundary 2) .null .null [] =
        [] ++ added ∧
      AddsSides (gatherSides boundaryFeature [⟨atBoundary 3, 0⟩] (atBoundary 2) .null .null) added :=
  ((finalizeFeatures_addFeatures boundaryFeature stableSort increasingOrder).2
    [⟨atBoundary 3, 0⟩] (atBoundary 2) .null .null []).1 (List.cons_ne_nil _ _)

/-- Without a candidate the feature of the bad node is on the bad side alone, and nothing is added. -/
theorem addFeatures_no_candidate :
    ¬ ∀ (n : Nat) (an : Analyzed n) (iteration : SetOrder) (good : List ConnectionBeamElement)
        (bad badPrev badPrev2 : ConnectionPtr) (features_ : List ScoredFeature), ∃ added,
        addFeatures an iteration good bad badPrev badPrev2 features_ = features_ ++ added ∧
          AddsSides (gatherSides an good bad badPrev badPrev2) added := by
  intro h
  obtain ⟨added, hadded, hsides⟩ :=
    h 1 boundaryFeature increasingOrder [] (atBoundary 2) .null .null []
  have hnil : added = [] := hadded.symm
  have hentry := hsides.onlyBad 2 (by decide) (by decide)
  rw [hnil] at hentry
  cases hentry

end PartialTrainer

end Jumanpp.Core.Training
