import Jumanpp.Core.Impl.NgramSteps

/-!
# The n-gram features of the trainer

`NgramFeaturesComputer` hashes the features of a triple of nodes in one piece and in the order of
the spec, which is sorted by the order of the n-grams.
-/

namespace Jumanpp.Core.Features

open Jumanpp.Lib Jumanpp.Core.Analysis

/-! ## Both kinds of features from their descriptors -/

def NgramFeatureImpl.descriptor : NgramFeatureImpl → NgramFeatureDescriptor
  | .one index p0 => ⟨index, [p0]⟩
  | .two index p0 p1 => ⟨index, [p0, p1]⟩
  | .three index p0 p1 p2 => ⟨index, [p0, p1, p2]⟩

/-- The feature of a triple of nodes before it is masked. -/
def NgramFeatureDescriptor.value (t2 t1 t0 : PatternRow) (nf : NgramFeatureDescriptor) : UInt32 :=
  match nf.references with
  | [p0] => ((NgramFeatureImpl.one nf.index p0).hash t2 t1 t0).result.toUInt32
  | [p0, p1] => ((NgramFeatureImpl.two nf.index p0 p1).hash t2 t1 t0).result.toUInt32
  | [p0, p1, p2] => ((NgramFeatureImpl.three nf.index p0 p1 p2).hash t2 t1 t0).result.toUInt32
  | _ => 0

theorem NgramFeatureImpl.value_descriptor (f : NgramFeatureImpl) (t2 t1 t0 : PatternRow) :
    f.descriptor.value t2 t1 t0 = (f.hash t2 t1 t0).result.toUInt32 := by
  cases f <;> rfl

theorem UnigramFeature.value_eq (f : UnigramFeature) (t2 t1 t0 : PatternRow) (mask : UInt32) :
    f.value t0 mask = f.descriptor.value t2 t1 t0 &&& mask :=
  rfl

theorem BigramFeature.jointRaw_eq (f : BigramFeature) (t2 t1 t0 : PatternRow) (mask : UInt32) :
    f.jointRaw t0 t1 mask = f.descriptor.value t2 t1 t0 &&& mask :=
  rfl

theorem TrigramFeature.jointRaw_eq (f : TrigramFeature) (t2 t1 t0 : PatternRow) (mask : UInt32) :
    f.jointRaw t0 t1 t2 mask = f.descriptor.value t2 t1 t0 &&& mask :=
  rfl

/-- The unmasked features of a triple of nodes, in the order of the spec. -/
def NgramSpec.values (spec : NgramSpec) (t2 t1 t0 : PatternRow) : List UInt32 :=
  spec.ngram.map fun nf => nf.value t2 t1 t0

namespace NgramDynamicFeatureApply

theorem addChild_descriptor (children : NgramDynamicFeatureApply) {nf : NgramFeatureDescriptor}
    (horder : nf.references.length ∈ [1, 2, 3]) :
    ∃ child : NgramFeatureImpl, addChild children nf = .ok (children ++ [child]) ∧
      child.descriptor = nf := by
  obtain ⟨index, references⟩ := nf
  match references, horder with
  | [p0], _ => exact ⟨.one index p0, rfl, rfl⟩
  | [p0, p1], _ => exact ⟨.two index p0 p1, rfl, rfl⟩
  | [p0, p1, p2], _ => exact ⟨.three index p0 p1 p2, rfl, rfl⟩

theorem exists_make (spec : NgramSpec) :
    ∃ children, make spec = .ok children ∧ children.map (·.descriptor) = spec.ngram := by
  have hrest : ∀ (rest : List NgramFeatureDescriptor) (children : NgramDynamicFeatureApply),
      (∀ nf ∈ rest, nf.references.length ∈ [1, 2, 3]) → ∃ children',
        rest.foldlM addChild children = .ok children' ∧
        children'.map (·.descriptor) = children.map (·.descriptor) ++ rest := by
    intro rest
    induction rest with
    | nil =>
        intro children _
        exact ⟨children, rfl, by rw [List.append_nil]⟩
    | cons nf rest ih =>
        intro children horder
        obtain ⟨child, hadd, hchild⟩ := addChild_descriptor children (horder nf (by simp))
        obtain ⟨children', hmake, hmap⟩ := ih (children ++ [child]) fun nf hnf =>
          horder nf (List.mem_cons_of_mem _ hnf)
        refine ⟨children', ?_, ?_⟩
        · rw [List.foldlM_cons, hadd]
          exact hmake
        · rw [hmap, List.map_append, List.map_singleton, hchild, List.append_assoc]
          rfl
  obtain ⟨children, hmake, hmap⟩ := hrest spec.ngram [] spec.order_mem
  exact ⟨children, hmake, hmap⟩

theorem map_descriptor_of_make {spec : NgramSpec} {children : NgramDynamicFeatureApply}
    (h : make spec = .ok children) : children.map (·.descriptor) = spec.ngram := by
  obtain ⟨children', hmake, hmap⟩ := exists_make spec
  rw [h, Except.ok.injEq] at hmake
  rw [hmake]
  exact hmap

/-- The slot of a feature is its number in the spec, so a row of results holds all of them. -/
theorem apply_eq {spec : NgramSpec} {children : NgramDynamicFeatureApply}
    (hchildren : children.map (·.descriptor) = spec.ngram) {result : List UInt32}
    (hresult : result.length = spec.ngram.length) (t2 t1 t0 : PatternRow) :
    children.apply result t2 t1 t0 = some (spec.values t2 t1 t0) := by
  have hlen : children.length = spec.ngram.length := by rw [← hchildren, List.length_map]
  have hindex : ∀ (i : Nat) (h : i < children.length), children[i].index = i := by
    intro i h
    have hspec := spec.index_eq i (by omega)
    simp only [← hchildren, List.getElem_map] at hspec
    cases hc : children[i] <;> rw [hc] at hspec <;> exact hspec
  let v := slotValue children fun c => (c.hash t2 t1 t0).result.toUInt32
  have hfill : FillsRow children.length v (children.apply · t2 t1 t0) :=
    fillsRow_of_slots NgramFeatureImpl.index _ hindex fun _ _ _ => rfl
  refine (hfill result (by omega)).trans ?_
  congr 1
  have htake := take_overwrite (v := v) (show children.length ≤ result.length by omega)
  rw [List.take_of_length_le (by rw [length_overwrite]; omega)] at htake
  rw [htake, map_slotValue]
  unfold NgramSpec.values
  rw [← hchildren, List.map_map]
  exact List.map_congr_left fun c _ => (c.value_descriptor t2 t1 t0).symm

end NgramDynamicFeatureApply

/-! ## The orders in the spec -/

theorem ofOrder_of_forall {order : Nat} {l : List NgramFeatureDescriptor}
    (h : ∀ nf ∈ l, nf.references.length = order) : ofOrder order l = l := by
  unfold ofOrder
  rw [List.filter_eq_self]
  simpa using h

/-- Unigrams come first, then bigrams and trigrams. -/
theorem NgramSpec.ngram_eq (spec : NgramSpec) :
    spec.ngram = ofOrder 1 spec.ngram ++ (ofOrder 2 spec.ngram ++ ofOrder 3 spec.ngram) := by
  have horders : ∀ l : List NgramFeatureDescriptor,
      (∀ nf ∈ l, nf.references.length ∈ [1, 2, 3]) →
      l.Pairwise (fun f g => f.references.length ≤ g.references.length) →
      l = ofOrder 1 l ++ (ofOrder 2 l ++ ofOrder 3 l) := by
    intro l
    induction l with
    | nil => intro _ _; rfl
    | cons nf l ih =>
        intro horder hsorted
        rw [List.pairwise_cons] at hsorted
        obtain ⟨hle, hsorted⟩ := hsorted
        have hrest := ih (fun g hg => horder g (List.mem_cons_of_mem _ hg)) hsorted
        have hnf := horder nf (by simp)
        -- nothing of a lower order stands behind `nf`
        have hlow : ∀ order, order < nf.references.length → ofOrder order l = [] := by
          intro order hlt
          unfold ofOrder
          rw [List.filter_eq_nil_iff]
          intro g hg heq
          have hge := hle g hg
          rw [beq_iff_eq] at heq
          omega
        have hcons : ∀ order, ofOrder order (nf :: l) =
            ofOrder order [nf] ++ ofOrder order l := fun order => ofOrder_append order [nf] l
        rw [hcons, hcons, hcons, ofOrder_singleton, ofOrder_singleton, ofOrder_singleton]
        simp only [List.mem_cons, List.not_mem_nil, or_false] at hnf
        rcases hnf with h | h | h
        · simp only [h, ↓reduceIte, OfNat.one_ne_ofNat, List.nil_append]
          exact congrArg (nf :: ·) hrest
        · simp only [h, hlow 1 (by omega), ↓reduceIte, OfNat.ofNat_ne_one, Nat.reduceEqDiff,
            List.nil_append, List.append_nil]
          rw [hlow 1 (by omega), List.nil_append] at hrest
          exact congrArg (nf :: ·) hrest
        · simp only [h, hlow 1 (by omega), hlow 2 (by omega), ↓reduceIte, OfNat.ofNat_ne_one,
            Nat.reduceEqDiff, List.nil_append, List.append_nil]
          rw [hlow 1 (by omega), hlow 2 (by omega), List.nil_append, List.nil_append] at hrest
          exact congrArg (nf :: ·) hrest
  exact horders spec.ngram spec.order_mem spec.sorted

/-! ## `NgramFeaturesComputer` -/

structure NgramFeatureRef where
  t2 : LatticeNodePtr
  t1 : LatticeNodePtr
  t0 : LatticeNodePtr

namespace NgramFeatureRef

def init (ptr : LatticeNodePtr) : NgramFeatureRef where
  t2 := ⟨0, 0⟩  -- BOS0
  t1 := ⟨1, 0⟩  -- BOS1
  t0 := ptr

def next (ref : NgramFeatureRef) (ptr : LatticeNodePtr) : NgramFeatureRef where
  t2 := ref.t1
  t1 := ref.t0
  t0 := ptr

end NgramFeatureRef

def calculateNgramFeatures (features : NgramDynamicFeatureApply)
    (patterns : LatticeNodePtr → PatternRow) (ptrs : NgramFeatureRef) (result : List UInt32) :
    Option (List UInt32) :=
  features.apply result (patterns ptrs.t2) (patterns ptrs.t1) (patterns ptrs.t0)

inductive NgramSubset
  | unigrams
  | bigrams
  | trigrams
  | uniBi
  | biTri
  | all
deriving DecidableEq

namespace NgramSubset

/-- The flags of the enumeration. -/
def flags : NgramSubset → Nat
  | unigrams => 1
  | bigrams => 2
  | trigrams => 4
  | uniBi => 1 ||| 2
  | biTri => 2 ||| 4
  | all => 1 ||| 2 ||| 4

def includes (what : NgramSubset) (order : Nat) : Bool :=
  what.flags.testBit (order - 1)

end NgramSubset

def subset (x : PartialNgramFeatures) (original : List UInt32) (what : NgramSubset) :
    List UInt32 :=
  match what with
  | .unigrams => original.take x.numUnigrams
  | .bigrams => (original.drop x.numUnigrams).take x.numBigrams
  | .trigrams => (original.drop (x.numUnigrams + x.numBigrams)).take x.numTrigrams
  | .uniBi => original.take (x.numUnigrams + x.numBigrams)
  | .biTri => (original.drop x.numUnigrams).take (x.numBigrams + x.numTrigrams)
  | _ => []  -- should not reach here

/-- The features of a row whose n-grams have one of the requested orders. -/
def NgramSpec.requested (spec : NgramSpec) (what : NgramSubset) (original : List UInt32) :
    List UInt32 :=
  ((spec.ngram.zip original).filter fun x => what.includes x.1.references.length).map (·.2)

theorem requested_ofOrder (what : NgramSubset) {order : Nat} {l : List NgramFeatureDescriptor}
    {r : List UInt32} (hl : ∀ nf ∈ l, nf.references.length = order)
    (hlen : l.length = r.length) :
    ((l.zip r).filter fun x => what.includes x.1.references.length).map (·.2) =
      if what.includes order then r else [] := by
  have hall : ∀ x ∈ l.zip r, what.includes x.1.references.length = what.includes order := by
    intro x hx
    rw [hl x.1 (List.of_mem_zip hx).1]
  split_ifs with h
  · rw [List.filter_eq_self.mpr fun x hx => (hall x hx).trans h, List.map_snd_zip (by omega)]
  · rw [List.filter_eq_nil_iff.mpr fun x hx => by rw [hall x hx]; exact h]
    rfl

namespace PartialNgramFeatures

variable {spec : NgramSpec} {child : PartialNgramFeatures}

theorem BuiltFrom.numUnigrams_eq (h : child.BuiltFrom spec.ngram) :
    child.numUnigrams = (ofOrder 1 spec.ngram).length := by
  rw [← h.unigrams, List.length_map]
  rfl

theorem BuiltFrom.numBigrams_eq (h : child.BuiltFrom spec.ngram) :
    child.numBigrams = (ofOrder 2 spec.ngram).length := by
  rw [← h.bigrams, List.length_map]
  rfl

theorem BuiltFrom.numTrigrams_eq (h : child.BuiltFrom spec.ngram) :
    child.numTrigrams = (ofOrder 3 spec.ngram).length := by
  rw [← h.trigrams, List.length_map]
  rfl

/-- A row of features falls into its unigrams, bigrams and trigrams. -/
theorem BuiltFrom.exists_split (h : child.BuiltFrom spec.ngram) {original : List UInt32}
    (hlen : original.length = spec.ngram.length) :
    ∃ u b t, original = u ++ (b ++ t) ∧ u.length = child.numUnigrams ∧
      b.length = child.numBigrams ∧ t.length = child.numTrigrams := by
  have hspec := congrArg List.length spec.ngram_eq
  rw [List.length_append, List.length_append, ← h.numUnigrams_eq, ← h.numBigrams_eq,
    ← h.numTrigrams_eq] at hspec
  refine ⟨original.take child.numUnigrams,
    (original.drop child.numUnigrams).take child.numBigrams,
    (original.drop child.numUnigrams).drop child.numBigrams, ?_, ?_, ?_, ?_⟩
  · rw [List.take_append_drop, List.take_append_drop]
  · rw [List.length_take]
    omega
  · rw [List.length_take, List.length_drop]
    omega
  · rw [List.length_drop, List.length_drop]
    omega

theorem requested_append (h : child.BuiltFrom spec.ngram) (what : NgramSubset)
    {u b t : List UInt32} (hu : u.length = child.numUnigrams) (hb : b.length = child.numBigrams)
    (ht : t.length = child.numTrigrams) :
    spec.requested what (u ++ (b ++ t)) =
      (if what.includes 1 then u else []) ++ ((if what.includes 2 then b else []) ++
        (if what.includes 3 then t else [])) := by
  have horder : ∀ order, ∀ nf ∈ ofOrder order spec.ngram, nf.references.length = order := by
    intro order nf hnf
    unfold ofOrder at hnf
    rw [List.mem_filter, beq_iff_eq] at hnf
    exact hnf.2
  unfold NgramSpec.requested
  rw [spec.ngram_eq, List.zip_append (by rw [hu, h.numUnigrams_eq]),
    List.zip_append (by rw [hb, h.numBigrams_eq]), List.filter_append, List.filter_append,
    List.map_append, List.map_append,
    requested_ofOrder what (horder 1) (by rw [hu, h.numUnigrams_eq]),
    requested_ofOrder what (horder 2) (by rw [hb, h.numBigrams_eq]),
    requested_ofOrder what (horder 3) (by rw [ht, h.numTrigrams_eq])]

/-- All subsets but the full one are the requested ones. -/
theorem subset_eq_requested_iff (h : child.BuiltFrom spec.ngram) (what : NgramSubset)
    {original : List UInt32} (hlen : original.length = spec.ngram.length) :
    subset child original what = spec.requested what original ↔
      what ≠ .all ∨ spec.ngram = [] := by
  obtain ⟨u, b, t, rfl, hu, hb, ht⟩ := h.exists_split hlen
  rw [requested_append h what hu hb ht]
  cases what with
  | unigrams => simp [subset, NgramSubset.includes, NgramSubset.flags, ← hu, Nat.testBit]
  | bigrams => simp [subset, NgramSubset.includes, NgramSubset.flags, ← hu, ← hb, Nat.testBit]
  | trigrams =>
      simp [subset, NgramSubset.includes, NgramSubset.flags, ← hu, ← hb, ← ht, Nat.testBit,
        ← List.drop_drop]
  | uniBi =>
      simp [subset, NgramSubset.includes, NgramSubset.flags, ← hu, ← hb, Nat.testBit,
        List.take_add]
  | biTri =>
      simp [subset, NgramSubset.includes, NgramSubset.flags, ← hu, ← hb, ← ht, Nat.testBit,
        List.take_add]
  | all =>
      have hnil : spec.ngram = [] ↔ u ++ (b ++ t) = [] := by
        rw [← List.length_eq_zero_iff, ← hlen, List.length_eq_zero_iff]
      rw [hnil]
      simp [subset, NgramSubset.includes, NgramSubset.flags, Nat.testBit, eq_comm]

end PartialNgramFeatures

/-! ## The features of the analysis -/

/-- The features that the steps and the joint forms of the analysis compute for a triple of nodes
are those of the trainer, masked. -/
structure StepsAgree (child : PartialNgramFeatures) (mask : UInt32) (t2 t1 t0 : PatternRow)
    (features : List UInt32) : Prop where
  unigrams : ∀ result, child.numUnigrams ≤ result.length → ∃ r,
    child.uniStep0 t0 mask result = some r ∧
    r.take child.numUnigrams = (subset child features .unigrams).map (· &&& mask)
  bigrams : ∀ state result, child.numBigrams ≤ state.length → child.numBigrams ≤ result.length →
    ∃ s r, child.biStep0 t0 state = some s ∧ child.biStep1 t1 s mask result = some r ∧
      r.take child.numBigrams = (subset child features .bigrams).map (· &&& mask)
  trigrams : ∀ state state1 result, child.numTrigrams ≤ state.length →
    child.numTrigrams ≤ state1.length → child.numTrigrams ≤ result.length →
    ∃ s s1 r, child.triStep0 t0 state = some s ∧ child.triStep1 t1 s state1 = some s1 ∧
      child.triStep2 t2 s1 mask result = some r ∧
      r.take child.numTrigrams = (subset child features .trigrams).map (· &&& mask)
  biFull : ∀ result, child.numBigrams ≤ result.length → ∃ r,
    child.biFull t0 t1 mask result = some r ∧
    r.take child.numBigrams = (subset child features .bigrams).map (· &&& mask)
  triFull : ∀ result, child.numTrigrams ≤ result.length → ∃ r,
    child.triFull t0 t1 t2 mask result = some r ∧
    r.take child.numTrigrams = (subset child features .trigrams).map (· &&& mask)

namespace PartialNgramFeatures

variable {spec : NgramSpec} {child : PartialNgramFeatures}

theorem take_fillsRow {F α : Type} [Zero α] {features : List F} {value : F → α}
    {step : List α → Option (List α)}
    (h : FillsRow features.length (slotValue features value) step) {buf : List α}
    (hbuf : features.length ≤ buf.length) :
    ∃ r, step buf = some r ∧ r.take features.length = features.map value :=
  ⟨_, h buf hbuf, by rw [take_overwrite hbuf, map_slotValue]⟩

/-- The features of one order, masked. -/
theorem map_descriptor {F : Type} {features : List F} {descriptor : F → NgramFeatureDescriptor}
    {value : F → UInt32} {order : Nat} {mask : UInt32} (t2 t1 t0 : PatternRow)
    (hbuilt : features.map descriptor = ofOrder order spec.ngram)
    (hvalue : ∀ f, value f = (descriptor f).value t2 t1 t0 &&& mask) :
    features.map value =
      ((ofOrder order spec.ngram).map fun nf => nf.value t2 t1 t0).map (· &&& mask) := by
  rw [← hbuilt, List.map_map, List.map_map]
  exact List.map_congr_left fun f _ => hvalue f

theorem BuiltFrom.subset_values (h : child.BuiltFrom spec.ngram) (t2 t1 t0 : PatternRow) :
    subset child (spec.values t2 t1 t0) .unigrams =
        (ofOrder 1 spec.ngram).map (fun nf => nf.value t2 t1 t0) ∧
      subset child (spec.values t2 t1 t0) .bigrams =
        (ofOrder 2 spec.ngram).map (fun nf => nf.value t2 t1 t0) ∧
      subset child (spec.values t2 t1 t0) .trigrams =
        (ofOrder 3 spec.ngram).map (fun nf => nf.value t2 t1 t0) := by
  have hvalues : spec.values t2 t1 t0 =
      (ofOrder 1 spec.ngram).map (fun nf => nf.value t2 t1 t0) ++
        ((ofOrder 2 spec.ngram).map (fun nf => nf.value t2 t1 t0) ++
          (ofOrder 3 spec.ngram).map (fun nf => nf.value t2 t1 t0)) := by
    unfold NgramSpec.values
    conv_lhs => rw [spec.ngram_eq]
    rw [List.map_append, List.map_append]
  have hlen : ∀ order, ((ofOrder order spec.ngram).map fun nf => nf.value t2 t1 t0).length =
      (ofOrder order spec.ngram).length := fun order => List.length_map _
  rw [hvalues]
  refine ⟨?_, ?_, ?_⟩
  · show List.take child.numUnigrams _ = _
    rw [h.numUnigrams_eq, List.take_left' (hlen 1)]
  · show List.take child.numBigrams (List.drop child.numUnigrams _) = _
    rw [h.numUnigrams_eq, h.numBigrams_eq, List.drop_left' (hlen 1), List.take_left' (hlen 2)]
  · show List.take child.numTrigrams (List.drop (child.numUnigrams + child.numBigrams) _) = _
    rw [h.numUnigrams_eq, h.numBigrams_eq, h.numTrigrams_eq, ← List.drop_drop,
      List.drop_left' (hlen 1), List.drop_left' (hlen 2), List.take_of_length_le (hlen 3).le]

theorem stepsAgree (h : child.BuiltFrom spec.ngram) (mask : UInt32) (t2 t1 t0 : PatternRow) :
    StepsAgree child mask t2 t1 t0 (spec.values t2 t1 t0) := by
  obtain ⟨huni, hbi, htri⟩ := h.subset_values t2 t1 t0
  have hbigrams := map_descriptor t2 t1 t0 h.bigrams fun f => f.jointRaw_eq t2 t1 t0 mask
  have htrigrams := map_descriptor t2 t1 t0 h.trigrams fun f => f.jointRaw_eq t2 t1 t0 mask
  constructor
  · intro result hresult
    rw [huni, ← map_descriptor t2 t1 t0 h.unigrams fun f => f.value_eq t2 t1 t0 mask]
    exact take_fillsRow (fillsRow_uniStep0 h.targets t0 mask) hresult
  · intro state result hstate hresult
    have hstored := stored_overwrite (fun f => f.state0 t0) h.targets.bigrams hstate
    have hfill : FillsRow child.numBigrams _ (child.biStep1 t1 _ mask) :=
      fillsRow_biStep1 h.targets hstored
    obtain ⟨r, hr, htake⟩ := take_fillsRow hfill hresult
    rw [hbi, ← hbigrams]
    exact ⟨_, r, fillsRow_biStep0 h.targets t0 state hstate, hr, htake⟩
  · intro state state1 result hstate hstate1 hresult
    have hstored := stored_overwrite (fun f => f.state0 t0) h.targets.trigrams hstate
    have hstored1 := stored_overwrite (fun f => f.state1 (f.state0 t0) t1)
      h.targets.trigrams hstate1
    have hfill : FillsRow child.numTrigrams _ (child.triStep2 t2 _ mask) :=
      fillsRow_triStep2 h.targets hstored1
    obtain ⟨r, hr, htake⟩ := take_fillsRow hfill hresult
    rw [htri, ← htrigrams]
    exact ⟨_, _, r, fillsRow_triStep0 h.targets t0 state hstate,
      fillsRow_triStep1 h.targets hstored state1 hstate1, hr, htake⟩
  · intro result hresult
    rw [hbi, ← hbigrams]
    exact take_fillsRow (fillsRow_biFull h.targets t0 t1 mask) hresult
  · intro result hresult
    rw [htri, ← htrigrams]
    exact take_fillsRow (fillsRow_triFull h.targets t0 t1 t2 mask) hresult

/-- The weights of the trainer's features add up to the scores of the three orders. -/
theorem sum_values (h : child.BuiltFrom spec.ngram) (weights : WeightBuffer)
    (t2 t1 t0 : PatternRow) :
    ((spec.values t2 t1 t0).map fun i => weights.value (i &&& weights.mask)).sum =
      (child.scorer weights).uni t0 + (child.scorer weights).bi t0 t1 +
        (child.scorer weights).tri t0 t1 t2 := by
  have hsum : ∀ {F : Type} {features : List F} {descriptor : F → NgramFeatureDescriptor}
      {value : F → UInt32} {order : Nat}, features.map descriptor = ofOrder order spec.ngram →
      (∀ f, value f = (descriptor f).value t2 t1 t0 &&& weights.mask) →
      ((ofOrder order spec.ngram).map fun nf =>
          weights.value (nf.value t2 t1 t0 &&& weights.mask)).sum =
        (features.map fun f => weights.value (value f)).sum := by
    intro F features descriptor value order hbuilt hvalue
    rw [← hbuilt, List.map_map]
    congr 1
    exact List.map_congr_left fun f _ => by rw [hvalue f]; rfl
  unfold NgramSpec.values
  rw [List.map_map, spec.ngram_eq, List.map_append, List.map_append, List.sum_append,
    List.sum_append, ← add_assoc]
  exact congrArg₂ (· + ·) (congrArg₂ (· + ·)
    (hsum h.unigrams fun f => f.value_eq t2 t1 t0 _)
    (hsum h.bigrams fun f => f.jointRaw_eq t2 t1 t0 _))
    (hsum h.trigrams fun f => f.jointRaw_eq t2 t1 t0 _)

end PartialNgramFeatures

end Jumanpp.Core.Features
