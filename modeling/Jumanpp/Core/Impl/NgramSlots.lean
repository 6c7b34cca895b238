import Jumanpp.Core.Impl.NgramPartialKernels

/-!
# The slots of the features

The dynamic class numbers the features of each order while they are added, the printer by counting
the features before them.  Both give every feature the slot of its position.
-/

namespace Jumanpp.Core.Features

open Jumanpp.Lib

def UnigramFeature.descriptor (f : UnigramFeature) : NgramFeatureDescriptor :=
  ⟨f.index, [f.t0idx]⟩

def BigramFeature.descriptor (f : BigramFeature) : NgramFeatureDescriptor :=
  ⟨f.index, [f.t0idx, f.t1idx]⟩

def TrigramFeature.descriptor (f : TrigramFeature) : NgramFeatureDescriptor :=
  ⟨f.index, [f.t0idx, f.t1idx, f.t2idx]⟩

/-- The n-grams with that many references. -/
def ofOrder (order : Nat) (ngram : List NgramFeatureDescriptor) : List NgramFeatureDescriptor :=
  ngram.filter fun nf => nf.references.length == order

theorem ofOrder_append (order : Nat) (l r : List NgramFeatureDescriptor) :
    ofOrder order (l ++ r) = ofOrder order l ++ ofOrder order r :=
  List.filter_append l r

theorem ofOrder_singleton (order : Nat) (nf : NgramFeatureDescriptor) :
    ofOrder order [nf] = if nf.references.length = order then [nf] else [] := by
  unfold ofOrder
  by_cases h : nf.references.length = order <;> simp [h]

namespace PartialNgramFeatures

/-- What has been built from the n-grams that have been added. -/
structure BuiltFrom (ngram : List NgramFeatureDescriptor) (child : PartialNgramFeatures) : Prop where
  unigrams : child.unigrams.map UnigramFeature.descriptor = ofOrder 1 ngram
  bigrams : child.bigrams.map BigramFeature.descriptor = ofOrder 2 ngram
  trigrams : child.trigrams.map TrigramFeature.descriptor = ofOrder 3 ngram
  targets : child.Targets

theorem builtFrom_nil : BuiltFrom [] empty where
  unigrams := rfl
  bigrams := rfl
  trigrams := rfl
  targets := by
    constructor <;> intro i h <;> exact absurd h (Nat.not_lt_zero i)

theorem target_append {F : Type} {target : F → Nat} {l : List F} {x : F}
    (hl : ∀ (i : Nat) (h : i < l.length), target l[i] = i) (hx : target x = l.length) :
    ∀ (i : Nat) (h : i < (l ++ [x]).length), target (l ++ [x])[i] = i := by
  intro i h
  by_cases hi : i < l.length
  · rw [List.getElem_append_left hi]
    exact hl i hi
  · have hlen : i = l.length := by
      rw [List.length_append, List.length_singleton] at h
      omega
    subst hlen
    simpa using hx

/-- One more n-gram. -/
theorem BuiltFrom.addChild {ngram : List NgramFeatureDescriptor} {child : PartialNgramFeatures}
    (h : child.BuiltFrom ngram) {nf : NgramFeatureDescriptor}
    (horder : nf.references.length ∈ [1, 2, 3]) :
    ∃ child', child.addChild nf = .ok child' ∧ child'.BuiltFrom (ngram ++ [nf]) := by
  obtain ⟨index, references⟩ := nf
  match references, horder with
  | [t0], _ =>
      refine ⟨_, rfl, ?_, ?_, ?_, ⟨target_append h.targets.unigrams rfl, h.targets.bigrams,
        h.targets.trigrams⟩⟩
      · rw [ofOrder_append, ← h.unigrams, List.map_append]
        rfl
      · rw [ofOrder_append, ← h.bigrams]
        simp [ofOrder_singleton]
      · rw [ofOrder_append, ← h.trigrams]
        simp [ofOrder_singleton]
  | [t0, t1], _ =>
      refine ⟨_, rfl, ?_, ?_, ?_, ⟨h.targets.unigrams, target_append h.targets.bigrams rfl,
        h.targets.trigrams⟩⟩
      · rw [ofOrder_append, ← h.unigrams]
        simp [ofOrder_singleton]
      · rw [ofOrder_append, ← h.bigrams, List.map_append]
        rfl
      · rw [ofOrder_append, ← h.trigrams]
        simp [ofOrder_singleton]
  | [t0, t1, t2], _ =>
      refine ⟨_, rfl, ?_, ?_, ?_, ⟨h.targets.unigrams, h.targets.bigrams,
        target_append h.targets.trigrams rfl⟩⟩
      · rw [ofOrder_append, ← h.unigrams]
        simp [ofOrder_singleton]
      · rw [ofOrder_append, ← h.bigrams]
        simp [ofOrder_singleton]
      · rw [ofOrder_append, ← h.trigrams, List.map_append]
        rfl

/-- The printer counts the n-grams of the same order that have been added. -/
theorem BuiltFrom.emplace {ngram : List NgramFeatureDescriptor} {child : PartialNgramFeatures}
    (h : child.BuiltFrom ngram) {nf : NgramFeatureDescriptor} {all : List NgramFeatureDescriptor}
    (horder : nf.references.length ∈ [1, 2, 3])
    (htarget : nf.codegenTarget all = (ofOrder nf.references.length ngram).length) :
    PartialNgramPrinter.emplace all child nf = child.addChild nf := by
  obtain ⟨index, references⟩ := nf
  match references, horder with
  | [t0], _ =>
      have hlen : child.unigrams.length = (ofOrder 1 ngram).length := by
        rw [← h.unigrams, List.length_map]
      unfold PartialNgramPrinter.emplace PartialNgramFeatures.addChild
      simp only [htarget, hlen, List.length_singleton]
  | [t0, t1], _ =>
      have hlen : child.bigrams.length = (ofOrder 2 ngram).length := by
        rw [← h.bigrams, List.length_map]
      unfold PartialNgramPrinter.emplace PartialNgramFeatures.addChild
      simp only [htarget, hlen]
      rfl
  | [t0, t1, t2], _ =>
      have hlen : child.trigrams.length = (ofOrder 3 ngram).length := by
        rw [← h.trigrams, List.length_map]
      unfold PartialNgramPrinter.emplace PartialNgramFeatures.addChild
      simp only [htarget, hlen]
      rfl

end PartialNgramFeatures

namespace NgramSpec

variable (spec : NgramSpec)

/-- The search for the index stops at the n-gram itself. -/
theorem codegenTarget_eq {done rest : List NgramFeatureDescriptor} {nf : NgramFeatureDescriptor}
    (hngram : spec.ngram = done ++ nf :: rest) :
    nf.codegenTarget spec.ngram = (ofOrder nf.references.length done).length := by
  have hindex : ∀ (i : Nat) (h : i < (done ++ nf :: rest).length),
      (done ++ nf :: rest)[i].index = i := by
    rw [← hngram]
    exact spec.index_eq
  have hnf : nf.index = done.length := by
    have hget := hindex done.length (by simp)
    simpa using hget
  have hdone : ∀ other ∈ done, (other.index != nf.index) = true := by
    intro other hother
    obtain ⟨i, hi, rfl⟩ := List.mem_iff_getElem.mp hother
    have hget := hindex i (by rw [List.length_append]; omega)
    rw [List.getElem_append_left hi] at hget
    rw [hget, hnf, bne_iff_ne]
    omega
  unfold NgramFeatureDescriptor.codegenTarget
  rw [hngram, List.takeWhile_append_of_pos hdone]
  simp [ofOrder]

/-- Both ways to build the features of a spec succeed and agree. -/
theorem exists_features : ∃ child, PartialNgramFeatures.make spec = .ok child ∧
    PartialNgramPrinter.make spec = .ok child ∧ child.BuiltFrom spec.ngram := by
  have hrest : ∀ (rest done : List NgramFeatureDescriptor) (child : PartialNgramFeatures),
      spec.ngram = done ++ rest → child.BuiltFrom done → ∃ child',
        rest.foldlM PartialNgramFeatures.addChild child = .ok child' ∧
        rest.foldlM (PartialNgramPrinter.emplace spec.ngram) child = .ok child' ∧
        child'.BuiltFrom spec.ngram := by
    intro rest
    induction rest with
    | nil =>
        intro done child hngram hchild
        rw [List.append_nil] at hngram
        exact ⟨child, rfl, rfl, hngram ▸ hchild⟩
    | cons nf rest ih =>
        intro done child hngram hchild
        have horder := spec.order_mem nf (by rw [hngram]; simp)
        obtain ⟨next, hadd, hnext⟩ := hchild.addChild horder
        obtain ⟨child', hdynamic, hprinter, hbuilt⟩ :=
          ih (done ++ [nf]) next (by rw [hngram]; simp) hnext
        refine ⟨child', ?_, ?_, hbuilt⟩
        · rw [List.foldlM_cons, hadd]
          exact hdynamic
        · rw [List.foldlM_cons, hchild.emplace horder (spec.codegenTarget_eq hngram), hadd]
          exact hprinter
  exact hrest spec.ngram [] .empty rfl PartialNgramFeatures.builtFrom_nil

end NgramSpec

theorem PartialNgramFeatures.builtFrom_of_make {spec : NgramSpec} {child : PartialNgramFeatures}
    (h : PartialNgramFeatures.make spec = .ok child) : child.BuiltFrom spec.ngram := by
  obtain ⟨child', hmake, _, hbuilt⟩ := spec.exists_features
  rw [h, Except.ok.injEq] at hmake
  rw [hmake]
  exact hbuilt

end Jumanpp.Core.Features
