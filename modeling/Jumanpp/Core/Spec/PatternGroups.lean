import Jumanpp.Core.Spec.FeatureGathering

/-!
# The numbers of the patterns

The analyzer computes only the first patterns of a node, all but those which only unigrams use.  For every
n-gram to find its patterns there, the sort has to put the patterns of unigrams behind all others.
-/

namespace Jumanpp.Core.Spec.SpecCompiler

open Jumanpp.Lib

/-! ## Registered features -/

/-- The numbers of the names. -/
def keyOf (m : ComputeMap) (pos : List SpecName) : List Int :=
  pos.map fun name => (m.position name : Int)

theorem keyOf_cons (m : ComputeMap) (name : SpecName) (pos : List SpecName) :
    keyOf m (name :: pos) = (m.position name : Int) :: keyOf m pos :=
  rfl

def Numbered (m : ComputeMap) : Prop := FlatMap.Numbered AccessFeatureInfo.number m

theorem mem_registerFeature (m : ComputeMap) (name : SpecName) :
    name ∈ (registerFeature m name).keys :=
  FlatMap.mem_keys_iff.mpr ⟨_, FlatMap.find_update_self m name _ _⟩

theorem prefix_registerFeature (m : ComputeMap) (name : SpecName) :
    m.keys <+: (registerFeature m name).keys := by
  unfold registerFeature
  by_cases h : name ∈ m.keys
  · rw [FlatMap.keys_update_of_mem h]
  · rw [FlatMap.keys_update_of_not_mem h]
    exact List.prefix_append _ _

theorem numbered_registerFeature {m : ComputeMap} (h : Numbered m) (name : SpecName) :
    Numbered (registerFeature m name) := by
  apply FlatMap.Numbered.update h
  · rfl
  · intro v hv
    have hpos := (h.lt hv).1
    rw [if_neg (by omega)]

theorem numberOf_eq {m : ComputeMap} (h : Numbered m) {name : SpecName} (hname : name ∈ m.keys) :
    numberOf m name = m.position name := by
  obtain ⟨v, hv⟩ := FlatMap.mem_keys_iff.mp hname
  unfold numberOf
  rw [hv]
  exact h name v hv

theorem map_numberOf {m : ComputeMap} (h : Numbered m) {pos : List SpecName}
    (hpos : ∀ name ∈ pos, name ∈ m.keys) : pos.map (numberOf m) = keyOf m pos :=
  List.map_congr_left fun name hname => numberOf_eq h (hpos name hname)

/-- Later names do not change the numbers of those before. -/
theorem keyOf_stable {m m' : ComputeMap} (h : m.keys <+: m'.keys) {pos : List SpecName}
    (hpos : ∀ name ∈ pos, name ∈ m.keys) : keyOf m' pos = keyOf m pos := by
  apply List.map_congr_left
  intro name hname
  rw [FlatMap.position_stable h (hpos name hname)]

/-- No feature has learned of its branches. -/
def NoBranches (m : ComputeMap) : Prop :=
  ∀ name info, m.find name = some info → info.trueBranch = [] ∧ info.falseBranch = []

theorem noBranches_registerFeature {m : ComputeMap} (h : NoBranches m) (name : SpecName) :
    NoBranches (registerFeature m name) := by
  intro name' info hinfo
  unfold registerFeature at hinfo
  by_cases heq : name' = name
  · subst heq
    rw [FlatMap.find_update_self] at hinfo
    cases hinfo
    cases hfind : m.find name' with
    | none => exact ⟨rfl, rfl⟩
    | some info =>
        have hold := h name' info hfind
        rw [Option.getD_some]
        split_ifs
        · exact hold
        · exact hold
  · rw [FlatMap.find_update_ne m heq] at hinfo
    exact h name' info hinfo

/-- The map after some names have been registered. -/
structure Registers (m m' : ComputeMap) : Prop where
  numbered : Numbered m'
  keys : m.keys <+: m'.keys
  branches : NoBranches m → NoBranches m'

theorem Registers.refl {m : ComputeMap} (h : Numbered m) : Registers m m :=
  ⟨h, List.prefix_rfl, id⟩

theorem Registers.trans {m m' m'' : ComputeMap} (h : Registers m m') (h' : Registers m' m'') :
    Registers m m'' :=
  ⟨h'.numbered, h.keys.trans h'.keys, fun hm => h'.branches (h.branches hm)⟩

theorem registers_registerFeature {m : ComputeMap} (h : Numbered m) (name : SpecName) :
    Registers m (registerFeature m name) :=
  ⟨numbered_registerFeature h name, prefix_registerFeature m name,
    fun hm => noBranches_registerFeature hm name⟩

/-- A loop each of whose turns registers something. -/
theorem registers_foldl {α : Type} {f : ComputeMap → α → ComputeMap}
    (hf : ∀ m x, Numbered m → Registers m (f m x)) (l : List α) {m : ComputeMap} (h : Numbered m) :
    Registers m (l.foldl f m) := by
  induction l generalizing m with
  | nil => exact Registers.refl h
  | cons x l ih =>
      rw [List.foldl_cons]
      have hx := hf m x h
      exact hx.trans (ih hx.numbered)

theorem registers_foldlM {α : Type} {f : ComputeMap → α → Option ComputeMap}
    (hf : ∀ m x m', Numbered m → f m x = some m' → Registers m m') (l : List α) {m m' : ComputeMap}
    (h : Numbered m) (hl : l.foldlM f m = some m') : Registers m m' := by
  induction l generalizing m with
  | nil =>
      cases hl
      exact Registers.refl h
  | cons x l ih =>
      rw [List.foldlM_cons] at hl
      obtain ⟨m₁, hx, hrest⟩ := Option.bind_eq_some_iff.mp hl
      have hregisters := hf m x m₁ h hx
      exact hregisters.trans (ih hregisters.numbered hrest)

theorem registers_names (names : List SpecName) {m : ComputeMap} (h : Numbered m) :
    Registers m (names.foldl registerFeature m) :=
  registers_foldl (fun _ name hm => registers_registerFeature hm name) names h

theorem registers_registerUnk {m : ComputeMap} (h : Numbered m) (unk : UnkProcBuilder) :
    Registers m (registerUnk m unk) := by
  have hside := registers_names unk.sideFeatures h
  exact hside.trans (registers_names unk.output hside.numbered)

theorem registers_registerField {fields : List Field} {m m' : ComputeMap} (h : Numbered m)
    {ref : SpecName} (href : registerField fields m ref = some m') : Registers m m' := by
  obtain ⟨fld, -, rfl⟩ := Option.map_eq_some_iff.mp href
  cases fld.fieldType with
  | String => exact registers_registerFeature h ref
  | Int => exact registers_registerFeature h ref
  | StringList => exact Registers.refl h
  | StringKVList => exact Registers.refl h
  | Error => exact Registers.refl h

theorem registers_registerReferences {fields : List Field} {m m' : ComputeMap} (h : Numbered m)
    {f : FeatureBuilder} (hf : registerReferences fields m f = some m') : Registers m m' := by
  have htrue := registers_names f.trueTransforms h
  have hfalse := registers_names f.falseTransforms htrue.numbered
  have hfields := registers_foldlM (fun _ _ _ hm href => registers_registerField hm href)
    f.fields hfalse.numbered hf
  exact htrue.trans (hfalse.trans hfields)

/-! ## Gathered patterns -/

/-- The accesses of a position get their numbers. -/
theorem foldl_gatherAccess (pos : List SpecName) (features : List Int) {m : ComputeMap}
    (h : Numbered m) :
    Registers m (pos.foldl gatherAccess (features, m)).2 ∧
      (∀ name ∈ pos, name ∈ (pos.foldl gatherAccess (features, m)).2.keys) ∧
      (pos.foldl gatherAccess (features, m)).1 =
        features ++ keyOf (pos.foldl gatherAccess (features, m)).2 pos := by
  induction pos generalizing features m with
  | nil => exact ⟨Registers.refl h, by simp, by simp [keyOf]⟩
  | cons access pos ih =>
      rw [List.foldl_cons]
      have hfirst := registers_registerFeature h access
      have hmem := mem_registerFeature m access
      obtain ⟨hrest, hnames, hkey⟩ := ih (features ++ [numberOf (registerFeature m access) access])
        hfirst.numbered
      refine ⟨hfirst.trans hrest, ?_, ?_⟩
      · intro name hname
        rcases List.mem_cons.mp hname with rfl | hname
        · exact hrest.keys.subset hmem
        · exact hnames name hname
      · have hturn : gatherAccess (features, m) access =
            (features ++ [numberOf (registerFeature m access) access], registerFeature m access) := rfl
        have hnumber := numberOf_eq hfirst.numbered hmem
        have hposition := FlatMap.position_stable hrest.keys hmem
        rw [hturn, hkey, keyOf_cons, hposition, ← hnumber, List.append_assoc]
        rfl

/-- The positions of all n-grams, each with the order of its n-gram. -/
def occurrences (ngrams : List FeatureCombinator) : List (Nat × List SpecName) :=
  ngrams.flatMap fun ngram => ngram.data.map fun pos => (ngram.data.length, pos)

theorem occurrences_cons (ngram : FeatureCombinator) (ngrams : List FeatureCombinator) :
    occurrences (ngram :: ngrams) =
      ngram.data.map (fun pos => (ngram.data.length, pos)) ++ occurrences ngrams :=
  List.flatMap_cons

def gatherOccurrence (g : Gathered) (occ : Nat × List SpecName) : Gathered :=
  gatherPosition occ.1 g occ.2

theorem foldl_gatherNgram (ngrams : List FeatureCombinator) (g : Gathered) :
    ngrams.foldl gatherNgram g = (occurrences ngrams).foldl gatherOccurrence g := by
  induction ngrams generalizing g with
  | nil => rfl
  | cons ngram ngrams ih =>
      rw [List.foldl_cons, ih, occurrences_cons, List.foldl_append, List.foldl_map]
      rfl

/-- What is known after some positions have been gathered: a pattern is there for each of them, and its
usage has a bit for the order of each n-gram that it stands in. -/
structure Gathers (done : List (Nat × List SpecName)) (g : Gathered) : Prop where
  compute : Numbered g.computeByName
  branches : NoBranches g.computeByName
  registered : ∀ occ ∈ done, ∀ name ∈ occ.2, name ∈ g.computeByName.keys
  patterns : g.patternByCombo.Numbered PatternFeatureInfo.number
  mem_keys : ∀ f, f ∈ g.patternByCombo.keys ↔ ∃ occ ∈ done, keyOf g.computeByName occ.2 = f
  usage : ∀ f info, g.patternByCombo.find f = some info → ∀ bit,
    info.usage.testBit bit = true ↔
      ∃ occ ∈ done, keyOf g.computeByName occ.2 = f ∧ occ.1 - 1 = bit

theorem gathers_empty : Gathers [] ⟨.empty, .empty⟩ where
  compute := FlatMap.numbered_empty _
  branches := by
    intro name info h
    cases h
  registered := by simp
  patterns := FlatMap.numbered_empty _
  mem_keys := by simp [FlatMap.keys, FlatMap.empty]
  usage := by
    intro f info h
    cases h

/-- Registering more names leaves what has been gathered as it is. -/
theorem Gathers.registers {done : List (Nat × List SpecName)} {g : Gathered} (h : Gathers done g)
    {m : ComputeMap} (hm : Registers g.computeByName m) :
    Gathers done { g with computeByName := m } := by
  have hkey : ∀ occ ∈ done, keyOf m occ.2 = keyOf g.computeByName occ.2 := by
    intro occ hocc
    exact keyOf_stable hm.keys (h.registered occ hocc)
  refine ⟨hm.numbered, hm.branches h.branches, ?_, h.patterns, ?_, ?_⟩
  · intro occ hocc name hname
    exact hm.keys.subset (h.registered occ hocc name hname)
  · intro f
    rw [h.mem_keys f]
    exact exists_congr fun occ => and_congr_right fun hocc => by rw [hkey occ hocc]
  · intro f info hfind bit
    rw [h.usage f info hfind bit]
    exact exists_congr fun occ => and_congr_right fun hocc => by rw [hkey occ hocc]

theorem testBit_usePattern (curPatSize order bit : Nat) (info : PatternFeatureInfo) :
    (usePattern curPatSize order info).usage.testBit bit = true ↔
      info.usage.testBit bit = true ∨ order - 1 = bit := by
  show (info.usage ||| 1 <<< (order - 1)).testBit bit = true ↔ _
  rw [Nat.testBit_or, Bool.or_eq_true, Nat.one_shiftLeft, Nat.testBit_two_pow]
  simp

theorem Gathers.step {done : List (Nat × List SpecName)} {g : Gathered} (h : Gathers done g)
    (occ : Nat × List SpecName) : Gathers (done ++ [occ]) (gatherOccurrence g occ) := by
  obtain ⟨hregisters, hnames, hkey⟩ := foldl_gatherAccess occ.2 [] h.compute
  have h' := h.registers hregisters
  rw [List.nil_append] at hkey
  have hresult : gatherOccurrence g occ =
      ⟨(occ.2.foldl gatherAccess ([], g.computeByName)).2,
        g.patternByCombo.update (occ.2.foldl gatherAccess ([], g.computeByName)).1 {}
          (usePattern g.patternByCombo.size occ.1)⟩ := rfl
  rw [hresult, hkey]
  generalize (occ.2.foldl gatherAccess ([], g.computeByName)).2 = m at h' hnames
  refine ⟨h'.compute, h'.branches, ?_, ?_, ?_, ?_⟩
  · intro occ' hocc' name hname
    rcases List.mem_append.mp hocc' with hocc' | hocc'
    · exact h'.registered occ' hocc' name hname
    · rw [List.mem_singleton.mp hocc'] at hname
      exact hnames name hname
  · apply FlatMap.Numbered.update h.patterns
    · rfl
    · intro info hinfo
      have hpos := (h.patterns.lt hinfo).1
      show (if info.number = -1 then _ else _) = _
      rw [if_neg (by omega)]
  · intro f
    rw [FlatMap.mem_keys_update, h'.mem_keys]
    simp only [List.mem_append, List.mem_singleton, or_and_right, exists_or, exists_eq_left]
    exact or_congr_right eq_comm
  · intro f info hinfo bit
    simp only [List.mem_append, List.mem_singleton, or_and_right, exists_or, exists_eq_left]
    by_cases hf : f = keyOf m occ.2
    · subst hf
      rw [FlatMap.find_update_self] at hinfo
      cases hinfo
      rw [testBit_usePattern]
      cases hfind : g.patternByCombo.find (keyOf m occ.2) with
      | none =>
          have hnone := FlatMap.find_eq_none_iff.mp hfind
          rw [h'.mem_keys] at hnone
          have hno : ¬ ∃ occ' ∈ done, keyOf m occ'.2 = keyOf m occ.2 ∧ occ'.1 - 1 = bit := by
            rintro ⟨occ', hocc', heq, -⟩
            exact hnone ⟨occ', hocc', heq⟩
          simp [hno]
      | some info => simp [h'.usage _ _ hfind bit]
    · rw [FlatMap.find_update_ne _ hf] at hinfo
      rw [h'.usage f info hinfo bit]
      simp [Ne.symm hf]

theorem gathers_foldl (occs : List (Nat × List SpecName)) {done : List (Nat × List SpecName)}
    {g : Gathered} (h : Gathers done g) :
    Gathers (done ++ occs) (occs.foldl gatherOccurrence g) := by
  induction occs generalizing done g with
  | nil =>
      rw [List.append_nil]
      exact h
  | cons occ occs ih =>
      rw [List.foldl_cons]
      have hrest := ih (h.step occ)
      rw [List.append_assoc] at hrest
      exact hrest

theorem gathers_gatherFeatureInfo {bldr : ModelSpecBuilder} {fields : List Field} {g : Gathered}
    (h : gatherFeatureInfo bldr fields = some g) : Gathers (occurrences bldr.ngrams) g := by
  obtain ⟨m, hm, rfl⟩ := Option.map_eq_some_iff.mp h
  have hngrams := gathers_foldl (occurrences bldr.ngrams) gathers_empty
  rw [List.nil_append, ← foldl_gatherNgram] at hngrams
  have hunks := registers_foldl (fun _ unk hm => registers_registerUnk hm unk) bldr.unks
    hngrams.compute
  have hfeatures := registers_foldlM (fun _ _ _ hm hf => registers_registerReferences hm hf)
    bldr.features hunks.numbered hm
  exact hngrams.registers (hunks.trans hfeatures)

/-! ## Usages -/

/-- A pattern that only unigrams use. -/
def UniOnly (info : PatternFeatureInfo) : Prop := info.usage = 1

instance (info : PatternFeatureInfo) : Decidable (UniOnly info) :=
  inferInstanceAs (Decidable (info.usage = 1))

/-- A pattern that n-grams of a higher order read. -/
def readHigher (e : PatternEntry) : Bool := !decide (UniOnly e.2)

theorem readHigher_iff {e : PatternEntry} : readHigher e = true ↔ ¬ UniOnly e.2 := by
  simp [readHigher]

theorem mem_occurrences_iff {ngrams : List FeatureCombinator} {occ : Nat × List SpecName} :
    occ ∈ occurrences ngrams ↔ ∃ ngram ∈ ngrams, ∃ pos ∈ ngram.data, (ngram.data.length, pos) = occ := by
  simp only [occurrences, List.mem_flatMap, List.mem_map]

theorem order_of_mem_occurrences {ngrams : List FeatureCombinator} {occ : Nat × List SpecName}
    (h : occ ∈ occurrences ngrams) : 1 ≤ occ.1 ∧ occ.1 ≤ 3 := by
  obtain ⟨ngram, -, pos, -, rfl⟩ := mem_occurrences_iff.mp h
  exact ⟨List.length_pos_of_ne_nil ngram.data_ne_nil, ngram.length_le⟩

section Usage

variable {ngrams : List FeatureCombinator} {g : Gathered} (h : Gathers (occurrences ngrams) g)
  {f : List Int} {info : PatternFeatureInfo} (hinfo : g.patternByCombo.find f = some info)

include h hinfo

/-- Only unigrams use the pattern just if no n-gram of a higher order does. -/
theorem uniOnly_iff : UniOnly info ↔ ∀ occ ∈ occurrences ngrams,
    keyOf g.computeByName occ.2 = f → occ.1 = 1 := by
  have husage := h.usage f info hinfo
  constructor
  · intro huni occ hocc hkey
    have hbit : info.usage.testBit (occ.1 - 1) = true := (husage _).mpr ⟨occ, hocc, hkey, rfl⟩
    rw [show info.usage = 2 ^ 0 from huni, Nat.testBit_two_pow] at hbit
    have horder := order_of_mem_occurrences hocc
    have hzero : 0 = occ.1 - 1 := of_decide_eq_true hbit
    omega
  · intro hone
    obtain ⟨occ, hocc, hkey⟩ := (h.mem_keys f).mp (FlatMap.mem_keys_iff.mpr ⟨info, hinfo⟩)
    show info.usage = 2 ^ 0
    apply Nat.eq_of_testBit_eq
    intro bit
    rw [Nat.testBit_two_pow, Bool.eq_iff_iff, husage, decide_eq_true_eq]
    constructor
    · rintro ⟨occ', hocc', hkey', rfl⟩
      rw [hone occ' hocc' hkey']
    · rintro rfl
      exact ⟨occ, hocc, hkey, by rw [hone occ hocc hkey]⟩

theorem usage_lt : info.usage < 2 ^ 3 := by
  apply Nat.lt_pow_two_of_testBit
  intro bit hbit
  rw [Bool.eq_false_iff]
  intro htrue
  obtain ⟨occ, hocc, -, rfl⟩ := (h.usage f info hinfo bit).mp htrue
  have horder := order_of_mem_occurrences hocc
  omega

theorem usage_pos : 0 < info.usage := by
  obtain ⟨occ, hocc, hkey⟩ := (h.mem_keys f).mp (FlatMap.mem_keys_iff.mpr ⟨info, hinfo⟩)
  have hbit := (h.usage f info hinfo (occ.1 - 1)).mpr ⟨occ, hocc, hkey, rfl⟩
  by_contra hzero
  rw [show info.usage = 0 by omega, Nat.zero_testBit] at hbit
  cases hbit

/-- The scores of patterns that other n-grams use are at most 51. -/
theorem score_le (huni : ¬ UniOnly info) : scoreForUsage info.usage ≤ 51 := by
  have hlt := usage_lt h hinfo
  have hpos := usage_pos h hinfo
  unfold UniOnly at huni
  generalize info.usage = usage at hlt hpos huni
  interval_cases usage
  · exact absurd rfl huni
  all_goals decide

end Usage

/-! ## Assigned numbers -/

/-- The loop gives the keys of the list the next numbers and leaves everything else. -/
theorem find_foldl_assign (v : List PatternEntry) (n : Nat)
    (m : PatternMap) (hkeys : ∀ e ∈ v, e.1 ∈ m.keys) (hnodup : (v.map Prod.fst).Nodup) (f : List Int) :
    ((v.zipIdx n).foldl
      (fun m p => m.update p.1.1 {} fun info => withNumber info p.2) m).find f =
      (m.find f).map fun info =>
        if f ∈ v.map Prod.fst then
          withNumber info (n + (v.map Prod.fst).findIdx fun f' => decide (f' = f))
        else info := by
  induction v generalizing n m with
  | nil =>
      simp
  | cons e v ih =>
      obtain ⟨he, hnodup⟩ := List.nodup_cons.mp hnodup
      rw [List.zipIdx_cons, List.foldl_cons, ih (n + 1) _ (by
        intro e' he'
        exact FlatMap.mem_keys_update.mpr (.inl (hkeys e' (List.mem_cons_of_mem _ he')))) hnodup]
      obtain ⟨info, hinfo⟩ := FlatMap.mem_keys_iff.mp (hkeys e List.mem_cons_self)
      by_cases hf : f = e.1
      · subst hf
        rw [FlatMap.find_update_self, hinfo]
        simp [he, List.findIdx_cons]
      · rw [FlatMap.find_update_ne _ hf]
        simp only [List.map_cons, List.mem_cons, hf, false_or, List.findIdx_cons, Ne.symm hf,
          decide_false, cond_false]
        congr 1
        funext info
        split_ifs
        · congr 1
          omega
        · rfl

theorem keys_foldl_assign (v : List PatternEntry) (n : Nat) (m : PatternMap)
    (hkeys : ∀ e ∈ v, e.1 ∈ m.keys) :
    ((v.zipIdx n).foldl
      (fun m p => m.update p.1.1 {} fun info => withNumber info p.2) m).keys =
      m.keys := by
  induction v generalizing n m with
  | nil => rfl
  | cons e v ih =>
      have hfirst := FlatMap.keys_update_of_mem (hkeys e List.mem_cons_self) {}
        fun info : PatternFeatureInfo => withNumber info n
      rw [List.zipIdx_cons, List.foldl_cons, ih]
      · exact hfirst
      · intro e' he'
        rw [hfirst]
        exact hkeys e' (List.mem_cons_of_mem _ he')

@[simp]
theorem toNat_withNumber (info : PatternFeatureInfo) (idx : Nat) :
    (withNumber info idx).number.toNat = idx :=
  rfl

section Grouped

variable {m : PatternMap} {order : List PatternEntry}

/-- The patterns in their new order. -/
def sortedPatterns (order : List PatternEntry) :
    List PatternEntry :=
  sortByKey (fun e => groupKey e.2) order

theorem sortedPatterns_perm (horder : order.Perm m.entries) :
    (sortedPatterns order).Perm m.entries :=
  sortByKey_perm.trans horder

theorem nodup_sortedPatterns (horder : order.Perm m.entries) :
    ((sortedPatterns order).map Prod.fst).Nodup :=
  ((sortedPatterns_perm horder).map Prod.fst).nodup_iff.mpr m.nodup

theorem mem_keys_of_sorted (horder : order.Perm m.entries) {e : PatternEntry}
    (he : e ∈ sortedPatterns order) : e.1 ∈ m.keys :=
  List.mem_map_of_mem ((sortedPatterns_perm horder).mem_iff.mp he)

theorem keys_groupPatternFeatures (horder : order.Perm m.entries) :
    (groupPatternFeatures m order).keys = m.keys :=
  keys_foldl_assign _ 0 m fun _ he => mem_keys_of_sorted horder he

/-- Each pattern has its place in the sorted list as its number. -/
theorem find_groupPatternFeatures (horder : order.Perm m.entries) {i : Nat}
    {e : PatternEntry} (he : (sortedPatterns order)[i]? = some e) :
    (groupPatternFeatures m order).find e.1 = some (withNumber e.2 i) := by
  have hmem := List.mem_of_getElem? he
  have hfind : m.find e.1 = some e.2 :=
    FlatMap.find_eq_some_iff.mpr ((sortedPatterns_perm horder).mem_iff.mp hmem)
  have hassign := find_foldl_assign (sortedPatterns order) 0 m
    (fun _ he => mem_keys_of_sorted horder he) (nodup_sortedPatterns horder) e.1
  rw [hfind, Option.map_some, if_pos (List.mem_map_of_mem hmem), Nat.zero_add] at hassign
  obtain ⟨hi, hget⟩ := List.getElem?_eq_some_iff.mp he
  have hidx : ((sortedPatterns order).map Prod.fst).findIdx (fun f' => decide (f' = e.1)) = i := by
    rw [List.findIdx_eq (by rw [List.length_map]; exact hi)]
    refine ⟨by simp [hget], ?_⟩
    intro j hj
    simp only [List.getElem_map, decide_eq_false_iff_not]
    intro heq
    have hlt : j < ((sortedPatterns order).map Prod.fst).length := by
      rw [List.length_map]
      omega
    have hsame : j = i := by
      apply (List.getElem?_inj hlt (nodup_sortedPatterns horder)).mp
      rw [List.getElem?_map, List.getElem?_map, he, List.getElem?_eq_getElem (by omega)]
      exact congrArg some heq
    omega
  rw [hidx] at hassign
  exact hassign

theorem exists_place (horder : order.Perm m.entries) {f : List Int} (hf : f ∈ m.keys) :
    ∃ (i : Nat) (e : PatternEntry), (sortedPatterns order)[i]? = some e ∧ e.1 = f := by
  obtain ⟨e, he, rfl⟩ := List.mem_map.mp hf
  obtain ⟨i, hi⟩ := List.mem_iff_getElem?.mp ((sortedPatterns_perm horder).mem_iff.mpr he)
  exact ⟨i, e, hi, rfl⟩

theorem place_unique (horder : order.Perm m.entries) {i j : Nat} {e e' : PatternEntry}
    (hi : (sortedPatterns order)[i]? = some e) (hj : (sortedPatterns order)[j]? = some e')
    (heq : e.1 = e'.1) : i = j := by
  have h := (find_groupPatternFeatures horder hi).symm.trans
    (heq ▸ find_groupPatternFeatures horder hj)
  have hnumber := congrArg PatternFeatureInfo.number (Option.some.inj h)
  exact Int.ofNat.inj hnumber

theorem mem_grouped_iff (horder : order.Perm m.entries) {e' : PatternEntry} :
    e' ∈ (groupPatternFeatures m order).entries ↔
      ∃ (i : Nat) (e : PatternEntry), (sortedPatterns order)[i]? = some e ∧
        e' = (e.1, withNumber e.2 i) := by
  constructor
  · intro he'
    have hkey : e'.1 ∈ m.keys := by
      rw [← keys_groupPatternFeatures horder]
      exact List.mem_map_of_mem he'
    obtain ⟨i, e, hi, heq⟩ := exists_place horder hkey
    have hfind := find_groupPatternFeatures horder hi
    rw [heq, FlatMap.find_eq_some_iff.mpr he'] at hfind
    refine ⟨i, e, hi, ?_⟩
    rw [heq, ← Option.some.inj hfind]
  · rintro ⟨i, e, hi, rfl⟩
    exact FlatMap.find_eq_some_iff.mp (find_groupPatternFeatures horder hi)

end Grouped

/-! ## The compiled patterns -/

theorem length_foldl_fillPattern (order : List PatternEntry)
    (s : List PatternFeature × Nat) : (order.foldl fillPattern s).1.length = s.1.length := by
  induction order generalizing s with
  | nil => rfl
  | cons e order ih => rw [List.foldl_cons, ih, fillPattern, List.length_set]

theorem snd_foldl_fillPattern (order : List PatternEntry)
    (s : List PatternFeature × Nat) :
    (order.foldl fillPattern s).2 = s.2 + order.countP fun e => decide (UniOnly e.2) := by
  induction order generalizing s with
  | nil => rfl
  | cons e order ih =>
      rw [List.foldl_cons, ih]
      by_cases huni : UniOnly e.2
      · have hcount := @List.countP_cons_of_pos _ (fun e : PatternEntry => decide (UniOnly e.2)) e order
          (decide_eq_true huni)
        have hturn : (fillPattern s e).2 = s.2 + 1 := if_pos huni
        omega
      · have hcount := @List.countP_cons_of_neg _ (fun e : PatternEntry => decide (UniOnly e.2)) e order
          (by simpa using huni)
        have hturn : (fillPattern s e).2 = s.2 := if_neg huni
        omega

theorem getElem?_foldl_of_not_mem {order : List PatternEntry}
    {s : List PatternFeature × Nat} {i : Nat} (h : i ∉ order.map fun e => e.2.number.toNat) :
    (order.foldl fillPattern s).1[i]? = s.1[i]? := by
  induction order generalizing s with
  | nil => rfl
  | cons e order ih =>
      rw [List.map_cons, List.mem_cons, not_or] at h
      rw [List.foldl_cons, ih h.2]
      exact List.getElem?_set_ne (Ne.symm h.1)

/-- Each pattern is written to the slot of its number. -/
theorem getElem?_foldl_fillPattern {order : List PatternEntry}
    {s : List PatternFeature × Nat} (hnodup : (order.map fun e => e.2.number.toNat).Nodup)
    {e : PatternEntry} (he : e ∈ order) (hlt : e.2.number.toNat < s.1.length) :
    (order.foldl fillPattern s).1[e.2.number.toNat]? = some ⟨e.2.number, e.2.usage, e.1⟩ := by
  induction order generalizing s with
  | nil => cases he
  | cons first order ih =>
      rw [List.map_cons, List.nodup_cons] at hnodup
      rw [List.foldl_cons]
      rcases List.mem_cons.mp he with rfl | he
      · rw [getElem?_foldl_of_not_mem hnodup.1]
        exact List.getElem?_set_self hlt
      · exact ih hnodup.2 he (by rw [fillPattern, List.length_set]; exact hlt)

section Filled

variable {m : PatternMap} {order order' : List PatternEntry}
  (horder : order.Perm m.entries) (horder' : order'.Perm (groupPatternFeatures m order).entries)

include horder

theorem size_grouped : (groupPatternFeatures m order).size = (sortedPatterns order).length := by
  rw [FlatMap.size_eq, keys_groupPatternFeatures horder, ← FlatMap.size_eq]
  exact (sortedPatterns_perm horder).length_eq.symm

include horder'

theorem nodup_numbers : (order'.map fun e => e.2.number.toNat).Nodup := by
  have hkeys : (order'.map Prod.fst).Nodup :=
    (horder'.map Prod.fst).nodup_iff.mpr (groupPatternFeatures m order).nodup
  have hnodup : order'.Nodup := hkeys.of_map
  apply hnodup.map_on
  intro e he e' he' heq
  obtain ⟨i, x, hi, rfl⟩ := (mem_grouped_iff horder).mp (horder'.mem_iff.mp he)
  obtain ⟨j, y, hj, rfl⟩ := (mem_grouped_iff horder).mp (horder'.mem_iff.mp he')
  simp only [toNat_withNumber] at heq
  subst heq
  rw [hi] at hj
  cases hj
  rfl

/-- The compiled patterns stand in the sorted order. -/
theorem getElem?_fillPatterns (i : Nat) :
    (fillPatterns (groupPatternFeatures m order) order').1[i]? =
      (sortedPatterns order)[i]?.map fun e => ⟨i, e.2.usage, e.1⟩ := by
  have hsize := size_grouped horder
  have hlength : (fillPatterns (groupPatternFeatures m order) order').1.length =
      (sortedPatterns order).length := by
    rw [fillPatterns, length_foldl_fillPattern, List.length_replicate, hsize]
  cases hi : (sortedPatterns order)[i]? with
  | none =>
      rw [List.getElem?_eq_none_iff] at hi
      rw [List.getElem?_eq_none (by omega)]
      rfl
  | some e =>
      have hmem := horder'.mem_iff.mpr ((mem_grouped_iff horder).mpr ⟨i, e, hi, rfl⟩)
      have hlt := (List.getElem?_eq_some_iff.mp hi).1
      have hslot := getElem?_foldl_fillPattern
        (s := (List.replicate (groupPatternFeatures m order).size noPattern, 0))
        (nodup_numbers horder horder') hmem (by simp [hsize, hlt])
      simp only [toNat_withNumber] at hslot
      exact hslot

/-- The number of the patterns that only unigrams use. -/
theorem snd_fillPatterns : (fillPatterns (groupPatternFeatures m order) order').2 =
    (sortedPatterns order).countP fun e => decide (UniOnly e.2) := by
  have hperm : (order'.map fun e => (e.1, e.2.usage)).Perm
      ((sortedPatterns order).map fun e => (e.1, e.2.usage)) := by
    have hfirst : ∀ l : List PatternEntry,
        (l.map fun e => (e.1, e.2.usage)).map Prod.fst = l.map Prod.fst := fun l => by
      rw [List.map_map]
      rfl
    rw [List.perm_ext_iff_of_nodup]
    · rintro ⟨f, usage⟩
      simp only [List.mem_map, horder'.mem_iff, mem_grouped_iff horder]
      constructor
      · rintro ⟨e', ⟨i, e, hi, rfl⟩, heq⟩
        exact ⟨e, List.mem_of_getElem? hi, heq⟩
      · rintro ⟨e, he, heq⟩
        obtain ⟨i, hi⟩ := List.mem_iff_getElem?.mp he
        exact ⟨_, ⟨i, e, hi, rfl⟩, heq⟩
    · apply List.Nodup.of_map Prod.fst
      rw [hfirst]
      exact (horder'.map Prod.fst).nodup_iff.mpr (groupPatternFeatures m order).nodup
    · apply List.Nodup.of_map Prod.fst
      rw [hfirst]
      exact nodup_sortedPatterns horder
  have hcount := hperm.countP_eq fun x => decide (x.2 = 1)
  rw [List.countP_map, List.countP_map] at hcount
  rw [fillPatterns, snd_foldl_fillPattern, Nat.zero_add]
  exact hcount

end Filled

/-! ## The n-grams -/

/-- Every bigram and trigram refers to patterns that the analyzer computes, and what it leaves out is
referred to by unigrams alone. -/
def CompiledPatterns.NgramsFit (r : CompiledPatterns) : Prop :=
  (∀ ngram ∈ r.ngram, 2 ≤ ngram.references.length → ∀ ref ∈ ngram.references,
    0 ≤ ref ∧ ref < (r.pattern.length : Int) - r.numUniOnlyPats) ∧
  ∀ p ∈ r.pattern, p.usage = 1 → ∀ ngram ∈ r.ngram, p.index ∈ ngram.references →
    ngram.references.length = 1

/-- The sort puts no pattern that only unigrams use before another one. -/
def UniOnlyLast (order : List PatternEntry) : Prop :=
  ∀ a ∈ order, ∀ b ∈ order, UniOnly a.2 → ¬ UniOnly b.2 →
    groupKey b.2 < groupKey a.2 ∨ groupKey b.2 = groupKey a.2 ∧ List.Sublist [b, a] order

theorem mem_fillNgramFeatures {g : Gathered} {ngrams : List FeatureCombinator} {r : NgramFeature} :
    r ∈ fillNgramFeatures g ngrams ↔
      ∃ (number : Nat) (ngram : FeatureCombinator), ngrams[number]? = some ngram ∧
        fillNgram g number ngram = r := by
  unfold fillNgramFeatures
  rw [List.mem_map]
  constructor
  · rintro ⟨⟨ngram, number⟩, hmem, rfl⟩
    exact ⟨number, ngram, List.mk_mem_zipIdx_iff_getElem?.mp hmem, rfl⟩
  · rintro ⟨number, ngram, hget, rfl⟩
    exact ⟨(ngram, number), List.mk_mem_zipIdx_iff_getElem?.mpr hget, rfl⟩

section Compiled

variable {ngrams : List FeatureCombinator} {g : Gathered} {order order' : List PatternEntry}
  (h : Gathers (occurrences ngrams) g) (horder : order.Perm g.patternByCombo.entries)
  (horder' : order'.Perm (groupPatternFeatures g.patternByCombo order).entries)

include horder

theorem find_of_sorted {i : Nat} {e : PatternEntry} (hi : (sortedPatterns order)[i]? = some e) :
    g.patternByCombo.find e.1 = some e.2 :=
  FlatMap.find_eq_some_iff.mpr ((sortedPatterns_perm horder).mem_iff.mp (List.mem_of_getElem? hi))

include h

/-- The reference for a position is the place of its pattern. -/
theorem patternNumber_eq {ngram : FeatureCombinator} (hngram : ngram ∈ ngrams) {pos : List SpecName}
    (hpos : pos ∈ ngram.data) : ∃ (i : Nat) (e : PatternEntry), (sortedPatterns order)[i]? = some e ∧
      e.1 = keyOf g.computeByName pos ∧
      patternNumber (groupPatternFeatures g.patternByCombo order)
        (pos.map (numberOf g.computeByName)) = i := by
  have hocc : (ngram.data.length, pos) ∈ occurrences ngrams :=
    mem_occurrences_iff.mpr ⟨ngram, hngram, pos, hpos, rfl⟩
  have hkey : keyOf g.computeByName pos ∈ g.patternByCombo.keys :=
    (h.mem_keys _).mpr ⟨_, hocc, rfl⟩
  obtain ⟨i, e, hi, heq⟩ := exists_place horder hkey
  refine ⟨i, e, hi, heq, ?_⟩
  rw [map_numberOf h.compute (h.registered _ hocc), ← heq, patternNumber,
    find_groupPatternFeatures horder hi]
  rfl

/-- The patterns that n-grams of a higher order refer to are those which not only unigrams use. -/
theorem higher_reference_iff {i : Nat} {e : PatternEntry}
    (hi : (sortedPatterns order)[i]? = some e) : ¬ UniOnly e.2 ↔
      ∃ ngram ∈ fillNgramFeatures
          { g with patternByCombo := groupPatternFeatures g.patternByCombo order } ngrams,
        2 ≤ ngram.references.length ∧ (i : Int) ∈ ngram.references := by
  rw [uniOnly_iff h (find_of_sorted horder hi)]
  constructor
  · intro hnot
    obtain ⟨occ, hocc⟩ := not_forall.mp hnot
    rw [Classical.not_imp, Classical.not_imp] at hocc
    obtain ⟨hocc, hkey, horderNe⟩ := hocc
    have hone := order_of_mem_occurrences hocc
    obtain ⟨ngram, hngram, pos, hpos, rfl⟩ := mem_occurrences_iff.mp hocc
    obtain ⟨number, hnumber⟩ := List.mem_iff_getElem?.mp hngram
    obtain ⟨j, e', hj, heq, href⟩ := patternNumber_eq h horder hngram hpos
    have hplace := place_unique horder hj hi (heq.trans hkey)
    refine ⟨_, mem_fillNgramFeatures.mpr ⟨number, ngram, hnumber, rfl⟩, ?_, ?_⟩
    · simp only [fillNgram, List.length_map]
      omega
    · rw [← hplace, ← href]
      exact List.mem_map_of_mem hpos
  · rintro ⟨r, hr, hlength, href⟩ hall
    obtain ⟨number, ngram, hnumber, rfl⟩ := mem_fillNgramFeatures.mp hr
    have hngram := List.mem_of_getElem? hnumber
    obtain ⟨pos, hpos, hvalue⟩ := List.mem_map.mp href
    obtain ⟨j, e', hj, heq, hplace⟩ := patternNumber_eq h horder hngram hpos
    have hij : j = i := by
      rw [hplace] at hvalue
      exact Int.ofNat.inj hvalue
    rw [hij, hi] at hj
    cases hj
    have hone := hall _ (mem_occurrences_iff.mpr ⟨ngram, hngram, pos, hpos, rfl⟩) heq.symm
    simp only [fillNgram, List.length_map] at hlength
    omega

include horder'

theorem ngramsFit_iff_first :
    CompiledPatterns.NgramsFit
      ⟨(fillPatterns (groupPatternFeatures g.patternByCombo order) order').1,
        fillNgramFeatures { g with patternByCombo := groupPatternFeatures g.patternByCombo order } ngrams,
        (fillPatterns (groupPatternFeatures g.patternByCombo order) order').2⟩ ↔
      (sortedPatterns order).Pairwise fun x y => readHigher y = true → readHigher x = true := by
  have hpatterns := getElem?_fillPatterns horder horder'
  have hlength : (fillPatterns (groupPatternFeatures g.patternByCombo order) order').1.length =
      (sortedPatterns order).length := by
    rw [fillPatterns, length_foldl_fillPattern, List.length_replicate, size_grouped horder]
  have hcount : (sortedPatterns order).length =
      (sortedPatterns order).countP (fun e => decide (UniOnly e.2)) +
        (sortedPatterns order).countP readHigher := by
    rw [List.length_eq_countP_add_countP fun e => decide (UniOnly e.2)]
    congr 1
    apply List.countP_congr
    intro e _
    simp [readHigher]
  rw [pairwise_iff_lt_countP, CompiledPatterns.NgramsFit, hlength, snd_fillPatterns horder horder']
  constructor
  · rintro ⟨hfirst, -⟩ i hi hread
    obtain ⟨r, hr, hhigher, href⟩ := (higher_reference_iff h horder
      (List.getElem?_eq_getElem hi)).mp (readHigher_iff.mp hread)
    have hlt := (hfirst r hr hhigher _ href).2
    simp only at hlt
    omega
  · intro hlt
    constructor
    · intro r hr hhigher ref href
      obtain ⟨number, ngram, hnumber, rfl⟩ := mem_fillNgramFeatures.mp hr
      obtain ⟨pos, hpos, hvalue⟩ := List.mem_map.mp href
      obtain ⟨i, e, hi, -, hplace⟩ := patternNumber_eq h horder (List.mem_of_getElem? hnumber) hpos
      have hrefi : ref = i := hvalue.symm.trans hplace
      rw [hrefi] at href ⊢
      obtain ⟨hbound, hget⟩ := List.getElem?_eq_some_iff.mp hi
      have huni := (higher_reference_iff h horder hi).mpr ⟨_, hr, hhigher, href⟩
      have hi' := hlt i hbound (by rw [hget]; exact readHigher_iff.mpr huni)
      simp only
      omega
    · intro p hp huni r hr href
      obtain ⟨i, hi⟩ := List.mem_iff_getElem?.mp hp
      rw [hpatterns] at hi
      obtain ⟨e, he, rfl⟩ := Option.map_eq_some_iff.mp hi
      by_contra hlengthNe
      have hpos : 0 < r.references.length := List.length_pos_of_mem href
      have hnot := (higher_reference_iff h horder he).mpr ⟨r, hr, by omega, href⟩
      exact hnot huni

end Compiled

theorem pairwise_iff_uniOnlyLast {m : PatternMap} {order : List PatternEntry}
    (horder : order.Perm m.entries) :
    ((sortedPatterns order).Pairwise fun x y => readHigher y = true → readHigher x = true) ↔
      UniOnlyLast order := by
  have hnodup : order.Nodup := ((horder.map Prod.fst).nodup_iff.mpr m.nodup).of_map
  rw [sortedPatterns, sortByKey_first_iff hnodup readHigher]
  simp only [readHigher_iff, not_not]
  rfl

/-- When the n-grams find all their patterns among those that the analyzer computes. -/
theorem compilePatterns_ngramsFit_iff {bldr : ModelSpecBuilder} {fields : List Field} {g : Gathered}
    (hg : gatherFeatureInfo bldr fields = some g) {order order' : List PatternEntry}
    (horder : order.Perm g.patternByCombo.entries)
    (horder' : order'.Perm (groupPatternFeatures g.patternByCombo order).entries) :
    (∃ r, compilePatterns bldr.ngrams g order order' = some r ∧ r.NgramsFit) ↔
      CountersFit g ∧ UniOnlyLast order := by
  have h := gathers_gatherFeatureInfo hg
  rw [← pairwise_iff_uniOnlyLast horder]
  unfold compilePatterns
  by_cases hfit : CountersFit g
  · rw [if_pos hfit]
    simp only [Option.some.injEq, exists_eq_left', hfit, true_and]
    exact ngramsFit_iff_first h horder horder'
  · rw [if_neg hfit]
    simp [hfit]

/-- In particular with at most `49 * 2 ^ 16` patterns. -/
theorem uniOnlyLast_of_size_le {bldr : ModelSpecBuilder} {fields : List Field} {g : Gathered}
    (hg : gatherFeatureInfo bldr fields = some g) {order : List PatternEntry}
    (horder : order.Perm g.patternByCombo.entries) (hsize : g.patternByCombo.size ≤ 49 * 2 ^ 16) :
    UniOnlyLast order := by
  have h := gathers_gatherFeatureInfo hg
  intro a ha b hb huni hhigher
  have hfinda := FlatMap.find_eq_some_iff.mpr (horder.mem_iff.mp ha)
  have hfindb := FlatMap.find_eq_some_iff.mpr (horder.mem_iff.mp hb)
  have hnumbera := h.patterns.lt hfinda
  have hnumberb := h.patterns.lt hfindb
  have hscore := score_le h hfindb hhigher
  have hhundred : scoreForUsage a.2.usage = 100 := by rw [show a.2.usage = 1 from huni]; rfl
  left
  unfold groupKey
  omega

/-! ## Small and large definitions -/

/-- A unigram of the feature `a` and a bigram of `b` and `a`. -/
def uniAndBigram : ModelSpecBuilder where
  fields := [⟨[115], .String, true⟩]
  features := [{ name := [97], type := .Placeholder }, { name := [98], type := .Placeholder }]
  ngrams := [.unigram [[97]], .bigram [[98]] [[97]]]
  unks := []

def surfaceField : Field := ⟨0, -2 ^ 31, [115], true, .String⟩

theorem nodup_names : ([[97], [98]] : List SpecName).Nodup := by decide

theorem nodup_combos : ([[0], [1]] : List (List Int)).Nodup := by decide

def uniAndBigramGathered : Gathered where
  computeByName := ⟨[([97], { number := 0 }), ([98], { number := 1 })], nodup_names⟩
  patternByCombo := ⟨[([0], ⟨0, 3⟩), ([1], ⟨1, 2⟩)], nodup_combos⟩

theorem compilePatterns_ngramsFit_iff_two :
    ∃ r, compilePatterns uniAndBigram.ngrams uniAndBigramGathered
      uniAndBigramGathered.patternByCombo.entries
      (groupPatternFeatures uniAndBigramGathered.patternByCombo
        uniAndBigramGathered.patternByCombo.entries).entries = some r ∧ r.NgramsFit :=
  have hg : gatherFeatureInfo uniAndBigram [surfaceField] = some uniAndBigramGathered := rfl
  (compilePatterns_ngramsFit_iff hg (.refl _) (.refl _)).mpr
    ⟨by decide, uniOnlyLast_of_size_le hg (.refl _) (by decide)⟩

/-- The letters of the base-16 digits. -/
def letters (k : Nat) : SpecName :=
  [5, 4, 3, 2, 1, 0].map fun i => UInt8.ofNat (97 + k / 16 ^ i % 16)

theorem letters_inj {j k : Nat} (hj : j < 16 ^ 6) (hk : k < 16 ^ 6) (h : letters j = letters k) :
    j = k := by
  have hdigit : ∀ i ∈ [5, 4, 3, 2, 1, 0], j / 16 ^ i % 16 = k / 16 ^ i % 16 := by
    intro i hi
    have hletter := congrArg UInt8.toNat (List.map_inj_left.mp h i hi)
    simp only [UInt8.toNat_ofNat'] at hletter
    omega
  simp only [List.forall_mem_cons] at hdigit
  omega


/-- Every name seen has a pattern of its own. -/
structure Aligned (g : Gathered) : Prop where
  compute : Numbered g.computeByName
  keys : g.patternByCombo.keys = (List.range g.computeByName.size).map fun k : Nat => [(k : Int)]

theorem aligned_empty : Aligned ⟨.empty, .empty⟩ :=
  ⟨FlatMap.numbered_empty _, rfl⟩

/-- A position of one name that has been seen changes no keys. -/
theorem keys_gatherOccurrence_of_mem {g : Gathered} (h : Aligned g) {name : SpecName}
    (hname : name ∈ g.computeByName.keys) (order : Nat) :
    (gatherOccurrence g (order, [name])).computeByName.keys = g.computeByName.keys ∧
      (gatherOccurrence g (order, [name])).patternByCombo.keys = g.patternByCombo.keys := by
  have hcompute : (registerFeature g.computeByName name).keys = g.computeByName.keys :=
    FlatMap.keys_update_of_mem hname _ _
  refine ⟨hcompute, ?_⟩
  apply FlatMap.keys_update_of_mem
  show [numberOf (registerFeature g.computeByName name) name] ∈ _
  have hposition := FlatMap.position_stable (prefix_registerFeature g.computeByName name) hname
  rw [numberOf_eq (numbered_registerFeature h.compute name) (mem_registerFeature _ name), hposition,
    h.keys]
  exact List.mem_map_of_mem (List.mem_range.mpr (FlatMap.position_lt hname))

/-- A position of one new name is a new pattern. -/
theorem keys_gatherOccurrence_of_not_mem {g : Gathered} (h : Aligned g) {name : SpecName}
    (hname : name ∉ g.computeByName.keys) (order : Nat) :
    (gatherOccurrence g (order, [name])).computeByName.keys = g.computeByName.keys ++ [name] ∧
      (gatherOccurrence g (order, [name])).patternByCombo.keys =
        g.patternByCombo.keys ++ [[(g.computeByName.size : Int)]] := by
  have hcompute : (registerFeature g.computeByName name).keys = g.computeByName.keys ++ [name] :=
    FlatMap.keys_update_of_not_mem hname _ _
  have hnumber : numberOf (registerFeature g.computeByName name) name = g.computeByName.size := by
    rw [numberOf_eq (numbered_registerFeature h.compute name) (mem_registerFeature _ name),
      FlatMap.position_new hname hcompute]
  refine ⟨hcompute, ?_⟩
  have hkeys := @FlatMap.keys_update_of_not_mem _ PatternFeatureInfo _ g.patternByCombo
    [(g.computeByName.size : Int)] (by rw [h.keys]; simp) {} (usePattern g.patternByCombo.size order)
  rw [← hnumber] at hkeys ⊢
  exact hkeys

theorem Aligned.step {g : Gathered} (h : Aligned g) (order : Nat) (name : SpecName) :
    Aligned (gatherOccurrence g (order, [name])) := by
  refine ⟨numbered_registerFeature h.compute name, ?_⟩
  by_cases hname : name ∈ g.computeByName.keys
  · have hkeys := keys_gatherOccurrence_of_mem h hname order
    rw [hkeys.2, h.keys, FlatMap.size_eq, FlatMap.size_eq, hkeys.1]
  · have hkeys := keys_gatherOccurrence_of_not_mem h hname order
    rw [hkeys.2, h.keys, FlatMap.size_eq, FlatMap.size_eq, hkeys.1, List.length_append,
      List.length_singleton, List.range_succ, List.map_append]
    rfl

/-- New names are numbered in their order. -/
theorem aligned_foldl (names : List SpecName) {g : Gathered} (h : Aligned g)
    (hnodup : (g.computeByName.keys ++ names).Nodup) :
    Aligned ((names.map fun name => (1, [name])).foldl gatherOccurrence g) ∧
      ((names.map fun name => (1, [name])).foldl gatherOccurrence g).computeByName.keys =
        g.computeByName.keys ++ names := by
  induction names generalizing g with
  | nil => exact ⟨h, (List.append_nil _).symm⟩
  | cons name names ih =>
      have hname : name ∉ g.computeByName.keys := fun hmem =>
        (List.nodup_append.mp hnodup).2.2 name hmem name List.mem_cons_self rfl
      have hkeys := (keys_gatherOccurrence_of_not_mem h hname 1).1
      rw [List.append_cons, ← hkeys] at hnodup
      have hrest := ih (h.step 1 name) hnodup
      rw [hkeys, ← List.append_cons] at hrest
      exact hrest

/-- In an aligned map a pattern has the number of its name. -/
theorem Aligned.find {g : Gathered} (h : Aligned g)
    (hpatterns : g.patternByCombo.Numbered PatternFeatureInfo.number) {k : Nat}
    (hk : k < g.computeByName.size) :
    ∃ info, g.patternByCombo.find [(k : Int)] = some info ∧ info.number = k := by
  have hmem : [(k : Int)] ∈ g.patternByCombo.keys := by
    rw [h.keys]
    exact List.mem_map_of_mem (List.mem_range.mpr hk)
  obtain ⟨info, hinfo⟩ := FlatMap.mem_keys_iff.mp hmem
  have hget := FlatMap.getElem?_position hmem
  rw [h.keys, List.getElem?_map] at hget
  obtain ⟨i, hi, heq⟩ := Option.map_eq_some_iff.mp hget
  have hposition := (List.getElem?_eq_some_iff.mp hi).2
  rw [List.getElem_range] at hposition
  refine ⟨info, hinfo, ?_⟩
  rw [hpatterns _ _ hinfo, hposition]
  exact List.head_eq_of_cons_eq heq

/-- Many unigrams of one feature each, and a bigram of the last one. -/
def manyUnigrams (n : Nat) : ModelSpecBuilder where
  fields := [⟨[115], .String, true⟩]
  features := (List.range (n + 1)).map fun k => { name := letters k, type := .Placeholder }
  ngrams := ((List.range (n + 1)).map fun k => .unigram [letters k]) ++
    [.bigram [letters n] [letters n]]
  unks := []


theorem occurrences_manyUnigrams (n : Nat) : occurrences (manyUnigrams n).ngrams =
    ((List.range (n + 1)).map letters).map (fun name => (1, [name])) ++
      [(2, [letters n]), (2, [letters n])] := by
  simp only [occurrences, manyUnigrams, List.flatMap_append, List.flatMap_map, List.map_map]
  rw [List.map_eq_flatMap]
  rfl

theorem registers_placeholders (fields : List Field) (l : List Nat) (m : ComputeMap) :
    (l.map fun k => ({ name := letters k, type := .Placeholder } : FeatureBuilder)).foldlM
      (registerReferences fields) m = some m := by
  induction l with
  | nil => rfl
  | cons k l ih => exact ih

theorem gatherFeatureInfo_manyUnigrams (n : Nat) (fields : List Field) :
    gatherFeatureInfo (manyUnigrams n) fields =
      some ((occurrences (manyUnigrams n).ngrams).foldl gatherOccurrence ⟨.empty, .empty⟩) := by
  rw [← foldl_gatherNgram]
  unfold gatherFeatureInfo
  have hfeatures := registers_placeholders fields (List.range (n + 1))
    ((manyUnigrams n).ngrams.foldl gatherNgram ⟨.empty, .empty⟩).computeByName
  exact congrArg (Option.map _) hfeatures

section Many

variable {n : Nat} (hn : n + 1 ≤ 16 ^ 6) {fields : List Field} {g : Gathered}
  (hg : gatherFeatureInfo (manyUnigrams n) fields = some g)

include hn hg

theorem aligned_manyUnigrams :
    Aligned g ∧ g.computeByName.keys = (List.range (n + 1)).map letters := by
  rw [gatherFeatureInfo_manyUnigrams, occurrences_manyUnigrams, List.foldl_append] at hg
  have hnodup : ((List.range (n + 1)).map letters).Nodup := by
    apply List.nodup_range.map_on
    intro j hj k hk
    rw [List.mem_range] at hj hk
    exact letters_inj (by omega) (by omega)
  obtain ⟨haligned, hkeys⟩ := aligned_foldl ((List.range (n + 1)).map letters) aligned_empty hnodup
  cases hg
  generalize ((((List.range (n + 1)).map letters).map fun name => (1, [name])).foldl
    gatherOccurrence ⟨.empty, .empty⟩) = g at haligned hkeys
  have hlast : letters n ∈ g.computeByName.keys := by
    rw [hkeys]
    exact List.mem_append_right _ (List.mem_map_of_mem (List.mem_range.mpr (Nat.lt_succ_self n)))
  have hkeys₁ := (keys_gatherOccurrence_of_mem haligned hlast 2).1
  have hlast₁ := hlast
  rw [← hkeys₁] at hlast₁
  have haligned₁ := haligned.step 2 (letters n)
  have hkeys₂ := (keys_gatherOccurrence_of_mem haligned₁ hlast₁ 2).1
  refine ⟨haligned₁.step 2 (letters n), ?_⟩
  exact (hkeys₂.trans hkeys₁).trans hkeys

theorem position_letters {k : Nat} (hk : k ≤ n) : g.computeByName.position (letters k) = k := by
  have hkeys := (aligned_manyUnigrams hn hg).2
  have hmem : letters k ∈ g.computeByName.keys := by
    rw [hkeys]
    exact List.mem_map_of_mem (List.mem_range.mpr (by omega))
  have hget := FlatMap.getElem?_position hmem
  rw [hkeys, List.getElem?_map] at hget
  obtain ⟨i, hi, heq⟩ := Option.map_eq_some_iff.mp hget
  obtain ⟨hlt, hposition⟩ := List.getElem?_eq_some_iff.mp hi
  rw [List.length_range] at hlt
  rw [List.getElem_range] at hposition
  rw [hposition]
  exact letters_inj (by omega) (by omega) heq

theorem size_manyUnigrams : g.computeByName.size = n + 1 := by
  rw [FlatMap.size_eq, (aligned_manyUnigrams hn hg).2, List.length_map, List.length_range]

/-- The pattern of each feature has its number, and only that of the last is used in the bigram. -/
theorem find_manyUnigrams {k : Nat} (hk : k ≤ n) :
    g.patternByCombo.find [(k : Int)] = some ⟨k, if k = n then 3 else 1⟩ := by
  have h := gathers_gatherFeatureInfo hg
  have haligned := (aligned_manyUnigrams hn hg).1
  obtain ⟨info, hinfo, hnumber⟩ := haligned.find h.patterns (k := k)
    (by rw [size_manyUnigrams hn hg]; omega)
  have hposition := fun {k : Nat} (hk : k ≤ n) => position_letters hn hg hk
  have husage : info.usage = if k = n then 3 else 1 := by
    apply Nat.eq_of_testBit_eq
    intro bit
    have hkey : ∀ j ≤ n, keyOf g.computeByName [letters j] = [(k : Int)] ↔ j = k := by
      intro j hj
      rw [keyOf_cons, hposition hj]
      simp [keyOf]
    rw [Bool.eq_iff_iff, h.usage _ _ hinfo bit, occurrences_manyUnigrams]
    constructor
    · rintro ⟨occ, hocc, heq, rfl⟩
      rcases List.mem_append.mp hocc with hocc | hocc
      · obtain ⟨name, -, rfl⟩ := List.mem_map.mp hocc
        split_ifs
        · show Nat.testBit 3 0 = true
          decide
        · show Nat.testBit 1 0 = true
          decide
      · have hlast : occ = (2, [letters n]) := by simpa using hocc
        rw [hlast] at heq ⊢
        rw [if_pos ((hkey n le_rfl).mp heq).symm]
        show Nat.testBit 3 1 = true
        decide
    · intro hbit
      rcases bit with _ | _ | bit
      · refine ⟨(1, [letters k]), List.mem_append_left _ ?_, (hkey k hk).mpr rfl, rfl⟩
        exact List.mem_map_of_mem (List.mem_map_of_mem (List.mem_range.mpr (by omega)))
      · by_cases hlast : k = n
        · exact ⟨(2, [letters n]), by simp, (hkey n le_rfl).mpr hlast.symm, rfl⟩
        · rw [if_neg hlast] at hbit
          cases hbit
      · split_ifs at hbit
        · simp [Nat.testBit_succ] at hbit
        · simp [Nat.testBit_succ] at hbit
  rw [hinfo, ← hnumber, ← husage]

end Many


/-- One more unigram than the score leaves room for. -/
def tooManyUnigrams : ModelSpecBuilder := manyUnigrams (49 * 2 ^ 16 + 1)

theorem countersFit_tooManyUnigrams {fields : List Field} {g : Gathered}
    (hg : gatherFeatureInfo tooManyUnigrams fields = some g) : CountersFit g := by
  have h := gathers_gatherFeatureInfo hg
  have haligned := (aligned_manyUnigrams (by norm_num) hg).1
  have hsize := size_manyUnigrams (by norm_num) hg
  refine ⟨by omega, ?_⟩
  intro e he
  have hfind := FlatMap.find_eq_some_iff.mpr he
  have hlt := h.patterns.lt hfind
  rw [FlatMap.size_eq, haligned.keys, List.length_map, List.length_range, hsize] at hlt
  have hscore : scoreForUsage e.2.usage ≤ 1000 := by
    by_cases huni : UniOnly e.2
    · rw [show e.2.usage = 1 from huni]
      decide
    · exact le_trans (score_le h hfind huni) (by norm_num)
  unfold groupKey
  omega

theorem not_uniOnlyLast_tooManyUnigrams {fields : List Field} {g : Gathered}
    (hg : gatherFeatureInfo tooManyUnigrams fields = some g) {order : List PatternEntry}
    (horder : order.Perm g.patternByCombo.entries) : ¬ UniOnlyLast order := by
  intro hlast
  have hfirst := find_manyUnigrams (by norm_num) hg (Nat.zero_le _)
  have hbigram := find_manyUnigrams (by norm_num) hg (Nat.le_refl _)
  rw [FlatMap.find_eq_some_iff, ← horder.mem_iff] at hfirst hbigram
  -- the bigram's number has spilled into its score
  have hkeys := hlast _ hfirst _ hbigram (by decide) (by decide)
  have hkeyFirst : groupKey ⟨(0 : Nat), if 0 = 49 * 2 ^ 16 + 1 then 3 else 1⟩ = 6553600 := by decide
  have hkeyBigram : groupKey ⟨(49 * 2 ^ 16 + 1 : Nat),
      if 49 * 2 ^ 16 + 1 = 49 * 2 ^ 16 + 1 then 3 else 1⟩ = 6553601 := by decide
  rw [hkeyFirst, hkeyBigram] at hkeys
  omega

theorem tooManyUnigrams_not_ngramsFit :
    ¬ ∀ (bldr : ModelSpecBuilder) (fields : List Field) (g : Gathered),
      gatherFeatureInfo bldr fields = some g → ∀ order order' : List PatternEntry,
        order.Perm g.patternByCombo.entries →
        order'.Perm (groupPatternFeatures g.patternByCombo order).entries →
        ∀ r, compilePatterns bldr.ngrams g order order' = some r → r.NgramsFit := by
  intro hclaim
  have hg := gatherFeatureInfo_manyUnigrams (49 * 2 ^ 16 + 1) [surfaceField]
  generalize (occurrences (manyUnigrams (49 * 2 ^ 16 + 1)).ngrams).foldl gatherOccurrence
    ⟨.empty, .empty⟩ = g at hg
  have horder := List.Perm.refl g.patternByCombo.entries
  have horder' := List.Perm.refl (groupPatternFeatures g.patternByCombo g.patternByCombo.entries).entries
  have hfit := hclaim tooManyUnigrams [surfaceField] g hg _ _ horder horder' _
    (if_pos (countersFit_tooManyUnigrams hg))
  apply not_uniOnlyLast_tooManyUnigrams hg horder
  rw [← pairwise_iff_uniOnlyLast horder]
  exact (ngramsFit_iff_first (gathers_gatherFeatureInfo hg) horder horder').mp hfit

end Jumanpp.Core.Spec.SpecCompiler
