import Mathlib
import Jumanpp.Core.Spec.CompiledReferences

/-!
# The features of a compiled definition

The last loop gives every registered name its primitive and its computation feature.  With that every
reference of a compiled definition is known.
-/

namespace Jumanpp.Core.Spec.SpecCompiler

open Jumanpp.Lib

/-- What a primitive feature of the name refers to is there for the analyzer to read.  Codepoint features
refer to a distance that may be negative.  The length of a list field is left out. -/
def ValidInfo (features : List FeatureBuilder) (dic : DicNumbers) (numPlaceholders : Nat)
    (name : SpecName) (info : PrimitiveInfo) : Prop :=
  match info.1 with
  | .Copy => ∃ k : Nat, info.2 = [(k : Int)] ∧ k < dic.numDicFeatures
  | .SingleBit => ∃ d ∈ dic.dictionary, d.isMatch = true ∧ d.name = name ∧
      ∃ d' ∈ dic.dictionary, d'.isMatch = true ∧ d'.name = name ∧ info.2 = [d.target, d'.shift]
  | .Provided => ∃ k : Nat, info.2 = [(k : Int)] ∧ k < numPlaceholders
  | .ByteLength | .CodepointSize => ∃ fld ∈ dic.fields, info.2 = [fld.dicIndex] ∧
      (fld.fieldType = .String ∨ fld.fieldType = .Int → 0 ≤ fld.dicIndex)
  | .SurfaceCodepointSize => info.2 = []
  | .CodepointType | .Codepoint => ∃ f ∈ features, f.name = name ∧ info.2 = [f.intParam]
  | .Invalid => False

theorem ValidInfo.mono {features : List FeatureBuilder} {dic : DicNumbers} {n n' : Nat}
    {name : SpecName} {info : PrimitiveInfo} (hn : n ≤ n')
    (h : ValidInfo features dic n name info) : ValidInfo features dic n' name info := by
  obtain ⟨kind, references⟩ := info
  cases kind with
  | Provided =>
      obtain ⟨k, hk, hlt⟩ := h
      exact ⟨k, hk, Nat.lt_of_lt_of_le hlt hn⟩
  | _ => exact h

theorem findFeature_spec {features : List FeatureBuilder} {name : SpecName} {f : FeatureBuilder}
    (h : findFeature features name = some f) : f ∈ features ∧ f.name = name := by
  have heq := List.find?_some h
  exact ⟨List.mem_of_find?_eq_some h, (of_decide_eq_true heq).symm⟩

section Filling

variable {bldr : ModelSpecBuilder} {g : Gathered} {fields : List Field} {imports : List DicImport}
  {st : DicState} {dic : DicNumbers} (h : DicMade bldr g fields imports st dic)
  (hnames : bldr.validateNames) (hwithin : Within bldr.Declares g.computeByName)

include h hnames hwithin

theorem validInfo_primitiveInfo {name : SpecName} {afi : AccessFeatureInfo}
    (hafi : dic.computeByName.find name = some afi) {n n' : Nat} {info : PrimitiveInfo}
    (hinfo : primitiveInfo bldr.features dic.fields name afi n = some (info, n')) :
    n ≤ n' ∧ ValidInfo bldr.features dic n' name info := by
  have hname : name ∈ g.computeByName.keys := by
    rw [← h.flagged.keys, ← h.numbered.keys]
    exact FlatMap.mem_keys_iff.mpr ⟨afi, hafi⟩
  unfold primitiveInfo at hinfo
  split at hinfo
  next f hfeature =>
    obtain ⟨hf, hfname⟩ := findFeature_spec hfeature
    have hsingle := fun hmatch => h.singleBit hnames hname hfeature hmatch hafi
    have hlength : ∀ ref ∈ f.fields[0]?, ∀ fld, fieldByName dic.fields ref = some fld →
        fld ∈ dic.fields ∧ (fld.fieldType = .String ∨ fld.fieldType = .Int → 0 ≤ fld.dicIndex) := by
      intro ref href fld hfld
      refine ⟨List.mem_of_find?_eq_some hfld, ?_⟩
      exact h.length hf (List.mem_of_getElem? href) hfld
    unfold copyPrimitiveInfo at hinfo
    split at hinfo
    next htype =>
      cases hinfo
      obtain ⟨⟨d, hd, hmatch, hdname, hfinal⟩, d', hd', hmatch', hdname', hshift⟩ :=
        hsingle (by simp [FeatureBuilder.isMatch, htype])
      exact ⟨le_rfl, d, hd, hmatch, hdname, d', hd', hmatch', hdname', by rw [hfinal, hshift]⟩
    next htype =>
      cases hinfo
      obtain ⟨⟨d, hd, hmatch, hdname, hfinal⟩, d', hd', hmatch', hdname', hshift⟩ :=
        hsingle (by simp [FeatureBuilder.isMatch, htype])
      exact ⟨le_rfl, d, hd, hmatch, hdname, d', hd', hmatch', hdname', by rw [hfinal, hshift]⟩
    · cases hinfo
      exact ⟨Nat.le_succ n, n, rfl, Nat.lt_succ_self n⟩
    · obtain ⟨ref, href, hinfo⟩ := Option.bind_eq_some_iff.mp hinfo
      obtain ⟨fld, hfld, hinfo⟩ := Option.bind_eq_some_iff.mp hinfo
      cases hinfo
      obtain ⟨hmem, hindex⟩ := hlength ref href fld hfld
      exact ⟨le_rfl, fld, hmem, rfl, hindex⟩
    · obtain ⟨ref, href, hinfo⟩ := Option.bind_eq_some_iff.mp hinfo
      obtain ⟨fld, hfld, hinfo⟩ := Option.bind_eq_some_iff.mp hinfo
      obtain ⟨hmem, hindex⟩ := hlength ref href fld hfld
      split_ifs at hinfo
      · cases hinfo
        exact ⟨le_rfl, rfl⟩
      · cases hinfo
        exact ⟨le_rfl, fld, hmem, rfl, hindex⟩
    · cases hinfo
      exact ⟨le_rfl, f, hf, hfname, rfl⟩
    · cases hinfo
      exact ⟨le_rfl, f, hf, hfname, rfl⟩
    · cases hinfo
    · cases hinfo
  next hfeature =>
    obtain ⟨fld, -, hinfo⟩ := Option.bind_eq_some_iff.mp hinfo
    obtain ⟨k, hk, hfinal⟩ := h.copy hwithin hname hfeature hafi
    split at hinfo
    · cases hinfo
      exact ⟨le_rfl, k, by rw [hfinal], hk⟩
    · cases hinfo
      exact ⟨le_rfl, k, by rw [hfinal], hk⟩
    · cases hinfo

end Filling

/-! ## The loop over the registered names -/

/-- The state after some names have been filled in. -/
structure FilledWith (features : List FeatureBuilder) (dic : DicNumbers) (size : Nat)
    (done : List (SpecName × AccessFeatureInfo)) (s : Filled) : Prop where
  length_primitive : s.primitive.length = size
  length_computation : s.computation.length = size
  primitive : ∀ e ∈ done, ∃ info : PrimitiveInfo,
    s.primitive[e.2.number.toNat]? = some ⟨e.2.number, e.1, info.1, info.2⟩ ∧
      ValidInfo features dic s.numPlaceholders e.1 info
  computation : ∀ e ∈ done, s.computation[e.2.number.toNat]? =
    some ⟨e.1, e.2.number, e.2.number, e.2.trueBranch, e.2.falseBranch⟩

section Filling

variable {bldr : ModelSpecBuilder} {g : Gathered} {fields : List Field} {imports : List DicImport}
  {st : DicState} {dic : DicNumbers} (h : DicMade bldr g fields imports st dic)
  (hnames : bldr.validateNames) (hwithin : Within bldr.Declares g.computeByName)
  {order : List (SpecName × AccessFeatureInfo)} (horder : order.Perm dic.computeByName.entries)

include h horder

omit h in
theorem find_of_order {e : SpecName × AccessFeatureInfo} (he : e ∈ order) :
    dic.computeByName.find e.1 = some e.2 :=
  FlatMap.find_eq_some_iff.mpr (horder.mem_iff.mp he)

omit h in
theorem length_order : order.length = dic.computeByName.size :=
  horder.length_eq

theorem number_of_order {e : SpecName × AccessFeatureInfo} (he : e ∈ order) :
    ∃ k : Nat, k < order.length ∧ e.2.number = k := by
  have hlt := FlatMap.Numbered.lt h.numbered.numbered (find_of_order horder he)
  rw [← length_order horder] at hlt
  exact ⟨e.2.number.toNat, by omega, by omega⟩

theorem nodup_order : (order.map fun e => e.2.number.toNat).Nodup := by
  have hnodup : order.Nodup :=
    ((horder.map Prod.fst).nodup_iff.mpr dic.computeByName.nodup).of_map
  apply hnodup.map_on
  intro e he e' he' heq
  obtain ⟨k, -, hk⟩ := number_of_order h horder he
  obtain ⟨k', -, hk'⟩ := number_of_order h horder he'
  have hfind := find_of_order horder he
  have hfind' := find_of_order horder he'
  have hkey := FlatMap.Numbered.inj h.numbered.numbered hfind hfind' (by omega)
  rw [hkey, hfind'] at hfind
  exact Prod.ext hkey (Option.some.inj hfind).symm

include hnames hwithin

theorem FilledWith.step {done rest : List (SpecName × AccessFeatureInfo)}
    {e : SpecName × AccessFeatureInfo} (htotal : order = done ++ e :: rest) {s s' : Filled}
    (hs : FilledWith bldr.features dic order.length done s)
    (hstep : fillFeature bldr.features dic.fields s e = some s') :
    FilledWith bldr.features dic order.length (done ++ [e]) s' := by
  have he : e ∈ order := by simp [htotal]
  obtain ⟨k, hk, hnumber⟩ := number_of_order h horder he
  have hnew : ∀ e' ∈ done, k ≠ e'.2.number.toNat := by
    intro e' he' heq
    have hnodup := nodup_order h horder
    rw [htotal, List.map_append, List.map_cons, hnumber, Int.toNat_natCast] at hnodup
    have hmem : e'.2.number.toNat ∈ done.map fun e => e.2.number.toNat := List.mem_map_of_mem he'
    exact (List.nodup_append.mp hnodup).2.2 _ hmem k List.mem_cons_self heq.symm
  unfold fillFeature at hstep
  obtain ⟨⟨info, n'⟩, hinfo, hstep⟩ := Option.bind_eq_some_iff.mp hstep
  obtain ⟨hn, hvalid⟩ :=
    validInfo_primitiveInfo h hnames hwithin (find_of_order horder he) hinfo
  cases hstep
  rw [hnumber, Int.toNat_natCast]
  refine ⟨?_, ?_, ?_, ?_⟩
  · rw [List.length_set]
    exact hs.length_primitive
  · rw [List.length_set]
    exact hs.length_computation
  · intro e' he'
    rcases List.mem_append.mp he' with he' | he'
    · obtain ⟨info', hget, hvalid'⟩ := hs.primitive e' he'
      refine ⟨info', ?_, hvalid'.mono hn⟩
      rw [List.getElem?_set_ne (hnew e' he')]
      exact hget
    · rw [List.mem_singleton.mp he', hnumber, Int.toNat_natCast]
      refine ⟨info, List.getElem?_set_self ?_, hvalid⟩
      rw [hs.length_primitive]
      exact hk
  · intro e' he'
    rcases List.mem_append.mp he' with he' | he'
    · rw [List.getElem?_set_ne (hnew e' he')]
      exact hs.computation e' he'
    · rw [List.mem_singleton.mp he', hnumber, Int.toNat_natCast]
      apply List.getElem?_set_self
      rw [hs.length_computation]
      exact hk

theorem filledWith_fillRemainingFeatures {s : Filled}
    (hs : fillRemainingFeatures bldr.features dic.fields order = some s) :
    FilledWith bldr.features dic order.length order s := by
  apply foldlM_invariant (I := FilledWith bldr.features dic order.length) ?_ ?_ hs
  · intro done e rest s s' htotal hdone hstep
    exact hdone.step h hnames hwithin horder htotal hstep
  · exact ⟨List.length_replicate, List.length_replicate, by simp, by simp⟩

end Filling

/-! ## All references -/

/-- Every reference of a compiled definition is an index into what is read with it. -/
structure ValidReferences (bldr : ModelSpecBuilder) (r : CompiledSpec) : Prop where
  primitive : ∀ p ∈ r.filled.primitive,
    ValidInfo bldr.features r.dic r.filled.numPlaceholders p.name (p.kind, p.references)
  computation : ∀ c ∈ r.filled.computation,
    (∃ k : Nat, c.primitiveFeature = k ∧ k < r.filled.primitive.length) ∧
      ∀ b ∈ c.trueBranch ++ c.falseBranch, ∃ k : Nat, b = k ∧ k < r.filled.computation.length
  pattern : ∀ p ∈ r.patterns.pattern, ∀ ref ∈ p.references,
    ∃ k : Nat, ref = k ∧ k < r.filled.computation.length

/-- The flag that a match feature is read from is the one that has been made for it. -/
def OwnsFlag (dic : DicNumbers) (p : PrimitiveFeature) : Prop :=
  ∃ d ∈ dic.dictionary, d.isMatch = true ∧ d.name = p.name ∧ p.references = [d.target, d.shift]

/-- The references of a pattern are numbers of registered names. -/
theorem references_of_pattern {ngrams : List FeatureCombinator} {g : Gathered}
    (h : Gathers (occurrences ngrams) g) {f : List Int} (hf : f ∈ g.patternByCombo.keys) {ref : Int}
    (href : ref ∈ f) : ∃ k : Nat, ref = k ∧ k < g.computeByName.size := by
  obtain ⟨occ, hocc, rfl⟩ := (h.mem_keys f).mp hf
  obtain ⟨name, hname, rfl⟩ := List.mem_map.mp href
  exact ⟨_, rfl, FlatMap.position_lt (h.registered occ hocc name hname)⟩

section References

variable {bldr : ModelSpecBuilder} {g : Gathered} {fields : List Field} {imports : List DicImport}
  {st : DicState} {dic : DicNumbers} (h : DicMade bldr g fields imports st dic)

include h

theorem size_computeByName : dic.computeByName.size = g.computeByName.size := by
  rw [FlatMap.size_eq, h.numbered.keys, h.flagged.keys, ← FlatMap.size_eq]

theorem branches_of_order {name : SpecName} {info : AccessFeatureInfo}
    (hinfo : dic.computeByName.find name = some info) {b : Int}
    (hb : b ∈ info.trueBranch ++ info.falseBranch) : ∃ k : Nat, b = k ∧ k < dic.computeByName.size := by
  obtain ⟨info₀, hinfo₀, heq⟩ := h.numbered.info name info hinfo
  rw [heq] at hb
  obtain ⟨hpos, hlt⟩ := h.flagged.branches name info₀ hinfo₀ b hb
  rw [← size_computeByName h] at hlt
  exact ⟨b.toNat, by omega, by omega⟩

variable (hnames : bldr.validateNames) (hwithin : Within bldr.Declares g.computeByName)
  {order : List (SpecName × AccessFeatureInfo)} (horder : order.Perm dic.computeByName.entries)
  {filled : Filled} (hfilled : FilledWith bldr.features dic order.length order filled)

include horder hfilled

omit hfilled in
/-- Each feature is that of some name. -/
theorem exists_entry {i : Nat} (hi : i < order.length) :
    ∃ e ∈ order, e.2.number.toNat = i ∧ e.2.number = i := by
  rw [length_order horder] at hi
  obtain ⟨name, info, hfind, hnumber⟩ := FlatMap.Numbered.exists_of_lt h.numbered.numbered hi
  refine ⟨(name, info), horder.mem_iff.mpr (FlatMap.find_eq_some_iff.mp hfind), ?_, hnumber⟩
  have hnumber' : info.number = i := hnumber
  show info.number.toNat = i
  omega

theorem primitive_valid {p : PrimitiveFeature} (hp : p ∈ filled.primitive) :
    ValidInfo bldr.features dic filled.numPlaceholders p.name (p.kind, p.references) := by
  obtain ⟨i, hi, rfl⟩ := List.getElem_of_mem hp
  have hi' := hi
  rw [hfilled.length_primitive] at hi'
  obtain ⟨e, he, hnumber, -⟩ := exists_entry h horder hi'
  obtain ⟨info, hget, hvalid⟩ := hfilled.primitive e he
  rw [hnumber, List.getElem?_eq_getElem hi, Option.some.injEq] at hget
  rw [hget]
  exact hvalid

theorem computation_valid {c : ComputationFeature} (hc : c ∈ filled.computation) :
    (∃ k : Nat, c.primitiveFeature = k ∧ k < filled.primitive.length) ∧
      ∀ b ∈ c.trueBranch ++ c.falseBranch, ∃ k : Nat, b = k ∧ k < filled.computation.length := by
  obtain ⟨i, hi, rfl⟩ := List.getElem_of_mem hc
  have hi' := hi
  rw [hfilled.length_computation] at hi'
  obtain ⟨e, he, hnumber, hnumber'⟩ := exists_entry h horder hi'
  have hget := hfilled.computation e he
  rw [hnumber, List.getElem?_eq_getElem hi, Option.some.injEq] at hget
  rw [hget]
  refine ⟨⟨i, hnumber', ?_⟩, ?_⟩
  · rw [hfilled.length_primitive]
    exact hi'
  · intro b hb
    rw [hfilled.length_computation, length_order horder]
    exact branches_of_order h (find_of_order horder he) hb

end References

/-- With distinct names a match feature has one flag. -/
theorem ownsFlag {bldr : ModelSpecBuilder} {referred : List SpecName} {dic : DicNumbers}
    (h : IndexedDictionary bldr referred dic) (hnames : (bldr.features.map FeatureBuilder.name).Nodup)
    {n : Nat} {p : PrimitiveFeature} (hkind : p.kind = .SingleBit)
    (hvalid : ValidInfo bldr.features dic n p.name (p.kind, p.references)) : OwnsFlag dic p := by
  rw [hkind] at hvalid
  obtain ⟨d, hd, hmatch, hdname, d', hd', hmatch', hdname', heq⟩ := hvalid
  have hnodup : ((dic.dictionary.filter DicImport.isMatch).map DicImport.name).Nodup := by
    rw [h.matchImports.nodup_iff]
    exact (List.filter_sublist.map FeatureBuilder.name).nodup hnames
  have hsame := List.inj_on_of_nodup_map hnodup (List.mem_filter.mpr ⟨hd, hmatch⟩)
    (List.mem_filter.mpr ⟨hd', hmatch'⟩) (hdname.trans hdname'.symm)
  rw [← hsame] at heq
  exact ⟨d, hd, hmatch, hdname, heq⟩

theorem build_spec {maxDicFields : Nat} (hmax : maxDicFields < 2 ^ 31)
    {pats : MapOrder (List Int) PatternFeatureInfo} {feats : MapOrder SpecName AccessFeatureInfo}
    {bldr : ModelSpecBuilder} (hdecl : bldr.Declared) (hnames : bldr.validateNames) {r : CompiledSpec}
    (hr : build maxDicFields pats feats bldr = some r) :
    IndexedDictionary bldr r.dic.computeByName.keys r.dic ∧ ValidReferences bldr r := by
  unfold build at hr
  obtain ⟨fields, hfields, hr⟩ := Option.bind_eq_some_iff.mp hr
  obtain ⟨g, hg, hr⟩ := Option.bind_eq_some_iff.mp hr
  obtain ⟨patterns, hpatterns, hr⟩ := Option.bind_eq_some_iff.mp hr
  obtain ⟨dic, hdic, hr⟩ := Option.bind_eq_some_iff.mp hr
  obtain ⟨filled, hfilled, hr⟩ := Option.bind_eq_some_iff.mp hr
  split_ifs at hr with hlength
  cases hr
  obtain ⟨imports, st, h⟩ := dicMade hnames.1 hfields hg hdic (by omega)
  have hwithin := within_gatherFeatureInfo hdecl hg
  have horder := feats.perm dic.computeByName
  have hwith := filledWith_fillRemainingFeatures h hnames hwithin horder hfilled
  have hkeys : dic.computeByName.keys = g.computeByName.keys :=
    h.numbered.keys.trans h.flagged.keys
  refine ⟨?_, ?_, ?_, ?_⟩
  · rw [hkeys]
    exact h.indexed
  · intro p hp
    exact primitive_valid h horder hwith hp
  · intro c hc
    exact computation_valid h horder hwith hc
  · intro p hp ref href
    unfold compilePatterns at hpatterns
    split_ifs at hpatterns
    cases hpatterns
    obtain ⟨i, hi⟩ := List.mem_iff_getElem?.mp hp
    have hpat := pats.perm g.patternByCombo
    have hplaces := getElem?_fillPatterns hpat (pats.perm _) i
    rw [show (fillPatterns _ _).1[i]? = some p from hi] at hplaces
    obtain ⟨e, he, rfl⟩ := Option.map_eq_some_iff.mp hplaces.symm
    have hkey := mem_keys_of_sorted hpat (List.mem_of_getElem? he)
    obtain ⟨k, hk, hlt⟩ := references_of_pattern h.gathered hkey href
    refine ⟨k, hk, ?_⟩
    rw [hwith.length_computation, length_order horder, size_computeByName h]
    exact hlt

/-- The dictionary part of every definition that is accepted has been made as described. -/
theorem dicMade_of_build {maxDicFields : Nat} (hmax : maxDicFields < 2 ^ 31)
    {pats : MapOrder (List Int) PatternFeatureInfo} {feats : MapOrder SpecName AccessFeatureInfo}
    {bldr : ModelSpecBuilder} {r : CompiledSpec} (hr : bldr.build maxDicFields pats feats = some r) :
    ∃ g fields imports st, DicMade bldr.sortNgrams g fields imports st r.dic := by
  unfold ModelSpecBuilder.build at hr
  split_ifs at hr with hvalid
  unfold SpecCompiler.build at hr
  obtain ⟨fields, hfields, hr⟩ := Option.bind_eq_some_iff.mp hr
  obtain ⟨g, hg, hr⟩ := Option.bind_eq_some_iff.mp hr
  obtain ⟨patterns, -, hr⟩ := Option.bind_eq_some_iff.mp hr
  obtain ⟨dic, hdic, hr⟩ := Option.bind_eq_some_iff.mp hr
  obtain ⟨filled, -, hr⟩ := Option.bind_eq_some_iff.mp hr
  split_ifs at hr with hlength
  cases hr
  obtain ⟨imports, st, h⟩ := @dicMade bldr.sortNgrams hvalid.1.1 fields hfields g hg dic hdic (by omega)
  exact ⟨g, fields, imports, st, h⟩

/-- A unigram of the character before the word. -/
def previousCharacter : ModelSpecBuilder where
  fields := [⟨[115], .String, true⟩]
  features := [{ name := [99], type := .Codepoint, intParam := -1 }]
  ngrams := [.unigram [[99]]]
  unks := []

theorem nodup_singleton_name : ([[99]] : List SpecName).Nodup := List.nodup_singleton _

def previousCompiled : CompiledSpec where
  dic := {
    dictionary := [⟨0, 0, invalidInt, [115], .ImportAsData, [0]⟩]
    fields := [⟨0, -1, [115], true, .String⟩]
    computeByName := ⟨[([99], { number := 0 })], nodup_singleton_name⟩
    numDicData := 1
    numDicFeatures := 0 }
  filled := {
    primitive := [⟨0, [99], .Codepoint, [-1]⟩]
    computation := [⟨[99], 0, 0, [], []⟩]
    numPlaceholders := 0 }
  patterns := ⟨[⟨0, 1, [0]⟩], [⟨0, [0]⟩], 1⟩

theorem sortByKey_singleton {α : Type} (key : α → Int) (x : α) : sortByKey key [x] = [x] := by
  simp [sortByKey]

theorem build_previousCharacter :
    previousCharacter.build 16 (MapOrder.inserted _ _) (MapOrder.inserted _ _) =
      some previousCompiled := by
  have hsort : previousCharacter.sortNgrams = previousCharacter := by
    unfold ModelSpecBuilder.sortNgrams previousCharacter
    rw [sortByKey_singleton]
  rw [ModelSpecBuilder.build, if_pos (by decide), hsort]
  unfold SpecCompiler.build
  refine Option.bind_eq_some_iff.mpr ⟨[⟨0, invalidInt, [115], true, .String⟩], rfl, ?_⟩
  refine Option.bind_eq_some_iff.mpr
    ⟨⟨previousCompiled.dic.computeByName, ⟨[([0], ⟨0, 1⟩)], List.nodup_singleton _⟩⟩, rfl, ?_⟩
  refine Option.bind_eq_some_iff.mpr ⟨previousCompiled.patterns, ?_, ?_⟩
  · have hgroup : groupPatternFeatures ⟨[([0], ⟨0, 1⟩)], List.nodup_singleton _⟩ [([0], ⟨0, 1⟩)] =
        ⟨[([0], ⟨0, 1⟩)], List.nodup_singleton _⟩ := by
      rw [groupPatternFeatures, sortByKey_singleton]
      rfl
    rw [compilePatterns, if_pos (by decide)]
    dsimp only [MapOrder.inserted]
    rw [hgroup]
    rfl
  have hdic : makeDicFeatures previousCharacter.features
      ⟨previousCompiled.dic.computeByName, ⟨[([0], ⟨0, 1⟩)], List.nodup_singleton _⟩⟩
      [⟨0, invalidInt, [115], true, .String⟩] = some previousCompiled.dic := by
    have hsorted := sortByKey_singleton (fun d : DicImport => kindValue d.kind)
      { index := 0, target := 0, name := [115], kind := .ImportAsData, references := [0] }
    unfold makeDicFeatures
    show Option.bind (List.foldlM numberData _ (sortByKey (fun d : DicImport => kindValue d.kind)
      [⟨0, 0, invalidInt, [115], .ImportAsData, [0]⟩])) _ = _
    rw [hsorted]
    rfl
  exact Option.bind_eq_some_iff.mpr ⟨previousCompiled.dic, hdic, rfl⟩

theorem previousCharacter_declared : previousCharacter.Declared where
  ngrams := by decide
  sideFeatures := by decide
  output := by decide
  trueTransforms := by decide
  falseTransforms := by decide
  fields := by decide

end Jumanpp.Core.Spec.SpecCompiler
