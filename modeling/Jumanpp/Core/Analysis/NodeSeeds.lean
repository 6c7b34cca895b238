import Jumanpp.Core.Analysis.CharLatticeLookup
import Jumanpp.Core.Analysis.NumericCreator
import Jumanpp.Core.Analysis.OnomatopoeiaCreator

/-!
# The numbers of positions and boundaries

An input of as many code points as a `LatticePosition` can count is accepted, but its boundaries are
counted by positions as well, and there are three more of them.
-/

namespace Jumanpp.Core.Analysis

open Jumanpp.Lib Jumanpp.Util Jumanpp.Core.Dic

section Makers

variable (alg : StdAlgorithm) (dic : DictionaryEntries) (codepoints : List InputCodepoint)

/-- The node of a normalized word; its feature is the set of modifiers. -/
def Spawned.appendNormalized (s : Spawned) (conf : UnkNodeConfig) (r : CLResult) : Spawned :=
  let (ptr, s) := s.makePtr (surfaceOf codepoints r.start r.end_) conf r.entryPtr r.flags.toInt
  s.appendSeed ptr r.start r.end_

namespace NormalizedNodeMaker

def spawnNodes (conf : UnkNodeConfig) (s : Spawned) : Counted Spawned :=
  let cl := CharLattice.Parse codepoints
  if !cl.isApplicable then pure s
  else do
    let totalPoints ← narrow codepoints.length
    let (_, _, s) ← loopUp totalPoints (fun begin_ (trav, s) => do
      let (found, trav) ← trav.lookupCandidatesFrom alg dic cl codepoints begin_
      if found then
        let s := trav.result.foldl (fun s r => s.appendNormalized codepoints conf r) s
        pure (.next begin_ (trav, s))
      else pure (.next begin_ (trav, s))) 0 (CharLattceTraversal.new, s)
    pure s

end NormalizedNodeMaker

inductive UnkMaker
  | chunking (charClass : CharacterClass) (conf : UnkNodeConfig)
  | single (charClass : CharacterClass) (conf : UnkNodeConfig)
  | onomatopoeia (charClass : CharacterClass) (conf : UnkNodeConfig)
  | numeric (charClass : CharacterClass) (conf : UnkNodeConfig)
  | normalize (conf : UnkNodeConfig)

def UnkMaker.spawnNodes (maker : UnkMaker) (s : Spawned) : Counted Spawned :=
  match maker with
  | chunking charClass conf => ChunkingUnkMaker.spawnNodes dic codepoints charClass conf s
  | single charClass conf => SingleUnkMaker.spawnNodes dic codepoints charClass conf s
  | onomatopoeia charClass conf => OnomatopoeiaUnkMaker.spawnNodes dic codepoints charClass conf s
  | numeric charClass conf => NumericUnkMaker.spawnNodes dic codepoints charClass conf s
  | normalize conf => NormalizedNodeMaker.spawnNodes alg dic codepoints conf s

/-- The nodes of the dictionary, and then those of the makers of both stages. -/
def makeNodeSeeds (makers : List UnkMaker) : Counted Spawned := do
  let s ← DictionaryNodeCreator.spawnNodes dic codepoints ⟨[], []⟩
  makers.foldlM (fun s maker => maker.spawnNodes alg dic codepoints s) s

end Makers

/-! ## Inputs that are short enough -/

section Settles

variable {alg : StdAlgorithm} {dic : DictionaryEntries} {codepoints : List InputCodepoint} {n : Nat}
  (hlength : codepoints.length = n) {s : Spawned}

include hlength

theorem NormalizedNodeMaker.settles_spawnNodes (hn : n < 2 ^ 16) {conf : UnkNodeConfig}
    (h : s.Inside n) :
    Settles 16 (NormalizedNodeMaker.spawnNodes alg dic codepoints conf s) (·.Inside n) := by
  have hfold : ∀ (results : List CLResult) (s : Spawned), s.Inside n →
      (∀ r ∈ results, r.start < r.end_ ∧ r.end_ ≤ n) →
      (results.foldl (fun s r => s.appendNormalized codepoints conf r) s).Inside n := by
    intro results
    induction results with
    | nil => exact fun s hs _ => hs
    | cons r results ih =>
        intro s hs hresults
        obtain ⟨hstart, hend⟩ := hresults r List.mem_cons_self
        refine ih _ ?_ fun r hr => hresults r (List.mem_cons_of_mem _ hr)
        exact Spawned.Inside.appendSeed (s := (s.makePtr _ conf r.entryPtr r.flags.toInt).2) hs
          hstart hend _
  unfold NormalizedNodeMaker.spawnNodes
  simp only
  split
  · exact Settles.pure h
  · refine (Settles.narrow (by omega)).bind ?_
    rintro _ rfl
    refine Settles.bind (Q := fun r => r.2.2.Inside n) ?_ fun r hr => Settles.pure hr
    refine Settles.mono (Settles.loopUp (P := fun _ r => CharLattceTraversal.Idle r.1 ∧
      Spawned.Inside r.2 n) ?_ ⟨CharLattceTraversal.idle_new, h⟩) fun r hr => hr.2
    rintro start ⟨trav, s⟩ hstart ⟨htrav, hs⟩
    refine (CharLattceTraversal.settles_lookup (by omega)
      (CharLattceTraversal.marked_parse codepoints) hstart htrav).bind ?_
    rintro ⟨found, trav'⟩ ⟨hidle, -, results, hresults, heq⟩
    have hlists := @CharLattceTraversal.Found.lists alg dic _ _ _ hstart _ hresults
    simp only at heq hidle ⊢
    split
    · refine Settles.pure ⟨Nat.le_refl _, by omega, hidle, hfold _ s hs ?_⟩
      intro r hr
      rw [heq] at hr
      obtain ⟨hrstart, key, flags, last, hwalk, -⟩ := hlists.walk r hr
      have hbounds := hwalk.bounds hstart
      omega
    · exact Settles.pure ⟨Nat.le_refl _, by omega, hidle, hs⟩

theorem UnkMaker.settles_spawnNodes (hn : n + 1 < 2 ^ 16) (maker : UnkMaker) (h : s.Inside n) :
    Settles 16 (maker.spawnNodes alg dic codepoints s) (·.Inside n) := by
  cases maker with
  | chunking => exact ChunkingUnkMaker.settles_spawnNodes hlength hn h
  | single => exact SingleUnkMaker.settles_spawnNodes hlength (by omega) h
  | onomatopoeia => exact OnomatopoeiaUnkMaker.settles_spawnNodes hlength (by omega) h
  | numeric => exact NumericUnkMaker.settles_spawnNodes hlength (by omega) h
  | normalize => exact NormalizedNodeMaker.settles_spawnNodes hlength (by omega) h

theorem settles_makeNodeSeeds (hn : n + 1 < 2 ^ 16) (makers : List UnkMaker) :
    Settles 16 (makeNodeSeeds alg dic codepoints makers) (·.Inside n) := by
  have hempty : Spawned.Inside ⟨[], []⟩ n := fun _ h => nomatch h
  refine (DictionaryNodeCreator.settles_spawnNodes hlength (by omega) hempty).bind fun s hs => ?_
  exact Settles.foldlM (P := fun _ s => Spawned.Inside s n) (d := [])
    (fun _ s maker _ hs => maker.settles_spawnNodes hlength hn hs) hs

end Settles

/-! ## All inputs -/

/-- No number of a position or a boundary wraps in the construction of a lattice, whatever the
dictionary and the makers: the seeds are those of an arithmetic that stops at a value that does not
fit, and the numbers of their boundaries fit. -/
structure InRange (alg : StdAlgorithm) (input : AnalysisInput) : Prop where
  reset : ∀ bld : LatticeBuilder,
    (bld.reset input.numCodepoints).maxBoundaries = input.codepoints.length + 1
  seeds : ∀ dic makers, ∃ bound out, ∀ turns, bound ≤ turns →
    makeNodeSeeds alg dic input.codepoints makers (Arith.checked 16 turns) = .ok out ∧
    makeNodeSeeds alg dic input.codepoints makers (Arith.wrapping 16 turns) = .ok out ∧
    ∀ seed ∈ out.seeds, seed.codepointStart + 2 < 2 ^ 16 ∧ seed.codepointEnd + 2 < 2 ^ 16 ∧
      seed.codepointStart < seed.codepointEnd ∧ seed.codepointEnd ≤ input.codepoints.length ∧
      ∀ (bld : LatticeBuilder) (i : Nat),
        (bld.endPtr seed i).boundary = seed.codepointStart + 2

theorem inRange_of_lt {alg : StdAlgorithm} {input : AnalysisInput}
    (h : input.codepoints.length + 2 < 2 ^ 16) : InRange alg input := by
  constructor
  · intro bld
    have hnum : input.numCodepoints = input.codepoints.length := u16_of_lt (by omega)
    show u16 (input.numCodepoints + 1) = _
    rw [hnum, u16_of_lt (by omega)]
  · intro dic makers
    have hsettles : Settles 16 (makeNodeSeeds alg dic input.codepoints makers)
        (·.Inside input.codepoints.length) := settles_makeNodeSeeds rfl (by omega) makers
    obtain ⟨bound, out, hout, hrun⟩ := hsettles
    refine ⟨bound, out, fun turns hturns => ⟨hrun _ (Arith.exact_checked 16 turns) hturns,
      hrun _ (Arith.exact_wrapping 16 turns) hturns, fun seed hseed => ?_⟩⟩
    obtain ⟨hstart, hend⟩ := hout seed hseed
    exact ⟨by omega, by omega, hstart, hend, fun bld i => u16_of_lt (by omega)⟩

/-- A dictionary without words. -/
def emptyDictionary : DictionaryEntries := ⟨#[], fun _ => [], fun _ => none⟩

theorem step_emptyDictionary (trav : DoubleArrayTraversal) (data : List UInt8) :
    (trav.step emptyDictionary data).1 ≠ .Ok := by
  have hunit : ∀ id, emptyDictionary.unitAt id = 0 := by
    intro id
    simp [DictionaryEntries.unitAt, emptyDictionary]
  have hleaf : ∀ node_pos, emptyDictionary.leafValue node_pos = none := by
    intro node_pos
    unfold DictionaryEntries.leafValue
    rw [hunit]
    rfl
  unfold DoubleArrayTraversal.step
  simp only [hleaf]
  split <;> simp

/-- Without words in the dictionary there is a node for each single character. -/
theorem settles_single {codepoints : List InputCodepoint} {n : Nat}
    (hlength : codepoints.length = n) (hn : n < 2 ^ 16) {charClass : CharacterClass}
    (hclass : ∀ i < n, (codepointAt codepoints i).hasClass charClass = true)
    (conf : UnkNodeConfig) (s : Spawned) :
    Settles 16 (SingleUnkMaker.spawnNodes emptyDictionary codepoints charClass conf s)
      fun s => ∀ k < n, ∃ seed ∈ s.seeds, seed.codepointEnd = k + 1 := by
  unfold SingleUnkMaker.spawnNodes
  rw [hlength]
  refine Settles.bind (Q := fun r => ∀ k < n, ∃ seed ∈ r.2.seeds, seed.codepointEnd = k + 1) ?_
    fun r hr => Settles.pure hr
  refine Settles.loopUp_exit
    (P := fun i s => ∀ k < i, ∃ seed ∈ Spawned.seeds s, seed.codepointEnd = k + 1)
    (Q := fun _ s => ∀ k < n, ∃ seed ∈ Spawned.seeds s, seed.codepointEnd = k + 1) ?_
    (fun i s hi hs k hk => hs k (by omega)) (fun k hk => absurd hk (Nat.not_lt_zero k))
  intro i s hi hs
  have hseed : ∀ notPrefix, Settles 16 (do
      let end_ ← narrow (i + 1)
      pure (Turn.next i (s.appendUnk codepoints conf notPrefix i end_)))
      (Turn.Leaves 16 i
        (fun i s => ∀ k < i, ∃ seed ∈ Spawned.seeds s, seed.codepointEnd = k + 1)
        (fun _ s => ∀ k < n, ∃ seed ∈ Spawned.seeds s, seed.codepointEnd = k + 1)) := by
    intro notPrefix
    refine (Settles.narrow (by omega)).bind fun end_ hend =>
      Settles.pure ⟨Nat.le_refl i, by omega, fun k hk => ?_⟩
    obtain hk | rfl : k < i ∨ k = i := by omega
    · obtain ⟨seed, hseed, hseedEnd⟩ := hs k hk
      exact ⟨seed, List.mem_append_left _ hseed, hseedEnd⟩
    · exact ⟨_, List.mem_append_right _ (List.mem_singleton_self _), hend⟩
  simp only
  rw [if_neg (by rw [hclass i hi]; simp)]
  cases hstatus : (doubleArrayTraversal.step emptyDictionary (codepointAt codepoints i).bytes).1 with
  | Ok => exact absurd hstatus (step_emptyDictionary _ _)
  | NoLeaf => exact hseed false
  | NoNode => exact hseed true

end Jumanpp.Core.Analysis
