import Mathlib
import Jumanpp.Core.Analysis.GlobalBeam

/-!
# Beam sizes and the buffers of the score processor

An analyzer has two configurations.  The score processor allocates its buffers by both of them, and the
global-beam pass takes the size of the beam from that of the lattice, which `autoBeamSizes` rewrites for
each input.
-/

namespace Jumanpp.Core.Analysis

structure AnalyzerConfig where
  globalBeamSize : Int32
  rightGbeamCheck : Int32
  rightGbeamSize : Int32
  storeAllPatterns : Bool
  autoBeamStep : Int32
  autoBeamBase : Int32
  autoBeamMax : Int32

structure LatticeConfig where
  numFeaturePatterns : UInt32
  beamSize : UInt32
  scoreCnt : UInt32
  globalBeamSize : UInt32

/-- What `initScorers` reads of the core: the three parts that `validate` looks for, whether the patterns
are compiled in, and the sizes of their lists. -/
structure CoreHolder where
  patternDynamic : Bool
  ngram : Bool
  ngramPartial : Bool
  patternStatic : Bool
  patterns : Nat
  numUniOnlyPats : UInt32

def CoreHolder.validate (core : CoreHolder) : Except String Unit :=
  if !core.patternDynamic then .error "Features: pattern dynamic was null"
  else if !core.ngram then .error "Features: ngram was null"
  else if !core.ngramPartial then .error "Features: ngramPartial was null"
  else .ok ()

/-- The size of `scoreWeights`, and what `makeInstance` returns for each additional scorer. -/
structure ScorerDef where
  scoreWeights : Nat
  others : List (Except String Unit)

/-- The patterns that only unigrams use come last, and are not stored. -/
def CoreHolder.storedPatterns (core : CoreHolder) (cfg : AnalyzerConfig) (lconf : LatticeConfig) :
    UInt32 :=
  if !cfg.storeAllPatterns && core.patternStatic then
    UInt32.ofNat core.patterns - core.numUniOnlyPats
  else lconf.numFeaturePatterns

def initScorers (core : CoreHolder) (cfg : AnalyzerConfig) (lconf : LatticeConfig)
    (scorers : ScorerDef) : Except String LatticeConfig := do
  core.validate
  if scorers.scoreWeights ≠ lconf.scoreCnt.toNat then
    .error ("AnalyzerImpl: number of scorers (" ++ toString scorers.scoreWeights ++
      ") was different from number of score coefficients (" ++ toString lconf.scoreCnt ++ ")")
  else if lconf.beamSize = 0 then .error "AnalyzerImpl: beam size can not be zero for scoring"
  else if 0 < cfg.rightGbeamCheck ∧ cfg.rightGbeamSize ≤ 0 then
    .error "right global beam size should not be zero if you enable it"
  else
    scorers.others.forM id
    if !scorers.others.isEmpty ∧ cfg.globalBeamSize ≤ 0 then
      .error "additional scorers are supported only with global beam enabled"
    else
      .ok { lconf with
        numFeaturePatterns := core.storedPatterns cfg lconf
        globalBeamSize :=
          if 0 < cfg.globalBeamSize then cfg.globalBeamSize.toUInt32 else lconf.globalBeamSize }

/-- The beam size for an input, and the configuration that stores it. -/
def autoBeamSizes (cfg : AnalyzerConfig) (numCodepoints : UInt16) (lconf : LatticeConfig) :
    Int32 × LatticeConfig :=
  if cfg.autoBeamStep = 0 then (0, lconf)
  else
    let addedBeam := Int32.ofNat numCodepoints.toNat / cfg.autoBeamStep
    let beamSize := min (cfg.autoBeamBase + addedBeam) cfg.autoBeamMax
    (beamSize,
      { lconf with beamSize := beamSize.toUInt32, globalBeamSize := beamSize.toUInt32 })

/-- The most nodes that start at, and that end at a boundary behind BOS. -/
structure AnalysisRunStats where
  maxStarts : Nat
  maxEnds : Nat

def maxOver (f : LatticeBoundary → Nat) (bnds : List LatticeBoundary) : Nat :=
  bnds.foldr (fun bnd most => max (f bnd) most) 0

theorem le_maxOver {f : LatticeBoundary → Nat} {bnds : List LatticeBoundary} {bnd : LatticeBoundary}
    (hbnd : bnd ∈ bnds) : f bnd ≤ maxOver f bnds := by
  induction bnds with
  | nil => cases hbnd
  | cons head bnds ih =>
      show f bnd ≤ max (f head) (maxOver f bnds)
      rcases List.mem_cons.mp hbnd with hhead | htail
      · rw [hhead]
        exact le_max_left _ _
      · exact (ih htail).trans (le_max_right _ _)

def Lattice.runStats (lat : Lattice) : AnalysisRunStats where
  maxStarts := maxOver LatticeBoundary.localNodeCount (lat.boundaries.drop 2)
  maxEnds := maxOver (fun bnd => bnd.ends.length) (lat.boundaries.drop 2)

/-- The sizes of the buffers of the global-beam pass; a pair stands for rows and columns. -/
structure ScoreBuffers where
  globalBeam : Nat
  t1positions : Nat
  t1patBuf : Nat × Nat
  t2patBuf : Nat × Nat
  gbeamScoreBuf : Nat
  beamIdxBuffer : Nat
  t0prescores : Nat × Nat
  t0cutoffBuffer : Nat
  t0cutoffIdxBuffer : Nat

/-- The constructor of the score processor; the product for `globalBeam_` is one of `u32`. -/
def ScoreBuffers.allocate (cfg : AnalyzerConfig) (lconf : LatticeConfig) (stats : AnalysisRunStats) :
    ScoreBuffers :=
  let gbeam := cfg.globalBeamSize.toNatClampNeg
  let check := cfg.rightGbeamCheck.toNatClampNeg
  let patterns := lconf.numFeaturePatterns.toNat
  if cfg.globalBeamSize ≤ 0 then ⟨0, 0, (0, 0), (0, 0), 0, 0, (0, 0), 0, 0⟩
  else
    { globalBeam := stats.maxEnds * lconf.beamSize.toNat % 2 ^ 32
      t1positions := gbeam
      t1patBuf := (stats.maxEnds, patterns)
      t2patBuf := (gbeam, patterns)
      gbeamScoreBuf := gbeam
      beamIdxBuffer := gbeam
      t0prescores := if cfg.rightGbeamCheck ≤ 0 then (0, 0) else (check, stats.maxStarts)
      t0cutoffBuffer := if cfg.rightGbeamCheck ≤ 0 then 0 else stats.maxStarts
      t0cutoffIdxBuffer := if cfg.rightGbeamCheck ≤ 0 then 0 else stats.maxStarts }

/-- A score processor belongs to the lattice that it was made for. -/
structure ScoreProcessor where
  lattice : Lattice
  buffers : ScoreBuffers

structure AnalyzerState where
  cfg : AnalyzerConfig
  latticeConfig : LatticeConfig
  sproc : Option ScoreProcessor

namespace AnalyzerState

variable (s : AnalyzerState)

/-- `none` for an input that `input_.reset` refuses. -/
def resetForInput (numCodepoints : Option UInt16) : AnalyzerState :=
  match numCodepoints with
  | none => { s with sproc := none }
  | some numCodepoints =>
      { s with latticeConfig := (autoBeamSizes s.cfg numCodepoints s.latticeConfig).2, sproc := none }

/-- The score processor goes when a setting changes. -/
def setGlobalBeam (leftBeam rightCheck rightBeam : Int32) : AnalyzerState where
  cfg := { s.cfg with
    globalBeamSize := leftBeam
    rightGbeamSize := rightBeam
    rightGbeamCheck := rightCheck }
  latticeConfig :=
    if s.cfg.globalBeamSize ≠ leftBeam then
      { s.latticeConfig with globalBeamSize := leftBeam.toUInt32 }
    else s.latticeConfig
  sproc :=
    if s.cfg.globalBeamSize ≠ leftBeam ∨ s.cfg.rightGbeamSize ≠ rightBeam ∨
        s.cfg.rightGbeamCheck ≠ rightCheck then none
    else s.sproc

def bootstrapAnalysis (lat : Lattice) : AnalyzerState :=
  { s with sproc := some ⟨lat, .allocate s.cfg s.latticeConfig lat.runStats⟩ }

end AnalyzerState

/-- The states of an analyzer whose settings are ones that `initScorers` accepts. -/
inductive Reachable (core : CoreHolder) (lconf₀ : LatticeConfig) (scorers : ScorerDef) :
    AnalyzerState → Prop
  | initScorers {cfg : AnalyzerConfig} {lconf : LatticeConfig}
      (hinit : initScorers core cfg lconf₀ scorers = .ok lconf) :
      Reachable core lconf₀ scorers ⟨cfg, lconf, none⟩
  | resetForInput {s : AnalyzerState} (hs : Reachable core lconf₀ scorers s)
      (numCodepoints : Option UInt16) : Reachable core lconf₀ scorers (s.resetForInput numCodepoints)
  | setGlobalBeam {s : AnalyzerState} (hs : Reachable core lconf₀ scorers s)
      (leftBeam : Int32) {rightCheck rightBeam : Int32} (hright : 0 < rightCheck → 0 < rightBeam) :
      Reachable core lconf₀ scorers (s.setGlobalBeam leftBeam rightCheck rightBeam)
  | bootstrapAnalysis {s : AnalyzerState} (hs : Reachable core lconf₀ scorers s) (lat : Lattice) :
      Reachable core lconf₀ scorers (s.bootstrapAnalysis lat)

/-- What every reachable state keeps. -/
structure AnalyzerState.Consistent (s : AnalyzerState) : Prop where
  right : 0 < s.cfg.rightGbeamCheck → 0 < s.cfg.rightGbeamSize
  allocated : ∀ proc, s.sproc = some proc →
    proc.buffers = .allocate s.cfg s.latticeConfig proc.lattice.runStats

theorem right_of_initScorers {core : CoreHolder} {cfg : AnalyzerConfig} {lconf₀ lconf : LatticeConfig}
    {scorers : ScorerDef} (hinit : initScorers core cfg lconf₀ scorers = .ok lconf)
    (hcheck : 0 < cfg.rightGbeamCheck) : 0 < cfg.rightGbeamSize := by
  by_contra hsize
  have hrejected : 0 < cfg.rightGbeamCheck ∧ cfg.rightGbeamSize ≤ 0 := ⟨hcheck, Int32.not_lt.mp hsize⟩
  unfold initScorers at hinit
  rw [if_pos hrejected] at hinit
  cases hvalid : core.validate with
  | error msg =>
      rw [hvalid] at hinit
      cases hinit
  | ok _ =>
      rw [hvalid] at hinit
      simp only [bind, Except.bind] at hinit
      split_ifs at hinit

theorem AnalyzerState.Consistent.setGlobalBeam {s : AnalyzerState} (h : s.Consistent) (leftBeam : Int32)
    {rightCheck rightBeam : Int32} (hright : 0 < rightCheck → 0 < rightBeam) :
    (s.setGlobalBeam leftBeam rightCheck rightBeam).Consistent where
  right := hright
  allocated proc hproc := by
    unfold AnalyzerState.setGlobalBeam at hproc ⊢
    simp only at hproc ⊢
    split_ifs at hproc with hchanged
    push Not at hchanged
    obtain ⟨hleft, hbeam, hcheck⟩ := hchanged
    -- nothing has changed, so the buffers still fit
    rw [if_neg (not_not.mpr hleft), ← hleft, ← hbeam, ← hcheck]
    exact h.allocated proc hproc

theorem Reachable.consistent {core : CoreHolder} {lconf₀ : LatticeConfig} {scorers : ScorerDef}
    {s : AnalyzerState} (hs : Reachable core lconf₀ scorers s) : s.Consistent := by
  induction hs with
  | initScorers hinit =>
      exact ⟨right_of_initScorers hinit, fun _ hproc => by cases hproc⟩
  | resetForInput _ numCodepoints ih =>
      cases numCodepoints with
      | none => exact ⟨ih.right, fun _ hproc => by cases hproc⟩
      | some _ => exact ⟨ih.right, fun _ hproc => by cases hproc⟩
  | setGlobalBeam _ leftBeam hright ih => exact ih.setGlobalBeam leftBeam hright
  | bootstrapAnalysis _ lat ih =>
      constructor
      · exact ih.right
      · intro proc hproc
        rw [← Option.some.inj hproc]
        rfl

end Jumanpp.Core.Analysis
