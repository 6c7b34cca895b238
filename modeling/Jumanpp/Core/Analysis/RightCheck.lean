import Jumanpp.Core.Analysis.GbeamScores
import Jumanpp.Core.Analysis.Viterbi

/-!
# The right check of the global beam

With `rightGbeamCheck` the scores against the head of the global beam are computed beforehand for
all right nodes, and only the nodes kept by the cutoff are scored against its tail.  When no node is
cut off this is the plain branch.
-/

namespace Jumanpp.Core.Analysis

open Jumanpp.Lib

theorem zipWith_take_left {α β γ : Type} (f : α → β → γ) (n : Nat) (l : List α) (r : List β) :
    List.zipWith f (l.take n) r = (List.zipWith f l r).take n := by
  induction l generalizing n r with
  | nil => simp
  | cons x l ih =>
      cases n with
      | zero => simp
      | succ n =>
          cases r with
          | nil => simp
          | cons y r => simp [ih]

theorem zipWith_take_right {α β γ : Type} (f : α → β → γ) (n : Nat) (l : List α) (r : List β) :
    List.zipWith f l (r.take n) = (List.zipWith f l r).take n := by
  rw [List.zipWith_comm, zipWith_take_left, List.zipWith_comm]

theorem forT0_congr {turn turn' : Nat → Nat → Option T0Result} (order : List (Nat × Nat))
    (res : BoundaryResult) (h : ∀ t0 ∈ order, turn t0.2 t0.1 = turn' t0.2 t0.1) :
    forT0 turn order res = forT0 turn' order res := by
  induction order generalizing res with
  | nil => rfl
  | cons t0 order ih =>
      obtain ⟨t0idx, t0pos⟩ := t0
      unfold forT0
      rw [← h (t0idx, t0pos) (by simp)]
      cases turn t0pos t0idx with
      | none => rfl
      | some t0 => exact ih _ fun t0 ht0 => h t0 (List.mem_cons_of_mem _ ht0)

namespace AnalyzerImpl

variable {P : Type} (a : AnalyzerImpl P) (ctx : GbeamContext P)

/-- All rows of prescores, as if the whole global beam were its head. -/
theorem t0prescores_eq (t0idx : Nat) :
    (a.t0prescores ctx).map (fun row => row t0idx) =
      ((List.zipWith (fun cand v => v + a.pluginScore (pluginPtr ctx t0idx cand)) ctx.gbeam.cands
        (List.zipWith (fun t1idx t2 =>
          a.applyT0 ctx.boundary t0idx +
            a.scorer.bi (a.patterns ⟨ctx.boundary, t0idx⟩) (ctx.t1data t1idx) +
            a.scorer.tri (a.patterns ⟨ctx.boundary, t0idx⟩) (ctx.t1data t1idx) t2)
          ctx.t1Ptrs ctx.t2data))).take (a.fullBeamApplySize ctx) := by
  unfold t0prescores applyPluginToPrescores computeT0Prescores
  rw [← List.take_zipWith, zipWith_take_left, zipWith_take_right, List.take_take, List.map_take,
    List.map_zipWith]
  have hfull : min (a.fullBeamApplySize ctx) (min a.rightGbeamCheck ctx.gbeam.cands.length) =
      a.fullBeamApplySize ctx := by
    unfold fullBeamApplySize
    omega
  rw [hfull]
  congr 1
  rw [List.zipWith_zipWith_right, List.zipWith_zipWith_right]

/-- The score of the right node itself may be added before or after the plugin. -/
theorem copyT0Scores_add (plugin : BeamCandidate → Score) (t0Score : Score)
    (cands : List BeamCandidate) (scores : List Score) :
    copyT0Scores cands
        (List.zipWith (fun cand v => v + plugin cand) cands (scores.map (t0Score + ·))) 0 =
      copyT0Scores cands (List.zipWith (fun cand v => v + plugin cand) cands scores) t0Score := by
  induction cands generalizing scores with
  | nil => rfl
  | cons cand cands ih =>
      cases scores with
      | nil => rfl
      | cons v scores =>
          have htail := ih scores
          unfold copyT0Scores at htail ⊢
          simp only [List.map_cons, List.zipWith_cons_cons, Prod.mk.injEq, List.cons.injEq] at htail ⊢
          exact ⟨⟨by ring, htail.1⟩, ⟨⟨trivial, by ring⟩, htail.2⟩⟩

theorem headScores_eq (t0idx : Nat) :
    a.headScores ctx (a.t0prescores ctx) t0idx =
      ((a.plainScores ctx t0idx).1.take (a.fullBeamApplySize ctx),
        (a.plainScores ctx t0idx).2.take (a.fullBeamApplySize ctx)) := by
  have hprescores : (List.zipWith (fun t1idx t2 =>
        a.applyT0 ctx.boundary t0idx +
          a.scorer.bi (a.patterns ⟨ctx.boundary, t0idx⟩) (ctx.t1data t1idx) +
          a.scorer.tri (a.patterns ⟨ctx.boundary, t0idx⟩) (ctx.t1data t1idx) t2)
        ctx.t1Ptrs ctx.t2data) =
      (a.applyBiTri ctx t0idx ctx.t2data ctx.t1Ptrs).map (a.applyT0 ctx.boundary t0idx + ·) := by
    unfold applyBiTri
    rw [List.map_zipWith]
    simp only [add_assoc]
  unfold headScores
  rw [t0prescores_eq, hprescores]
  unfold plainScores applyPluginToGbeam
  rw [← copyT0Scores_add]
  unfold copyT0Scores
  simp only [List.take_zipWith]

theorem tailScores_eq (t0idx : Nat) :
    a.tailScores ctx t0idx =
      ((a.plainScores ctx t0idx).1.drop (a.fullBeamApplySize ctx),
        (a.plainScores ctx t0idx).2.drop (a.fullBeamApplySize ctx)) := by
  unfold tailScores plainScores copyT0Scores applyPluginToGbeam applyBiTri
  simp only [List.drop_zipWith]

theorem scoreT0Checked_eq {toKeep t0pos : Nat} (t0idx : Nat) (hkeep : t0pos < toKeep) :
    a.scoreT0Checked ctx (a.t0prescores ctx) toKeep t0pos t0idx = a.scoreT0 ctx t0idx := by
  unfold scoreT0Checked
  rw [headScores_eq, tailScores_eq]
  simp only [hkeep, ↓reduceIte, List.take_append_drop]
  exact (a.scoreT0_eq ctx t0idx).symm

/-- The cutoff order is a rearrangement of the right nodes. -/
theorem t0Order_perm : (a.t0Order ctx).Perm (List.range ctx.nodes) := by
  unfold t0Order makeT0cutoffBeam
  split_ifs
  · exact List.Perm.refl _
  · exact a.platform.nthElement_perm _ _ _
  · exact List.Perm.refl _

theorem exists_makeT0Beam (t0idx : Nat) (gbeam : List BeamCandidate) (scores : List Score) :
    ∃ order, IsTopK (NotAfter (betterScore scores)) a.beamSize (List.range gbeam.length) order ∧
      a.makeT0Beam ctx t0idx gbeam scores =
        some (order.map (gbeamElement ctx t0idx gbeam scores) ++
          List.replicate (a.beamSize - order.length) fake) := by
  obtain ⟨order, horder, htop⟩ := a.t0BeamOrder_spec gbeam.length scores
  refine ⟨order, htop, ?_⟩
  unfold makeT0Beam
  rw [horder]

theorem exists_scoreT0Turn (t0pos t0idx : Nat) : ∃ r, a.scoreT0Turn ctx t0pos t0idx = some r := by
  have hbeam : ∀ gbeam scores, ∃ row, a.makeT0Beam ctx t0idx gbeam scores = some row :=
    fun gbeam scores => (a.exists_makeT0Beam ctx t0idx gbeam scores).elim fun _ h => ⟨_, h.2⟩
  unfold scoreT0Turn
  split_ifs
  · unfold scoreT0Checked
    simp only
    split_ifs
    · obtain ⟨row, hrow⟩ := hbeam ctx.gbeam.cands
        ((a.headScores ctx (a.t0prescores ctx) t0idx).1 ++ (a.tailScores ctx t0idx).1)
      rw [hrow]
      exact ⟨_, rfl⟩
    · obtain ⟨row, hrow⟩ := hbeam (ctx.gbeam.cands.take (a.fullBeamApplySize ctx))
        (a.headScores ctx (a.t0prescores ctx) t0idx).1
      rw [hrow]
      exact ⟨_, rfl⟩
  · rw [scoreT0_eq]
    obtain ⟨row, hrow⟩ := hbeam ctx.gbeam.cands (a.plainScores ctx t0idx).1
    rw [hrow]
    exact ⟨_, rfl⟩

/-- Each right node gets the beam of one turn, whatever the order of processing. -/
theorem computeGbeamScores_spec :
    ∃ res, a.computeGbeamScores ctx = some res ∧ res.rows.length = ctx.nodes ∧
      ∀ t0idx < ctx.nodes, ∃ t0pos r, a.scoreT0Turn ctx t0pos t0idx = some r ∧
        res.rows[t0idx]? = some r.row := by
  have hfst : (a.t0Order ctx).zipIdx.map Prod.fst = a.t0Order ctx := List.zipIdx_map_fst 0 _
  obtain ⟨res, hres, hlength, -, hrows⟩ := forT0_spec (a.scoreT0Turn ctx)
    (a.t0Order ctx).zipIdx ⟨List.replicate ctx.nodes [], .empty⟩
    fun t0 _ => a.exists_scoreT0Turn ctx t0.2 t0.1
  rw [List.length_replicate] at hlength hrows
  refine ⟨res, hres, hlength, fun t0idx ht0 => ?_⟩
  have hmem : t0idx ∈ a.t0Order ctx := by
    rw [(a.t0Order_perm ctx).mem_iff, List.mem_range]
    exact ht0
  rw [← hfst, List.mem_map] at hmem
  obtain ⟨⟨t0idx, t0pos⟩, hzip, rfl⟩ := hmem
  obtain ⟨r, hr⟩ := a.exists_scoreT0Turn ctx t0pos t0idx
  have hnodup : ((a.t0Order ctx).zipIdx.map Prod.fst).Nodup := by
    rw [hfst, (a.t0Order_perm ctx).nodup_iff]
    exact List.nodup_range
  exact ⟨t0pos, r, hr, hrows hnodup (t0idx, t0pos) hzip ht0 r hr⟩

/-- The configuration without the right check. -/
def withoutRightCheck : AnalyzerImpl P :=
  { a with rightGbeamCheck := 0 }

theorem computeGbeamScores_withoutRightCheck :
    a.withoutRightCheck.computeGbeamScores ctx =
      forT0 (fun _ t0idx => a.scoreT0 ctx t0idx) (List.range ctx.nodes).zipIdx
        ⟨List.replicate ctx.nodes [], .empty⟩ := by
  unfold computeGbeamScores t0Order
  rw [if_neg (by simp [withoutRightCheck])]
  rfl

/-- With room for all right nodes the branch with the right check fills the boundary as the branch
without it does, and whatever room there is, it processes each right node once. -/
theorem computeGbeamScores_rightCheck (boundary : Nat) (bnd : LatticeBoundary) (beams : Beams)
    (gbeam : GlobalBeam) :
    (∃ res, a.computeGbeamScores (a.gbeamContext boundary bnd beams gbeam) = some res ∧
      (bnd.localNodeCount ≤ a.rightGbeamSize →
        a.withoutRightCheck.computeGbeamScores
          (a.withoutRightCheck.gbeamContext boundary bnd beams gbeam) = some res)) ∧
      (a.t0Order (a.gbeamContext boundary bnd beams gbeam)).Perm
        (List.range bnd.localNodeCount) := by
  let ctx := a.gbeamContext boundary bnd beams gbeam
  obtain ⟨res, hres, -⟩ := a.computeGbeamScores_spec ctx
  refine ⟨⟨res, hres, fun hnodes => ?_⟩, a.t0Order_perm _⟩
  have hkeep : min a.rightGbeamSize ctx.nodes = ctx.nodes := min_eq_right hnodes
  have horder : a.t0Order ctx = List.range ctx.nodes := by
    unfold t0Order makeT0cutoffBeam
    rw [hkeep, if_pos (le_refl _)]
    exact ite_self _
  change a.withoutRightCheck.computeGbeamScores ctx = some res
  rw [computeGbeamScores_withoutRightCheck, ← hres]
  unfold computeGbeamScores
  rw [horder]
  refine forT0_congr _ _ fun (t0idx, t0pos) ht0 => ?_
  have hpos := (List.mem_zipIdx' ht0).1
  rw [List.length_range] at hpos
  unfold scoreT0Turn
  split_ifs
  · rw [hkeep]
    exact (a.scoreT0Checked_eq ctx t0idx hpos).symm
  · rfl

end AnalyzerImpl

/-- The right check with room for one right node. -/
def checkedAnalyzer : AnalyzerImpl Unit :=
  { flatAnalyzer 5 beamSize_five_pos with globalBeamSize := 1, rightGbeamCheck := 1, rightGbeamSize := 1 }

theorem computeGbeamScores_rightCheck_single :
    ∃ res, checkedAnalyzer.computeGbeamScores (checkedAnalyzer.gbeamContext 2
        ⟨[⟨0, 0, 1⟩], [⟨1, 0⟩]⟩ checkedAnalyzer.bootstrapAnalysis ⟨[⟨0, 0, 0⟩], [⟨⟨1, 0⟩, 0⟩]⟩) =
          some res ∧
      checkedAnalyzer.withoutRightCheck.computeGbeamScores
        (checkedAnalyzer.withoutRightCheck.gbeamContext 2 ⟨[⟨0, 0, 1⟩], [⟨1, 0⟩]⟩
          checkedAnalyzer.bootstrapAnalysis ⟨[⟨0, 0, 0⟩], [⟨⟨1, 0⟩, 0⟩]⟩) = some res := by
  obtain ⟨⟨res, hres, hwithout⟩, -⟩ := checkedAnalyzer.computeGbeamScores_rightCheck 2
    ⟨[⟨0, 0, 1⟩], [⟨1, 0⟩]⟩ checkedAnalyzer.bootstrapAnalysis ⟨[⟨0, 0, 0⟩], [⟨⟨1, 0⟩, 0⟩]⟩
  exact ⟨res, hres, hwithout (by decide)⟩

end Jumanpp.Core.Analysis
