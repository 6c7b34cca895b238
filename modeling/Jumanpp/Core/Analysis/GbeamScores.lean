import Jumanpp.Core.Analysis.GlobalBeam

/-!
# Scores against the global beam

The index tables of the global-beam pass: every element of the global beam is scored with the
patterns of its own T1 and T2 nodes, and every right node gets one beam.
-/

namespace Jumanpp.Core.Analysis

open Jumanpp.Lib Jumanpp.Util

section Dedup

/-- Rows are handed out in order. -/
def T1Map.InOrder (map : T1Map) : Prop :=
  map.map Prod.snd = List.range map.length

theorem findOrInsert_spec (map : T1Map) (ptr : LatticeNodePtr) (hmap : map.InOrder) :
    (map.findOrInsert ptr).2.InOrder ∧ map ⊆ (map.findOrInsert ptr).2 ∧
      (ptr, (map.findOrInsert ptr).1) ∈ (map.findOrInsert ptr).2 := by
  unfold T1Map.findOrInsert
  cases hfind : map.find? (·.1 == ptr) with
  | none =>
      refine ⟨?_, List.subset_append_left _ _, List.mem_append_right _ (by simp)⟩
      unfold T1Map.InOrder at hmap ⊢
      simp [hmap, List.range_succ]
  | some entry =>
      have hmem := List.mem_of_find?_eq_some hfind
      have hkey := List.find?_some hfind
      rw [beq_iff_eq] at hkey
      exact ⟨hmap, List.Subset.refl _, hkey ▸ hmem⟩

theorem dedupT1_spec (ends : List LatticeNodePtr) (gbeam : List BeamCandidate) (map : T1Map)
    (hmap : map.InOrder) :
    (dedupT1 ends gbeam map).2.InOrder ∧ map ⊆ (dedupT1 ends gbeam map).2 ∧
      List.Forall₂ (fun cand idx =>
        (ends.getD cand.left ⟨0, 0⟩, idx) ∈ (dedupT1 ends gbeam map).2) gbeam
        (dedupT1 ends gbeam map).1 := by
  induction gbeam generalizing map with
  | nil => exact ⟨hmap, List.Subset.refl _, .nil⟩
  | cons cand gbeam ih =>
      obtain ⟨horder, hsub, hmem⟩ := findOrInsert_spec map (ends.getD cand.left ⟨0, 0⟩) hmap
      obtain ⟨horder', hsub', hforall⟩ :=
        ih (map.findOrInsert (ends.getD cand.left ⟨0, 0⟩)).2 horder
      exact ⟨horder', fun _ h => hsub' (hsub h), .cons (hsub' hmem) hforall⟩

end Dedup

namespace AnalyzerImpl

variable {P : Type} (a : AnalyzerImpl P)

theorem foldl_update_keeps (map : T1Map) (rows : Nat → P) (row : Nat)
    (hrow : row ∉ map.map Prod.snd) :
    map.foldl (fun rows (ptr, row) => Function.update rows row (a.patterns ptr)) rows row =
      rows row := by
  induction map generalizing rows with
  | nil => rfl
  | cons entry map ih =>
      rw [List.map_cons, List.mem_cons, not_or] at hrow
      obtain ⟨ptr, row'⟩ := entry
      rw [List.foldl_cons, ih _ hrow.2]
      exact Function.update_of_ne hrow.1 _ _

/-- Each gathered row holds the patterns of its own node. -/
theorem gatherT1_of_mem (map : T1Map) (hmap : map.InOrder) {ptr : LatticeNodePtr} {row : Nat}
    (hmem : (ptr, row) ∈ map) : a.gatherT1 map row = a.patterns ptr := by
  have hnodup : (map.map Prod.snd).Nodup := by
    unfold T1Map.InOrder at hmap
    rw [hmap]
    exact List.nodup_range
  clear hmap
  unfold gatherT1
  generalize (fun _ => a.patterns ⟨0, 0⟩ : Nat → P) = rows
  induction map generalizing rows with
  | nil => cases hmem
  | cons entry map ih =>
      rw [List.map_cons, List.nodup_cons] at hnodup
      rw [List.foldl_cons]
      obtain heq | hmem := List.mem_cons.mp hmem
      · rw [← heq] at hnodup ⊢
        rw [foldl_update_keeps a map _ row hnodup.1]
        exact Function.update_self _ _ _
      · exact ih hmem hnodup.2 _

/-- The T1 patterns that the global beam is scored with. -/
theorem map_t1data (boundary : Nat) (bnd : LatticeBoundary) (beams : Beams) (gbeam : GlobalBeam) :
    (a.gbeamContext boundary bnd beams gbeam).t1Ptrs.map
        (a.gbeamContext boundary bnd beams gbeam).t1data =
      gbeam.cands.map fun cand => a.patterns (bnd.ends.getD cand.left ⟨0, 0⟩) := by
  obtain ⟨horder, -, hforall⟩ := dedupT1_spec bnd.ends gbeam.cands [] rfl
  exact map_eq_map_of_forall₂ (fun cand idx hmem => a.gatherT1_of_mem _ horder hmem) hforall

/-- The left element that a candidate was made from. -/
def prevElement (ends : List LatticeNodePtr) (beams : Beams) (cand : BeamCandidate) :
    ConnectionBeamElement :=
  (beamAt beams (ends.getD cand.left ⟨0, 0⟩)).getD cand.beam fake

/-- What the pass stores for one element of the global beam. -/
def gbeamLocalScore (boundary : Nat) (ends : List LatticeNodePtr) (beams : Beams) (t0 : Nat)
    (cand : BeamCandidate) : Score :=
  let t1 := ends.getD cand.left ⟨0, 0⟩
  let prev := prevElement ends beams cand
  a.applyT2 boundary t1 prev (a.applyT1 boundary t1 (a.applyT0 boundary)) t0 +
    a.pluginScore (.conn (u16 boundary) cand.left (u16 t0) cand.beam prev.ptr)

/-- Every element of the global beam is scored with its own T1 and T2 nodes. -/
theorem plainScores_eq (boundary : Nat) (bnd : LatticeBoundary) (beams : Beams)
    (gbeam : GlobalBeam) (t0 : Nat) :
    a.plainScores (a.gbeamContext boundary bnd beams gbeam) t0 =
      (gbeam.cands.map fun cand =>
          a.gbeamLocalScore boundary bnd.ends beams t0 cand + cand.score,
        gbeam.cands.map fun cand =>
          (cand, a.gbeamLocalScore boundary bnd.ends beams t0 cand)) := by
  let ctx := a.gbeamContext boundary bnd beams gbeam
  let t1pat : BeamCandidate → P := fun cand => a.patterns (bnd.ends.getD cand.left ⟨0, 0⟩)
  let t2pat : BeamCandidate → P := fun cand =>
    a.patterns (prevElement bnd.ends beams cand).ptr.previous.latticeNodePtr
  have hbitri : a.applyBiTri ctx t0 ctx.t2data ctx.t1Ptrs = gbeam.cands.map fun cand =>
      a.scorer.bi (a.patterns ⟨boundary, t0⟩) (t1pat cand) +
        a.scorer.tri (a.patterns ⟨boundary, t0⟩) (t1pat cand) (t2pat cand) := by
    have hgather : ctx.t2data = gbeam.cands.map t2pat := rfl
    have hmapped : a.applyBiTri ctx t0 ctx.t2data ctx.t1Ptrs = List.zipWith
        (fun t1 t2 => a.scorer.bi (a.patterns ⟨boundary, t0⟩) t1 +
          a.scorer.tri (a.patterns ⟨boundary, t0⟩) t1 t2)
        (ctx.t1Ptrs.map ctx.t1data) ctx.t2data := by
      rw [List.zipWith_map_left]
      rfl
    rw [hmapped, hgather, a.map_t1data boundary bnd beams gbeam, List.zipWith_map,
      List.zipWith_self]
  have hlocal : ∀ cand, a.scorer.bi (a.patterns ⟨boundary, t0⟩) (t1pat cand) +
      a.scorer.tri (a.patterns ⟨boundary, t0⟩) (t1pat cand) (t2pat cand) +
        a.pluginScore (pluginPtr ctx t0 cand) + a.applyT0 ctx.boundary t0 =
      a.gbeamLocalScore boundary bnd.ends beams t0 cand := by
    intro cand
    change _ = (a.applyT0 boundary t0 + a.scorer.bi (a.patterns ⟨boundary, t0⟩) (t1pat cand) +
      a.scorer.tri (a.patterns ⟨boundary, t0⟩) (t1pat cand) (t2pat cand)) +
        a.pluginScore (pluginPtr ctx t0 cand)
    have hboundary : ctx.boundary = boundary := rfl
    rw [hboundary]
    ring
  have hcands : ctx.gbeam.cands = gbeam.cands := rfl
  change a.plainScores ctx t0 = _
  unfold plainScores copyT0Scores applyPluginToGbeam
  rw [hbitri, hcands]
  simp only [List.zipWith_map_right, List.zipWith_self, hlocal]

theorem strictWeak_betterScore (scores : List Score) : StrictWeak (betterScore scores) where
  asymm i j h := by
    unfold betterScore at *
    rw [decide_eq_true_eq] at h
    rw [decide_eq_false_iff_not]
    exact lt_asymm h
  negTrans i j l h h' := by
    unfold betterScore at *
    rw [decide_eq_false_iff_not, not_lt] at *
    exact le_trans h h'

theorem t0BeamOrder_spec (size : Nat) (scores : List Score) :
    ∃ order, a.t0BeamOrder size scores = some order ∧
      IsTopK (NotAfter (betterScore scores)) a.beamSize (List.range size) order := by
  have hstrict := strictWeak_betterScore scores
  have hpos := a.beamSize_pos
  unfold t0BeamOrder
  simp only
  split_ifs with hmany
  · obtain ⟨front, back, hpart, hperm, hlow, hhigh, hsplit⟩ :=
      partition_spec hstrict (List.range size) a.beamSize (a.beamSize * 4 / 3) hpos (by omega)
        (by omega)
    rw [hpart]
    refine ⟨_, rfl, ?_⟩
    rw [List.take_left]
    exact isTopK_take_sorted hperm (a.platform.sort_perm _ _) (a.platform.sort_sorted _ _ hstrict)
      hsplit (Or.inr hlow)
  · have hall : (List.range size ++ []).Perm (List.range size) := by rw [List.append_nil]
    exact ⟨_, rfl, isTopK_take_sorted hall (a.platform.sort_perm _ _)
      (a.platform.sort_sorted _ _ hstrict) (by simp) (Or.inl rfl)⟩

end AnalyzerImpl

/-- Processing the right nodes in some order: each one gets the beam of its own turn. -/
theorem forT0_spec (turn : Nat → Nat → Option T0Result) (order : List (Nat × Nat))
    (res : BoundaryResult) (hturn : ∀ t0 ∈ order, ∃ r, turn t0.2 t0.1 = some r) :
    ∃ res', forT0 turn order res = some res' ∧ res'.rows.length = res.rows.length ∧
      (∀ t0idx, t0idx ∉ order.map Prod.fst → res'.rows[t0idx]? = res.rows[t0idx]?) ∧
      ((order.map Prod.fst).Nodup → ∀ t0 ∈ order, t0.1 < res.rows.length →
        ∀ r, turn t0.2 t0.1 = some r → res'.rows[t0.1]? = some r.row) := by
  induction order generalizing res with
  | nil => exact ⟨res, rfl, rfl, fun _ _ => rfl, fun _ _ h => (nomatch h)⟩
  | cons t0 order ih =>
      obtain ⟨t0idx, t0pos⟩ := t0
      obtain ⟨r, hr⟩ := hturn (t0idx, t0pos) (by simp)
      obtain ⟨res', hres', hlength, hkeep, hrows⟩ :=
        ih ⟨res.rows.set t0idx r.row, storeT0Scores t0idx r.stored res.scores⟩
          fun t0 ht0 => hturn t0 (List.mem_cons_of_mem _ ht0)
      refine ⟨res', ?_, ?_, ?_, ?_⟩
      · unfold forT0
        simp only at hr
        rw [hr]
        exact hres'
      · rw [hlength, List.length_set]
      · intro i hi
        rw [List.map_cons, List.mem_cons, not_or] at hi
        rw [hkeep i hi.2, List.getElem?_set_ne (Ne.symm hi.1)]
      · intro hnodup t0 ht0 hlt r' hr'
        rw [List.map_cons, List.nodup_cons] at hnodup
        obtain rfl | ht0 := List.mem_cons.mp ht0
        · have heq : r = r' := Option.some.inj (hr.symm.trans hr')
          simp only at hlt
          rw [hkeep t0idx hnodup.1, List.getElem?_set_self hlt, heq]
        · exact hrows hnodup.2 t0 ht0 (by rw [List.length_set]; exact hlt) r' hr'

end Jumanpp.Core.Analysis
