import Jumanpp.Core.Analysis.LatticeBuilder

/-!
# One pass finds every chain

The seeds are sorted by their start before the pass.  A seed that leads to a position starts at this
position or before it, so the position is marked when the pass comes to the seeds that start there.
-/

namespace Jumanpp.Core.Analysis

open Jumanpp.Lib

theorem Reaches.mono {seeds seeds' : List LatticeNodeSeed} (hsub : seeds ⊆ seeds') {p : Nat}
    (h : Reaches seeds p) : Reaches seeds' p := by
  induction h with
  | start => exact .start
  | step hs _ ih => exact .step (hsub hs) ih

namespace LatticeBuilder

/-- Where the pass begins. -/
def initialMarks (maxBoundaries : Nat) : List Bool :=
  (List.replicate maxBoundaries false).set 0 true

theorem length_initialMarks (maxBoundaries : Nat) :
    (initialMarks maxBoundaries).length = maxBoundaries := by
  rw [initialMarks, List.length_set, List.length_replicate]

theorem getD_set_true (marks : List Bool) {i p : Nat} (hi : i < marks.length) :
    (marks.set i true).getD p false = if i = p then true else marks.getD p false := by
  rw [List.getD_eq_getElem?_getD, List.getD_eq_getElem?_getD, List.getElem?_set]
  by_cases h : i = p
  · rw [if_pos h, if_pos hi, if_pos h]
    rfl
  · rw [if_neg h, if_neg h]

theorem connectSeed_of_marked {marks : List Bool} {s : LatticeNodeSeed}
    (hstart : marks.getD s.codepointStart false = true) :
    connectSeed marks s = marks.set s.codepointEnd true := by
  unfold connectSeed
  rw [if_pos hstart]

/-- A mark stays. -/
theorem connectSeed_marked {marks : List Bool} {s : LatticeNodeSeed}
    (hend : s.codepointEnd < marks.length) {p : Nat} (hp : marks.getD p false = true) :
    (connectSeed marks s).getD p false = true := by
  unfold connectSeed
  split
  next =>
    rw [getD_set_true marks hend, hp]
    exact ite_self true
  next => exact hp

theorem foldl_connectSeed_marked {seeds : List LatticeNodeSeed} {marks : List Bool}
    (hends : ∀ s ∈ seeds, s.codepointEnd < marks.length) {p : Nat}
    (hp : marks.getD p false = true) :
    (seeds.foldl connectSeed marks).getD p false = true := by
  induction seeds generalizing marks with
  | nil => exact hp
  | cons s seeds ih =>
    rw [List.foldl_cons]
    apply ih
    · intro t ht
      have hlength := length_foldl_connectSeed [s] marks
      rw [List.foldl_cons, List.foldl_nil] at hlength
      rw [hlength]
      exact hends t (List.mem_cons_of_mem s ht)
    · exact connectSeed_marked (hends s (List.mem_cons_self ..)) hp

/-- A position that a chain leads to is marked before the pass comes to the seeds that start there or
behind it.  By induction on the chain. -/
theorem marked_of_reaches {seeds : List LatticeNodeSeed} {marks : List Bool}
    (hsorted : seeds.Pairwise fun l r => l.codepointStart ≤ r.codepointStart)
    (hseeds : ∀ s ∈ seeds, s.codepointStart ≤ s.codepointEnd ∧ s.codepointEnd < marks.length)
    (hzero : marks.getD 0 false = true) {p : Nat} (h : Reaches seeds p) :
    ∀ before after : List LatticeNodeSeed, seeds = before ++ after →
      (∀ s ∈ after, p ≤ s.codepointStart) →
        (before.foldl connectSeed marks).getD p false = true := by
  induction h with
  | start =>
    intro before after hsplit _
    apply foldl_connectSeed_marked _ hzero
    exact fun s hs => (hseeds s (hsplit ▸ List.mem_append_left after hs)).2
  | @step s hs _ ih =>
    intro before after hsplit hafter
    obtain ⟨hle, hend⟩ := hseeds s hs
    by_cases hlt : s.codepointStart < s.codepointEnd
    · -- the seed itself has been passed
      have hbefore : s ∈ before := by
        rw [hsplit] at hs
        apply (List.mem_append.mp hs).resolve_right
        intro hmem
        have hge := hafter s hmem
        omega
      obtain ⟨first, second, rfl⟩ := List.append_of_mem hbefore
      rw [List.append_assoc, List.cons_append] at hsplit
      have hstart := ih first (s :: (second ++ after)) hsplit (by
        intro t ht
        rw [hsplit] at hsorted
        obtain rfl | ht := List.mem_cons.mp ht
        · exact Nat.le_refl _
        · exact List.rel_of_pairwise_cons (List.pairwise_append.mp hsorted).2.1 ht)
      have hlength := length_foldl_connectSeed first marks
      have hmarked : (connectSeed (first.foldl connectSeed marks) s).getD s.codepointEnd false =
          true := by
        rw [connectSeed_of_marked hstart, getD_set_true _ (hlength ▸ hend), if_pos rfl]
      rw [List.foldl_append, List.foldl_cons]
      apply foldl_connectSeed_marked _ hmarked
      intro t ht
      have hmem : t ∈ seeds := by
        rw [hsplit]
        exact List.mem_append_right _ (List.mem_cons_of_mem _ (List.mem_append_left _ ht))
      have hone := length_foldl_connectSeed [s] (first.foldl connectSeed marks)
      rw [List.foldl_cons, List.foldl_nil, hlength] at hone
      rw [hone]
      exact (hseeds t hmem).2
    · -- a seed without characters
      have hsame : s.codepointEnd = s.codepointStart := by omega
      rw [hsame] at hafter ⊢
      exact ih before after hsplit hafter

theorem checkConnectability_returns {bld : LatticeBuilder} {n : Nat}
    (hmax : bld.maxBoundaries = n + 1)
    (hseeds : ∀ s ∈ bld.seeds, s.codepointStart ≤ s.codepointEnd ∧ s.codepointEnd ≤ n) :
    ∃ connected bld', bld.checkConnectability = .ok (connected, bld') ∧
      (connected = true ↔ Reaches bld.seeds n) := by
  have hreturns : ∃ r, bld.checkConnectability = .ok r := by
    unfold checkConnectability
    rw [if_neg (by show ¬ bld.maxBoundaries = 0; omega)]
    exact ⟨_, rfl⟩
  obtain ⟨⟨connected, bld'⟩, hr⟩ := hreturns
  refine ⟨connected, bld', hr, ?_⟩
  obtain ⟨hperm, -, -, hsound⟩ := checkConnectability_ok hr
  rw [hmax, Nat.add_sub_cancel] at hsound
  constructor
  · exact fun hconnected => (hsound hconnected).mono hperm.subset
  · intro hreaches
    have hsort : bld.sortSeeds.seeds.Perm bld.seeds := List.perm_insertionSort _ _
    have hlength : (bld.sortSeeds.seeds.foldl connectSeed (initialMarks (n + 1))).length = n + 1 := by
      rw [length_foldl_connectSeed, length_initialMarks]
    have hzero : (initialMarks (n + 1)).getD 0 false = true := rfl
    have hmarked := marked_of_reaches (List.pairwise_insertionSort
      (fun l r : LatticeNodeSeed => l.codepointStart ≤ r.codepointStart) bld.seeds)
      (fun s hs => by
        have hinside := hseeds s (hsort.subset hs)
        rw [length_initialMarks]
        omega) hzero (hreaches.mono hsort.symm.subset) bld.sortSeeds.seeds []
      (List.append_nil _).symm (fun s hs => absurd hs List.not_mem_nil)
    unfold checkConnectability at hr
    rw [if_neg (by show ¬ bld.maxBoundaries = 0; omega)] at hr
    obtain ⟨rfl, -⟩ := Prod.mk.inj (Except.ok.inj hr)
    show (bld.sortSeeds.seeds.foldl connectSeed (initialMarks bld.maxBoundaries)).getLastD false =
      true
    rw [hmax, List.getLastD_eq_getLast?, List.getLast?_eq_getElem?, hlength, Nat.add_sub_cancel,
      ← List.getD_eq_getElem?_getD]
    exact hmarked

end LatticeBuilder

end Jumanpp.Core.Analysis
