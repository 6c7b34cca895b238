import Jumanpp.Core.Analysis.RnnRun

/-!
# Publishing a path, and all of them

The new nodes of a path are published from its last connection back; path by path the entries
published are those of the connections visited.
-/

namespace Jumanpp.Core.Analysis.Rnn

open RnnIdContainer

section Run

variable {resolver : RnnIdResolver} {lat : Lattice} {bos : ConnectionPtr} {numBnds : Nat}
  {level : ConnectionPtr → Nat} {kept : ConnectionPtr → Prop} {above : List ConnectionPtr}
  {vis pend done newer : List Entry} {ids ids' : RnnIdContainer}

/-! ## The new nodes -/

theorem publish_self {c : ConnectionPtr} {first : Option RnnNodePtr} :
    publish resolver lat first c first ids = some ids := by
  cases c with
  | null =>
      unfold publish
      rw [if_pos rfl]
  | conn b l r m p =>
      unfold publish
      rw [if_pos rfl]

theorem publish_of_ne {c : ConnectionPtr} {first last : RnnNodePtr} (hc : c ≠ .null)
    (hne : last ≠ first) :
    publish resolver lat (some first) c (some last) ids =
      (publishNode resolver lat last c ids).bind fun x =>
        publish resolver lat (some first) c.previous x.1 x.2 := by
  cases c with
  | null => exact absurd rfl hc
  | conn b l r m p =>
      conv_lhs => unfold publish
      rw [if_neg fun h => hne (Option.some.inj h).symm]
      rfl

section Publish

variable (hlinks : Links bos (coordOf resolver lat) numBnds level kept)
  (hinfo : ∀ c, kept c → c.latticeNodePtr = eosPtr lat ∨
    ∃ ninfo, (lat.boundary c.boundary).nodeInfo[c.right]? = some ninfo)

include hlinks hinfo

variable (newer) in
/-- By induction on the waiting nodes; `newer` are those of the path that are published already. -/
theorem publish_spec {c : ConnectionPtr} {first last : RnnNodePtr}
    (hmapped : Mapped resolver lat bos kept above (newer ++ pend ++ done) ids)
    (hpublished : Published resolver lat numBnds kept (newer ++ done) ids)
    (hlinked : Linked ids.nodes first pend c last) (hfirst : ∀ e ∈ pend, e.2 ≠ first)
    (hnew : ∀ e ∈ pend, ∀ e' ∈ done, e.2 ≠ e'.2)
    (hlevels : (newer ++ pend).Pairwise fun e e' => level e'.1 < level e.1) :
    ∃ ids', publish resolver lat (some first) c (some last) ids = some ids' ∧
      Mapped resolver lat bos kept above (newer ++ pend ++ done) ids' ∧
      Published resolver lat numBnds kept (newer ++ pend ++ done) ids' := by
  induction pend generalizing c last ids newer with
  | nil =>
      obtain rfl : last = first := hlinked
      rw [List.append_nil] at hmapped ⊢
      exact ⟨ids, publish_self, hmapped, hpublished⟩
  | cons e pend ih =>
      obtain ⟨rfl, node, prev, hnode, hprev, hrest⟩ := hlinked
      have hc : kept c := hmapped.isKept (c, last) (by simp)
      obtain ⟨node', hnode', _, hboundary⟩ := hmapped.stored (c, last) (by simp)
      obtain rfl : node = node' := Option.some.inj (hnode.symm.trans hnode')
      -- the nodes published before on this path belong to later boundaries
      have hnewer : ∀ e ∈ newer, e.1.boundary ≠ c.boundary := by
        intro e he hsame
        have hlt := (List.pairwise_append.mp hlevels).2.2 e he (c, last) List.mem_cons_self
        have hlevel := hlinks.level_boundary _ _ (hmapped.isKept e (by simp [he])) hc hsame
        exact Nat.lt_irrefl _ (hlevel ▸ hlt)
      have hptrs : ∀ e ∈ newer ++ done, e.2 ≠ last := by
        intro e he hlast
        rcases List.mem_append.mp he with he | he
        · obtain ⟨old, hold, _, holdBoundary⟩ := hmapped.stored e (by simp [he])
          rw [hlast, hnode, Option.some.injEq] at hold
          exact hnewer e he (by rw [← holdBoundary, ← hold, hboundary])
        · exact hnew (c, last) List.mem_cons_self e he hlast.symm
      obtain ⟨ids1, hrun, hpublished1, hkeeps, hptrCache, hcache⟩ :=
        hpublished.publishNode hlinks hmapped.cache hc (hinfo c hc) hnewer hnode hboundary hptrs
          (hmapped.ne_bos1 hlinks (e := (c, last)) (by simp))
      have hassoc : newer ++ (c, last) :: pend ++ done = newer ++ [(c, last)] ++ pend ++ done := by
        simp
      have hlevels' : (newer ++ [(c, last)] ++ pend).Pairwise
          fun e e' => level e'.1 < level e.1 := by
        rw [List.append_assoc]
        exact hlevels
      rw [hprev] at hrun
      have hmapped1 := hmapped.keeps hkeeps hptrCache hcache
      rw [hassoc] at hmapped1 ⊢
      rw [publish_of_ne (hlinks.ne_null c hc) (hfirst _ List.mem_cons_self), hrun, Option.bind_some]
      exact ih _ hmapped1 (by simpa using hpublished1) (hrest.keeps hkeeps)
        (fun e he => hfirst e (List.mem_cons_of_mem _ he))
        (fun e he => hnew e (List.mem_cons_of_mem _ he)) hlevels'

end Publish

/-! ## One path -/

/-- Between the paths nothing waits. -/
structure Resolved (resolver : RnnIdResolver) (lat : Lattice) (bos : ConnectionPtr) (numBnds : Nat)
    (kept : ConnectionPtr → Prop) (done : List Entry) (ids : RnnIdContainer) : Prop where
  mapped : Mapped resolver lat bos kept [] done ids
  published : Published resolver lat numBnds kept done ids
  grouped : Grouped bos (coordOf resolver lat) (done.map (·.1))

section Paths

variable (hlinks : Links bos (coordOf resolver lat) numBnds level kept)
  (hinfo : ∀ c, kept c → c.latticeNodePtr = eosPtr lat ∨
    ∃ ninfo, (lat.boundary c.boundary).nodeInfo[c.right]? = some ninfo)

include hlinks hinfo

theorem Resolved.addPath (h : Resolved resolver lat bos numBnds kept done ids) {c : ConnectionPtr}
    (hc : kept c) :
    (∃ done' ids', addPath resolver lat c ids = some ids' ∧
      Resolved resolver lat bos numBnds kept done' ids' ∧
      done'.map (·.1) = visit bos (done.map (·.1)) c) ∨
    (¬ Grouped bos (coordOf resolver lat) (visit bos (done.map (·.1)) c) ∧
      ∀ ids', addPath resolver lat c ids = some ids' →
        Strays resolver lat bos (visit bos (done.map (·.1)) c) ids') := by
  rcases addPrevChain_spec hlinks hinfo (Or.inr hc) h.mapped h.published h.mapped.previous h.grouped
    (by simp) with ⟨pend, done', ids1, first, last, hrun, hspan, hmap⟩ | ⟨hungrouped, hstrays⟩
  · obtain ⟨ids2, hpublish, hmapped, hpublished⟩ := publish_spec [] hlinks hinfo
      hspan.mapped hspan.published hspan.linked hspan.ne_first hspan.new hspan.levels
    refine Or.inl ⟨pend ++ done', ids2, ?_, ⟨hmapped, hpublished, hspan.grouped⟩, hmap⟩
    unfold Rnn.addPath
    simp only [hrun, Option.bind_eq_bind, Option.bind_some]
    exact hpublish
  · refine Or.inr ⟨hungrouped, fun ids' hadd => ?_⟩
    unfold Rnn.addPath at hadd
    simp only [Option.bind_eq_bind, Option.bind_eq_some_iff, Prod.exists] at hadd
    obtain ⟨first, last, ids1, hrun, hpublish⟩ := hadd
    exact (hstrays _ ids1 hrun).extends (extends_publish hpublish) fun _ h => h

/-! ## All paths -/

omit hlinks hinfo in
theorem extends_addPaths {paths : List ConnectionPtr} {ids ids' : RnnIdContainer}
    (h : paths.foldlM (fun ids cptr => Rnn.addPath resolver lat cptr ids) ids = some ids') :
    Extends ids ids' := by
  induction paths generalizing ids with
  | nil =>
      obtain rfl : ids = ids' := by simpa using h
      exact .refl _
  | cons path paths ih =>
      rw [List.foldlM_cons, Option.bind_eq_bind, Option.bind_eq_some_iff] at h
      obtain ⟨ids1, hadd, hrest⟩ := h
      exact (extends_addPath hadd).trans (ih hrest)

omit hlinks hinfo in
theorem sublist_foldl_visit (seen : List ConnectionPtr) (paths : List ConnectionPtr) :
    seen.Sublist (paths.foldl (visit bos) seen) := by
  induction paths generalizing seen with
  | nil => exact List.Sublist.refl _
  | cons path paths ih => exact (sublist_visit path).trans (ih _)

/-- By induction on the paths. -/
theorem Resolved.addPaths {paths : List ConnectionPtr} (hpaths : ∀ c ∈ paths, kept c)
    (h : Resolved resolver lat bos numBnds kept done ids) :
    (∃ done' ids', paths.foldlM (fun ids cptr => Rnn.addPath resolver lat cptr ids) ids =
        some ids' ∧
      Resolved resolver lat bos numBnds kept done' ids' ∧
      done'.map (·.1) = paths.foldl (visit bos) (done.map (·.1))) ∨
    (¬ Grouped bos (coordOf resolver lat) (paths.foldl (visit bos) (done.map (·.1))) ∧
      ∀ ids', paths.foldlM (fun ids cptr => Rnn.addPath resolver lat cptr ids) ids = some ids' →
        Strays resolver lat bos (paths.foldl (visit bos) (done.map (·.1))) ids') := by
  induction paths generalizing done ids with
  | nil => exact Or.inl ⟨done, ids, rfl, h, rfl⟩
  | cons path paths ih =>
      rw [List.foldl_cons]
      have htail : ∀ c ∈ paths, kept c := fun c hc => hpaths c (List.mem_cons_of_mem _ hc)
      rcases h.addPath hlinks hinfo (hpaths path List.mem_cons_self) with
        ⟨done1, ids1, hadd, hresolved, hmap⟩ | ⟨hungrouped, hstrays⟩
      · rw [List.foldlM_cons, hadd, ← hmap]
        exact ih htail hresolved
      · refine Or.inr ⟨fun hall => hungrouped (hall.sublist (sublist_foldl_visit _ _)),
          fun ids' hrun => ?_⟩
        rw [List.foldlM_cons, Option.bind_eq_bind, Option.bind_eq_some_iff] at hrun
        obtain ⟨ids1, hadd, hrest⟩ := hrun
        exact (hstrays ids1 hadd).extends (extends_addPaths hrest)
          fun c hc => (sublist_foldl_visit _ _).subset hc

end Paths

end Run

end Jumanpp.Core.Analysis.Rnn
