import Jumanpp.Core.Analysis.CharLatticeWalks

/-!
# Looking up the words of all walks

The frontier keeps its invariant over a step and over the merging of its states, so at the end the
results are the words of all walks; sorting leaves each of them once.
-/

namespace Jumanpp.Core.Analysis.CharLattceTraversal

open Jumanpp.Lib Jumanpp.Util Jumanpp.Core.Dic

/-- The words found are those of the walks to some position at most. -/
structure Found (dic : DictionaryEntries) (cl : CharLattice) (input : List InputCodepoint)
    (start pos : Nat) (results : List CLResult) : Prop where
  sound : ∀ r ∈ results, r.start = start ∧ ∃ key flags last,
    Walk cl input start r.end_ key flags true last ∧ r.entryPtr ∈ dic.entriesOf key ∧
      r.flags = resultFlags flags last
  complete : ∀ end_ ≤ pos, ∀ key flags last, Walk cl input start end_ key flags true last →
    ∀ entry ∈ dic.entriesOf key, ∃ r ∈ results, r.entryPtr = entry ∧ r.end_ = end_

structure Frontier (dic : DictionaryEntries) (cl : CharLattice) (input : List InputCodepoint)
    (start pos : Nat) (states : List TraverasalState) (results : List CLResult) : Prop where
  sound : ∀ s ∈ states, s.start = start ∧ s.end_ = pos ∧ ∃ key flags altered last,
    Walk cl input start pos key flags altered last ∧ Represents dic s key flags
  complete : ∀ key flags altered last, Walk cl input start pos key flags altered last →
    Viable dic key → ∃ s ∈ states, Represents dic s key flags
  found : Found dic cl input start pos results

section Frontier

variable {dic : DictionaryEntries} {cl : CharLattice} {input : List InputCodepoint} {start : Nat}
  (hmarked : Marked cl) {pos : Nat} {states : List TraverasalState} {results : List CLResult}

include hmarked in
/-- A step of the frontier, with all offers for all of its states. -/
theorem Frontier.step (h : Frontier dic cl input start pos states results)
    (hstart : start + 1 ≤ pos) (hpos : pos < input.length) :
    Frontier dic cl input start (pos + 1)
      (states.flatMap fun s => (offersAt cl input pos).flatMap (nextStates dic s))
      (results ++ states.flatMap fun s => (offersAt cl input pos).flatMap (nextResults dic s)) := by
  refine ⟨?_, ?_, ?_, ?_⟩
  · intro s' hs'
    obtain ⟨s, hs, hs'⟩ := List.mem_flatMap.mp hs'
    obtain ⟨offer, hoffer, hs'⟩ := List.mem_flatMap.mp hs'
    obtain ⟨hstartEq, hend, key, flags, altered, last, hwalk, hrep⟩ := h.sound s hs
    obtain ⟨hviable, rfl⟩ := hrep.mem_nextStates.mp hs'
    obtain ⟨altered', hwalk'⟩ := hwalk.offer hpos hoffer
    refine ⟨hstartEq, ?_, _, _, altered', _, hwalk', hrep.walkState hviable⟩
    show s.end_ + 1 = pos + 1
    rw [hend]
  · intro key' flags' altered' last' hwalk' hviable
    obtain ⟨key, flags, altered, last, hwalk, offer, hoffer, rfl, rfl, rfl⟩ :=
      hwalk'.exists_offer hstart
    have hprefix : Viable dic key := by
      unfold Offer.keyAfter at hviable
      split at hviable
      · exact hviable.of_append
      · exact hviable
    obtain ⟨s, hs, hrep⟩ := h.complete key flags altered last hwalk hprefix
    refine ⟨_, ?_, hrep.walkState hviable⟩
    exact List.mem_flatMap.mpr ⟨s, hs, List.mem_flatMap.mpr
      ⟨offer, hoffer, hrep.mem_nextStates.mpr ⟨hviable, rfl⟩⟩⟩
  · intro r hr
    obtain hr | hr := List.mem_append.mp hr
    · exact h.found.sound r hr
    · obtain ⟨s, hs, hr⟩ := List.mem_flatMap.mp hr
      obtain ⟨offer, hoffer, hr⟩ := List.mem_flatMap.mp hr
      obtain ⟨hstartEq, hend, key, flags, altered, last, hwalk, hrep⟩ := h.sound s hs
      obtain ⟨hne, ptr, hptr, rfl⟩ := hrep.mem_nextResults.mp hr
      obtain ⟨altered', hwalk'⟩ := hwalk.offer hpos hoffer
      have haltered : altered' = true := (hwalk'.altered_iff hmarked).mpr hne
      rw [haltered, ← hend] at hwalk'
      exact ⟨hstartEq, _, _, _, hwalk', hptr, rfl⟩
  · intro end_ hle key' flags' last' hwalk' entry hentry
    obtain hle | rfl : end_ ≤ pos ∨ end_ = pos + 1 := by omega
    · obtain ⟨r, hr, hpair⟩ := h.found.complete end_ hle key' flags' last' hwalk' entry hentry
      exact ⟨r, List.mem_append_left _ hr, hpair⟩
    · obtain ⟨key, flags, altered, last, hwalk, offer, hoffer, rfl, rfl, rfl⟩ :=
        hwalk'.exists_offer hstart
      have hviable : Viable dic key := by
        have hlong := viable_of_mem_entriesOf hentry
        unfold Offer.keyAfter at hlong
        split at hlong
        · exact hlong.of_append
        · exact hlong
      obtain ⟨s, hs, hrep⟩ := h.complete key flags altered last hwalk hviable
      have hne := (hwalk'.altered_iff hmarked).mp rfl
      obtain ⟨-, hend, -⟩ := h.sound s hs
      refine ⟨_, List.mem_append_right _ (List.mem_flatMap.mpr ⟨s, hs, List.mem_flatMap.mpr
        ⟨offer, hoffer, hrep.mem_nextResults.mpr ⟨hne, entry, hentry, rfl⟩⟩⟩), rfl, ?_⟩
      show s.end_ + 1 = pos + 1
      rw [hend]

/-- Merged states are at one node with equal flags, so one of them stands for their walks. -/
theorem Frontier.unique (h : Frontier dic cl input start pos states results) :
    Frontier dic cl input start pos (Lib.unique equalStates states).1 results := by
  refine ⟨fun s hs => h.sound s ((unique_sublist states).subset hs), ?_, h.found⟩
  intro key flags altered last hwalk hviable
  obtain ⟨s, hs, hrep⟩ := h.complete key flags altered last hwalk hviable
  obtain ⟨s', hs', rfl | hequal⟩ := unique_represents states s hs
  · exact ⟨s', hs', hrep⟩
  · unfold equalStates at hequal
    simp only [Bool.and_eq_true, beq_iff_eq] at hequal
    obtain ⟨⟨-, hflags⟩, htrav⟩ := hequal
    obtain ⟨-, -, _, _, _, _, -, hrep'⟩ := h.sound s' ((unique_sublist states).subset hs')
    refine ⟨s', hs', ⟨?_, hflags.trans hrep.flags, hrep'.status, hrep'.value⟩⟩
    rw [htrav]
    exact hrep.stands

include hmarked in
/-- When no state is left, there are no words on longer walks. -/
theorem Frontier.found_of_empty (h : Frontier dic cl input start pos [] results)
    (hstart : start + 1 ≤ pos) (hpos : pos ≤ input.length) :
    Found dic cl input start input.length results := by
  obtain ⟨d, hd⟩ := Nat.exists_eq_add_of_le hpos
  induction d generalizing pos with
  | zero =>
      rw [hd]
      exact h.found
  | succ d ih =>
      have hnext := h.step hmarked hstart (by omega)
      rw [List.flatMap_nil, List.flatMap_nil, List.append_nil] at hnext
      exact ih hnext (by omega) (by omega) (by omega)

/-- The frontier after the first character. -/
theorem Frontier.first {s : TraverasalState} (hstart : s.start = start) (hend : s.end_ = start + 1)
    (hlt : start < input.length)
    (hrep : Represents dic s (codepointAt input start).bytes Modifiers.ORIGINAL) :
    Frontier dic cl input start (start + 1) [s] [] := by
  refine ⟨?_, ?_, fun r hr => (nomatch hr), ?_⟩
  · intro s' hs'
    rw [List.mem_singleton.mp hs']
    exact ⟨hstart, hend, _, _, _, _, .start, hrep⟩
  · intro key flags altered last hwalk hviable
    cases hwalk with
    | start => exact ⟨s, List.mem_singleton_self s, hrep⟩
    | original h hp => have := (h.bounds hlt).1; omega
    | replaced h hp => have := (h.bounds hlt).1; omega
    | deleted h hp => have := (h.bounds hlt).1; omega
  · intro end_ hle key flags last hwalk
    cases hwalk with
    | original h hp => have := (h.bounds hlt).1; omega
    | replaced h hp => have := (h.bounds hlt).1; omega
    | deleted h hp => have := (h.bounds hlt).1; omega

end Frontier

/-! ## The run -/

section Run

variable {alg : StdAlgorithm} {dic : DictionaryEntries} {cl : CharLattice}
  {input : List InputCodepoint} (hinput : input.length < 2 ^ 16) (hmarked : Marked cl)
  {start : Nat} {t : CharLattceTraversal}

include hinput hmarked

/-- By induction on the positions that are left. -/
theorem settles_stepsFrom {rest pos : Nat} (hrest : pos + rest = input.length)
    (hstart : start + 1 ≤ pos) (howned : t.Owned) (hstates2 : t.states2 = [])
    (h : Frontier dic cl input start pos (contents t.memory t.states1) t.result) :
    Settles 16 (stepsFrom dic cl input rest pos t) fun t' =>
      t'.Owned ∧ t'.states2 = [] ∧ Found dic cl input start input.length t'.result := by
  induction rest generalizing pos t with
  | zero =>
      refine Settles.pure ⟨howned, hstates2, ?_⟩
      rw [← hrest]
      exact h.found
  | succ rest ih =>
      unfold stepsFrom
      split
      next hempty =>
        refine Settles.pure ⟨howned, hstates2, ?_⟩
        rw [hempty] at h
        exact h.found_of_empty hmarked hstart (by omega)
      next =>
        refine (settles_doTraverseStep hinput rfl howned (fun s hs => (h.sound s hs).2.1)
          (by omega)).bind fun t' ht' => ?_
        obtain ⟨hswapped, hstates2', hresult, hstates1⟩ := swapStates_spec ht'.owned
        refine ih (by omega) (by omega) hswapped hstates2' ?_
        have hnext := h.step hmarked hstart (by omega)
        have hcontents : contents t'.memory t'.states2 = _ := ht'.contents2
        rw [hstates2] at hcontents
        rw [hstates1, hresult, ht'.result, hcontents]
        exact hnext.unique

omit hinput hmarked

theorem sortResults_nil : sortResults alg [] = [] := by
  unfold sortResults
  rw [(alg.sort_perm resultBefore []).eq_nil]
  rfl

include hinput hmarked

/-- What a lookup leaves behind: free memory and the words of all walks. -/
theorem settles_lookup (hlt : start < input.length) (ht : t.Idle) :
    Settles 16 (lookupCandidatesFrom alg dic cl input start t) fun r =>
      r.2.Idle ∧ (r.1 = true ↔ r.2.result ≠ []) ∧ ∃ results,
        Found dic cl input start input.length results ∧ r.2.result = sortResults alg results := by
  unfold lookupCandidatesFrom
  rw [if_neg (by omega)]
  have hroot : Stands dic [] doubleArrayTraversal := stands_root
  have hfree := ht.withResult []
  simp only
  by_cases hviable : Viable dic (codepointAt input start).bytes
  · obtain ⟨hstands, hstatus, hvalue⟩ :=
      hroot.step hviable
    generalize hwalk : doubleArrayTraversal.step dic (codepointAt input start).bytes = walked at *
    obtain ⟨stat, trav⟩ := walked
    simp only at hstands hstatus hvalue ⊢
    rw [if_neg (by rw [hstatus]; exact statusAt_ne_noNode _)]
    refine (Settles.narrow (by omega)).bind fun posStart hposStart => ?_
    refine (Settles.narrow (by omega)).bind fun posEnd hposEnd => ?_
    rw [hposStart, hposEnd]
    obtain ⟨hmade, status0, hstate⟩ := make_spec hfree.owned trav start (start + 1) Modifiers.ORIGINAL
    obtain ⟨hmade2, hstate2⟩ := hmade.update fun s => { s with lastStatus := stat }
    rw [hstate] at hstate2
    have hfirst : Frontier dic cl input start (start + 1)
        [⟨trav, start, start + 1, Modifiers.ORIGINAL, stat⟩] [] :=
      Frontier.first rfl rfl hlt ⟨hstands, rfl, hstatus, hvalue⟩
    refine (settles_stepsFrom hinput hmarked (by omega) (Nat.le_refl _) hmade2.started
      (hmade2.states2.trans ht.states2) ?_).bind ?_
    · have hcontents : contents _ [_] = [_] := congrArg (fun s => [s]) hstate2
      have hstates1 := hmade2.states1.trans ht.states1
      simp only at hstates1 ⊢
      rw [hstates1, List.nil_append, hcontents, hmade2.result]
      exact hfirst
    · rintro t' ⟨howned, hstates2, hfound⟩
      have hidle := howned.idle hstates2
      split
      next hnil =>
        refine Settles.pure ⟨hidle, by simp [hnil], [], ?_, ?_⟩
        · rw [← hnil]
          exact hfound
        · rw [sortResults_nil]
          exact hnil
      next =>
        exact Settles.pure ⟨hidle.withResult _, by simp, t'.result, hfound, rfl⟩
  · rw [if_pos (hroot.step_noNode hviable)]
    refine Settles.pure ⟨hfree, by simp, [], ?_, ?_⟩
    · refine ⟨fun r hr => (nomatch hr), ?_⟩
      intro end_ _ key flags last hwalk entry hentry
      obtain ⟨rest, rfl⟩ := hwalk.exists_rest
      exact absurd (viable_of_mem_entriesOf hentry).of_append hviable
    · exact sortResults_nil.symm

end Run

/-! ## The results -/

theorem resultBefore_iff {c1 c2 : CLResult} : resultBefore c1 c2 = true ↔
    c1.end_ < c2.end_ ∨ c1.end_ = c2.end_ ∧ c1.entryPtr < c2.entryPtr := by
  unfold resultBefore
  split
  next heq => simp [heq]
  next hne => simp [hne]

theorem resultBefore_trans {a b c : CLResult} (hab : resultBefore a b = true)
    (hbc : resultBefore b c = true) : resultBefore a c = true := by
  rw [resultBefore_iff] at *
  obtain hab | ⟨habEnd, hab⟩ := hab <;> obtain hbc | ⟨hbcEnd, hbc⟩ := hbc
  · exact .inl (hab.trans hbc)
  · exact .inl (hbcEnd ▸ hab)
  · exact .inl (habEnd ▸ hbc)
  · exact .inr ⟨habEnd.trans hbcEnd, Int.lt_trans hab hbc⟩

/-- Two results that neither comes before the other have the same end and entry. -/
theorem eq_of_not_before {a b : CLResult} (hab : resultBefore a b ≠ true)
    (hba : resultBefore b a ≠ true) : a.entryPtr = b.entryPtr ∧ a.end_ = b.end_ := by
  rw [ne_eq, resultBefore_iff] at hab hba
  push Not at hab hba
  have hend : a.end_ = b.end_ := Nat.le_antisymm hba.1 hab.1
  exact ⟨Int.le_antisymm (hba.2 hend.symm) (hab.2 hend), hend⟩

theorem strictWeak_resultBefore : StrictWeak resultBefore := by
  have hirrefl : ∀ a, resultBefore a a ≠ true := by
    intro a ha
    rw [resultBefore_iff] at ha
    obtain ha | ⟨-, ha⟩ := ha
    · exact Nat.lt_irrefl _ ha
    · exact Int.lt_irrefl _ ha
  constructor
  · intro a b hab
    by_contra hba
    exact hirrefl a (resultBefore_trans hab (by simpa using hba))
  · intro a b c hab hbc
    by_contra hac
    rw [Bool.not_eq_false] at hac
    have hab' : resultBefore a b ≠ true := by simp [hab]
    have hbc' : resultBefore b c ≠ true := by simp [hbc]
    by_cases hba : resultBefore b a = true
    · exact hbc' (resultBefore_trans hba hac)
    · obtain ⟨hentry, hend⟩ := eq_of_not_before hab' hba
      refine hbc' ?_
      rw [resultBefore_iff] at hac ⊢
      rwa [hentry, hend] at hac

/-- In a sorted list without equal neighbours all pairs differ. -/
theorem nodup_of_sorted {results : List CLResult}
    (hsorted : results.Pairwise (NotAfter resultBefore))
    (hchain : results.IsChain fun c1 c2 =>
      (c1.entryPtr == c2.entryPtr && c1.end_ == c2.end_) = false) :
    (results.map fun r => (r.entryPtr, r.end_)).Nodup := by
  have hstrict : results.IsChain fun c1 c2 => resultBefore c1 c2 = true := by
    induction results with
    | nil => exact .nil
    | cons c1 results ih =>
        cases results with
        | nil => exact .singleton c1
        | cons c2 results =>
            obtain ⟨hdiffer, hrest⟩ := List.isChain_cons_cons.mp hchain
            refine .cons_cons ?_ (ih (List.Pairwise.of_cons hsorted) hrest)
            by_contra hnot
            have hafter := List.rel_of_pairwise_cons hsorted List.mem_cons_self
            obtain ⟨hentry, hend⟩ := eq_of_not_before hnot (by simp [NotAfter] at hafter; simp [hafter])
            simp [hentry, hend] at hdiffer
  have htrans : Trans (fun c1 c2 => resultBefore c1 c2 = true)
      (fun c1 c2 => resultBefore c1 c2 = true) (fun c1 c2 => resultBefore c1 c2 = true) :=
    ⟨resultBefore_trans⟩
  refine List.pairwise_map.mpr ((List.isChain_iff_pairwise.mp hstrict).imp ?_)
  intro c1 c2 hlt heq
  obtain ⟨hentry, hend⟩ := Prod.mk.inj heq
  rw [resultBefore_iff, hentry, hend] at hlt
  obtain hlt | ⟨-, hlt⟩ := hlt
  · exact Nat.lt_irrefl _ hlt
  · exact Int.lt_irrefl _ hlt

/-- The words on the walks from a start, each pair of an entry and an end once, with the flags of a
walk. -/
structure Lists (dic : DictionaryEntries) (cl : CharLattice) (input : List InputCodepoint)
    (start : Nat) (results : List CLResult) : Prop where
  nodup : (results.map fun r => (r.entryPtr, r.end_)).Nodup
  mem_iff : ∀ entry end_, (∃ r ∈ results, r.entryPtr = entry ∧ r.end_ = end_) ↔
    ∃ key flags last, Walk cl input start end_ key flags true last ∧ entry ∈ dic.entriesOf key
  walk : ∀ r ∈ results, r.start = start ∧ ∃ key flags last,
    Walk cl input start r.end_ key flags true last ∧ r.entryPtr ∈ dic.entriesOf key ∧
      r.flags = resultFlags flags last

theorem Found.lists {alg : StdAlgorithm} {dic : DictionaryEntries} {cl : CharLattice}
    {input : List InputCodepoint} {start : Nat} (hstart : start < input.length)
    {results : List CLResult} (h : Found dic cl input start input.length results) :
    Lists dic cl input start (sortResults alg results) := by
  have hperm := alg.sort_perm resultBefore results
  have hsublist : (sortResults alg results).Sublist (alg.sort resultBefore results) :=
    unique_sublist (alg.sort resultBefore results)
  have hsubset : sortResults alg results ⊆ results :=
    fun r hr => hperm.subset (hsublist.subset hr)
  refine ⟨?_, fun entry end_ => ⟨?_, ?_⟩, fun r hr => h.sound r (hsubset hr)⟩
  · exact nodup_of_sorted ((alg.sort_sorted _ _ strictWeak_resultBefore).sublist hsublist)
      (unique_chain _)
  · rintro ⟨r, hr, rfl, rfl⟩
    obtain ⟨-, key, flags, last, hwalk, hentry, -⟩ := h.sound r (hsubset hr)
    exact ⟨key, flags, last, hwalk, hentry⟩
  · rintro ⟨key, flags, last, hwalk, hentry⟩
    obtain ⟨r, hr, hrEntry, hrEnd⟩ :=
      h.complete end_ (hwalk.bounds hstart).2 key flags last hwalk entry hentry
    obtain ⟨r', hr', rfl | hequal⟩ : ∃ r' ∈ sortResults alg results, r' = r ∨
        (r'.entryPtr == r.entryPtr && r'.end_ == r.end_) = true :=
      unique_represents _ r (hperm.mem_iff.mpr hr)
    · exact ⟨r', hr', hrEntry, hrEnd⟩
    · simp only [Bool.and_eq_true, beq_iff_eq] at hequal
      exact ⟨r', hr', hequal.1.trans hrEntry, hequal.2.trans hrEnd⟩

/-! ## The alternatives of `Parse` -/

theorem marked_substitutions {codepoints : List InputCodepoint} {pos : Nat} :
    ∀ node ∈ substitutions codepoints pos, node.type &&& ~~~Modifiers.ORIGINAL ≠ 0 := by
  intro node hnode
  unfold substitutions at hnode
  split at hnode
  · obtain rfl | hnode := List.mem_cons.mp hnode
    · dsimp only
      decide
    · split at hnode
      · rw [List.mem_singleton.mp hnode]
        dsimp only
        decide
      · cases hnode
  · split at hnode
    · rw [List.mem_singleton.mp hnode]
      dsimp only
      decide
    · cases hnode

theorem marked_deletions {codepoints : List InputCodepoint} {preIsDeleted : Bool} {pos : Nat} :
    ∀ node ∈ deletions codepoints preIsDeleted pos, node.type &&& ~~~Modifiers.ORIGINAL ≠ 0 := by
  intro node hnode
  unfold deletions at hnode
  simp only at hnode
  split_ifs at hnode
  · rw [List.mem_singleton.mp hnode]
    decide
  · rw [List.mem_singleton.mp hnode]
    decide
  · rw [List.mem_singleton.mp hnode]
    decide
  · cases hnode

theorem marked_parse (codepoints : List InputCodepoint) : Marked (CharLattice.Parse codepoints) := by
  have hall : ∀ rest pos preIsDeleted, ∀ nodes ∈ parseFrom codepoints rest pos preIsDeleted,
      ∀ node ∈ nodes, node.type &&& ~~~Modifiers.ORIGINAL ≠ 0 := by
    intro rest
    induction rest with
    | zero => exact fun _ _ nodes hnodes => nomatch hnodes
    | succ rest ih =>
        intro pos preIsDeleted nodes hnodes node hnode
        unfold parseFrom at hnodes
        split at hnodes
        · obtain rfl | hnodes := List.mem_cons.mp hnodes
          · obtain hnode | hnode := List.mem_append.mp hnode
            · exact marked_substitutions node hnode
            · exact marked_deletions node hnode
          · exact ih _ _ nodes hnodes node hnode
        · obtain rfl | hnodes := List.mem_cons.mp hnodes
          · cases hnode
          · exact ih _ _ nodes hnodes node hnode
  intro pos node hnode
  unfold CharLattice.nodesAt at hnode
  rw [List.getD_eq_getElem?_getD] at hnode
  cases hget : (CharLattice.Parse codepoints).nodeList[pos]? with
  | none =>
      rw [hget] at hnode
      cases hnode
  | some nodes =>
      rw [hget] at hnode
      exact hall _ _ _ nodes (List.mem_of_getElem? hget) node hnode

/-- `CharLattice::traversal`. -/
def new : CharLattceTraversal := ⟨[], [], [], [], []⟩

theorem idle_new : Idle new :=
  ⟨⟨List.nodup_nil, fun _ hptr => nomatch hptr⟩, rfl, rfl⟩

/-- For every start, and whatever starts the traversal was used for before, the lookup finds just
the words on the walks from there. -/
theorem lookupCandidatesFrom_lists (alg : StdAlgorithm) (dic : DictionaryEntries)
    {input : List InputCodepoint} (hinput : input.length < 2 ^ 16) {earlier : List Nat}
    (hearlier : ∀ s ∈ earlier, s < input.length) {start : Nat} (hstart : start < input.length) :
    let cl := CharLattice.Parse input
    let lookup := lookupCandidatesFrom alg dic cl input
    ∃ t found t', Returns 16 (earlier.foldlM (fun t s => do pure (← lookup s t).2) new) t ∧
      Returns 16 (lookup start t) (found, t') ∧ (found = true ↔ t'.result ≠ []) ∧
      Lists dic cl input start t'.result := by
  intro cl lookup
  have hmarked := marked_parse input
  obtain ⟨t, ht, hreturns⟩ := (Settles.foldlM (P := fun _ t => Idle t) (d := [])
    (f := fun t s => do pure (← lookup s t).2) (l := earlier) (fun done t s hs ht =>
      (settles_lookup hinput hmarked (hearlier s hs) ht).bind fun r hr =>
        Settles.pure hr.1) idle_new).returns
  obtain ⟨⟨found, t'⟩, ⟨-, hfound, results, hresults, heq⟩, hreturns'⟩ :=
    (settles_lookup hinput hmarked hstart ht).returns
  refine ⟨t, found, t', hreturns, hreturns', hfound, ?_⟩
  rw [heq]
  exact hresults.lists hstart

/-- かー in a dictionary with two entries for かあ. -/
theorem lookupCandidatesFrom_lists_prolonged :
    let dic : DictionaryEntries := ⟨#[231424, 133347, 141441, 233611, 131299, 132225, 1410,
      2147483649], fun _ => [4, 7], fun _ => none⟩
    let input := [CharDb.toCodepoint 'か', CharDb.toCodepoint 'ー']
    let cl := CharLattice.Parse input
    let lookup := lookupCandidatesFrom StdAlgorithm.insertion dic cl input
    ∃ t found t', Returns 16 ([1, 0].foldlM (fun t s => do pure (← lookup s t).2) new) t ∧
      Returns 16 (lookup 0 t) (found, t') ∧ (found = true ↔ t'.result ≠ []) ∧
      Lists dic cl input 0 t'.result :=
  lookupCandidatesFrom_lists StdAlgorithm.insertion _ (by decide) (by decide) (by decide)

example :
    let dic : DictionaryEntries := ⟨#[231424, 133347, 141441, 233611, 131299, 132225, 1410,
      2147483649], fun _ => [4, 7], fun _ => none⟩
    let input := [CharDb.toCodepoint 'か', CharDb.toCodepoint 'ー']
    (lookupCandidatesFrom StdAlgorithm.insertion dic (CharLattice.Parse input) input 0 new
        (Arith.wrapping 16 0)).toOption.map (fun r => r.2.result.map fun c => (c.entryPtr, c.end_)) =
      some [(4, 2), (7, 2)] := by
  decide +kernel

end Jumanpp.Core.Analysis.CharLattceTraversal
