import Jumanpp.Core.Analysis.UnkNodesCreator
import Jumanpp.Lib.Between

/-!
# The words of the dictionary in an input

The walk from a position reads the input character by character and stops where no key goes on, so
it comes by each key that the input has there.
-/

namespace Jumanpp.Core.Analysis

open Jumanpp.Lib Jumanpp.Util Jumanpp.Core.Dic

theorem surfaceOf_self (codepoints : List InputCodepoint) (start : Nat) :
    surfaceOf codepoints start start = [] := by
  unfold surfaceOf
  rw [Nat.sub_self, List.take_zero]
  rfl

theorem surfaceOf_succ {codepoints : List InputCodepoint} {start end_ : Nat} (hle : start ≤ end_)
    (hlt : end_ < codepoints.length) :
    surfaceOf codepoints start (end_ + 1) =
      surfaceOf codepoints start end_ ++ (codepointAt codepoints end_).bytes := by
  have hget : (codepoints.drop start)[end_ - start]? = some codepoints[end_] := by
    rw [List.getElem?_drop, Nat.add_sub_cancel' hle, List.getElem?_eq_getElem hlt]
  have hcodepoint : codepointAt codepoints end_ = codepoints[end_] := by
    unfold codepointAt
    rw [List.getD_eq_getElem?_getD, List.getElem?_eq_getElem hlt]
    rfl
  unfold surfaceOf
  rw [Nat.succ_sub hle, List.take_add_one, hget, Option.toList_some, List.flatMap_append,
    List.flatMap_singleton, hcodepoint]

/-- A surface that can not be read on stays so. -/
theorem not_viable_mono {dic : DictionaryEntries} {codepoints : List InputCodepoint}
    {start end_ k : Nat} (hstart : start ≤ end_) (hle : end_ ≤ k) (hk : k ≤ codepoints.length)
    (h : ¬Viable dic (surfaceOf codepoints start end_)) :
    ¬Viable dic (surfaceOf codepoints start k) := by
  obtain ⟨d, rfl⟩ := Nat.exists_eq_add_of_le hle
  induction d with
  | zero => exact h
  | succ d ih =>
      rw [← Nat.add_assoc, surfaceOf_succ (by omega) (by omega)]
      exact fun hviable => ih (by omega) (by omega) hviable.of_append

namespace DictionaryNodeCreator

variable (dic : DictionaryEntries) (codepoints : List InputCodepoint)

/-- The seeds for the entries that the index has for one substring. -/
def entrySeeds (start end_ : Nat) : List LatticeNodeSeed :=
  (dic.entriesOf (surfaceOf codepoints start end_)).map fun ptr => ⟨ptr, start, end_⟩

def wordsFrom (start end_ : Nat) : List LatticeNodeSeed :=
  between start end_ fun position => entrySeeds dic codepoints start (position + 1)

def words : List LatticeNodeSeed :=
  between 0 codepoints.length (wordsFrom dic codepoints · codepoints.length)

variable {dic codepoints} {s : Spawned}

theorem foldl_appendSeed (ptrs : List EntryPtr) (start end_ : Nat) (s : Spawned) :
    ptrs.foldl (fun s ptr => s.appendSeed ptr start end_) s =
      { s with seeds := s.seeds ++ ptrs.map fun ptr => ⟨ptr, start, end_⟩ } := by
  induction ptrs generalizing s with
  | nil => simp
  | cons ptr ptrs ih =>
      rw [List.foldl_cons, ih]
      simp [Spawned.appendSeed]

/-- One step of the walk, by the status that it returns. -/
theorem step_cases {key : List UInt8} {trav : DoubleArrayTraversal} (h : Stands dic key trav)
    (data : List UInt8) :
    (trav.step dic data).1 = .NoNode ∧ ¬Viable dic (key ++ data) ∨
    (trav.step dic data).1 = .NoLeaf ∧ Stands dic (key ++ data) (trav.step dic data).2 ∧
      dic.entriesOf (key ++ data) = [] ∨
    (trav.step dic data).1 = .Ok ∧ Stands dic (key ++ data) (trav.step dic data).2 ∧
      dic.entriesOf (key ++ data) = dic.entryTraversal (trav.step dic data).2 := by
  by_cases hviable : Viable dic (key ++ data)
  · obtain ⟨hstands, hstatus, hvalue⟩ := h.step hviable
    have hentries := hstands.entriesOf hvalue
    rw [← hstatus] at hentries
    cases hcase : (trav.step dic data).1 with
    | Ok =>
        rw [hcase, if_pos rfl] at hentries
        exact .inr (.inr ⟨rfl, hstands, hentries⟩)
    | NoLeaf =>
        rw [hcase, if_neg (by decide)] at hentries
        exact .inr (.inl ⟨rfl, hstands, hentries⟩)
    | NoNode =>
        unfold statusAt at hstatus
        rw [hcase] at hstatus
        split at hstatus <;> cases hstatus
  · exact .inl ⟨h.step_noNode hviable, hviable⟩

/-- The invariant of the walk: it stands at the node of what has been read, and the words that end
so far have their seeds. -/
theorem spawnFrom_words (hn : codepoints.length < 2 ^ 16) {begin_ : Nat}
    (hbegin : begin_ ≤ codepoints.length) :
    Settles 16 (spawnFrom dic codepoints codepoints.length begin_ s) fun s' =>
      s' = { s with seeds := s.seeds ++ wordsFrom dic codepoints begin_ codepoints.length } := by
  unfold spawnFrom
  refine Settles.bind (Q := fun r => r.2.2 =
      { s with seeds := s.seeds ++ wordsFrom dic codepoints begin_ codepoints.length }) ?_
    fun r hr => Settles.pure hr
  refine Settles.loopUp_exit
    (P := fun position (r : DoubleArrayTraversal × Spawned) => begin_ ≤ position ∧ position ≤ codepoints.length ∧
      Stands dic (surfaceOf codepoints begin_ position) r.1 ∧
      r.2 = { s with seeds := s.seeds ++ wordsFrom dic codepoints begin_ position })
    (Q := fun _ r => r.2 =
      { s with seeds := s.seeds ++ wordsFrom dic codepoints begin_ codepoints.length }) ?_ ?_ ?_
  · rintro position ⟨trav, s'⟩ hlt ⟨hle, -, hstands, hs'⟩
    simp only at hstands hs'
    subst hs'
    have hsurface := surfaceOf_succ hle hlt
    have hwords : wordsFrom dic codepoints begin_ (position + 1) =
        wordsFrom dic codepoints begin_ position ++
          entrySeeds dic codepoints begin_ (position + 1) := between_succ hle
    have hcases := step_cases hstands (codepointAt codepoints position).bytes
    rw [← hsurface] at hcases
    generalize hstep : trav.step dic (codepointAt codepoints position).bytes = stepped at hcases
    obtain ⟨status, trav'⟩ := stepped
    simp only at hcases ⊢
    rw [hstep]
    obtain ⟨rfl, hviable⟩ | ⟨rfl, hstands', hentries⟩ | ⟨rfl, hstands', hentries⟩ := hcases
    · -- no key goes on, so no longer word begins here
      refine Settles.pure ?_
      have hrest : wordsFrom dic codepoints begin_ codepoints.length =
          wordsFrom dic codepoints begin_ position := by
        apply between_of_nil hle hlt.le
        intro i hi hilt
        unfold entrySeeds
        rw [List.map_eq_nil_iff, List.eq_nil_iff_forall_not_mem]
        intro entry hentry
        exact not_viable_mono (by omega) (by omega) (by omega) hviable
          (viable_of_mem_entriesOf hentry)
      simp only
      rw [hrest]
    · refine Settles.pure ⟨Nat.le_refl _, by omega, by omega, by omega, hstands', ?_⟩
      simp only
      rw [hwords, entrySeeds, hentries, List.map_nil, List.append_nil]
    · refine (Settles.narrow (by omega)).bind ?_
      rintro _ rfl
      refine Settles.pure ⟨Nat.le_refl _, by omega, by omega, by omega, hstands', ?_⟩
      simp only
      rw [foldl_appendSeed, hwords, entrySeeds, hentries, List.append_assoc]
  · rintro position ⟨trav, s'⟩ hge ⟨-, hle, -, hs'⟩
    obtain rfl : position = codepoints.length := by omega
    exact hs'
  · refine ⟨Nat.le_refl _, hbegin, ?_, ?_⟩
    · rw [surfaceOf_self]
      exact stands_root
    · simp only [wordsFrom, between_self, List.append_nil]

theorem spawnNodes_words (hn : codepoints.length < 2 ^ 16) :
    Settles 16 (spawnNodes dic codepoints s) fun s' =>
      s' = { s with seeds := s.seeds ++ words dic codepoints } := by
  unfold spawnNodes
  refine (Settles.narrow (by omega)).bind ?_
  rintro _ rfl
  refine Settles.bind (Q := fun r => r.2 = { s with seeds := s.seeds ++ words dic codepoints }) ?_
    fun r hr => Settles.pure hr
  refine Settles.loopUp_exit
    (P := fun begin_ (s' : Spawned) => begin_ ≤ codepoints.length ∧ s' = { s with
      seeds := s.seeds ++ between 0 begin_ (wordsFrom dic codepoints · codepoints.length) })
    (Q := fun _ s' => s' = { s with seeds := s.seeds ++ words dic codepoints }) ?_ ?_ ?_
  · rintro begin_ s' hlt ⟨-, rfl⟩
    refine (spawnFrom_words hn hlt.le).bind ?_
    rintro _ rfl
    refine Settles.pure ⟨Nat.le_refl _, by omega, by omega, ?_⟩
    rw [between_succ (Nat.zero_le _), ← List.append_assoc]
  · rintro begin_ s' hge ⟨hle, hs'⟩
    obtain rfl : begin_ = codepoints.length := by omega
    exact hs'
  · refine ⟨Nat.zero_le _, ?_⟩
    rw [between_self, List.append_nil]

theorem mem_entrySeeds_iff {start end_ : Nat} {seed : LatticeNodeSeed} :
    seed ∈ entrySeeds dic codepoints start end_ ↔ seed.codepointStart = start ∧
      seed.codepointEnd = end_ ∧ seed.entryPtr ∈ dic.entriesOf (surfaceOf codepoints start end_) := by
  unfold entrySeeds
  rw [List.mem_map]
  constructor
  · rintro ⟨ptr, hptr, rfl⟩
    exact ⟨rfl, rfl, hptr⟩
  · rintro ⟨rfl, rfl, hptr⟩
    exact ⟨seed.entryPtr, hptr, rfl⟩

theorem count_entrySeeds (seed : LatticeNodeSeed) :
    (entrySeeds dic codepoints seed.codepointStart seed.codepointEnd).count seed =
      (dic.entriesOf (surfaceOf codepoints seed.codepointStart seed.codepointEnd)).count
        seed.entryPtr := by
  unfold entrySeeds
  exact List.count_map_of_injective _ (fun ptr => LatticeNodeSeed.mk ptr _ _)
    (fun _ _ h => congrArg LatticeNodeSeed.entryPtr h) _

/-- Each entry that the index has for a substring gives one seed with its bounds. -/
theorem count_words (seed : LatticeNodeSeed) :
    (words dic codepoints).count seed =
      if seed.codepointStart < seed.codepointEnd ∧ seed.codepointEnd ≤ codepoints.length then
        (dic.entriesOf (surfaceOf codepoints seed.codepointStart seed.codepointEnd)).count
          seed.entryPtr
      else 0 := by
  have hstart : ∀ b, b ≠ seed.codepointStart →
      seed ∉ wordsFrom dic codepoints b codepoints.length := by
    intro b hb hmem
    obtain ⟨position, -, -, hseed⟩ := mem_between_iff.mp hmem
    exact hb (mem_entrySeeds_iff.mp hseed).1.symm
  have hend : ∀ position, position ≠ seed.codepointEnd - 1 →
      seed ∉ entrySeeds dic codepoints seed.codepointStart (position + 1) := by
    intro position hposition hmem
    have := (mem_entrySeeds_iff.mp hmem).2.1
    omega
  rw [words, count_between hstart, wordsFrom, count_between hend]
  by_cases hpos : 0 < seed.codepointEnd
  · rw [Nat.sub_add_cancel hpos, count_entrySeeds]
    split_ifs <;> first | rfl | omega
  · have hzero : seed ∉ entrySeeds dic codepoints seed.codepointStart (seed.codepointEnd - 1 + 1) :=
      fun hmem => by
        have := (mem_entrySeeds_iff.mp hmem).2.1
        omega
    rw [List.count_eq_zero.mpr hzero, if_neg (by omega : ¬(_ ∧ _ ≤ codepoints.length))]
    split_ifs <;> rfl

/-- The makers of nodes find every word of the dictionary, and each of its entries once. -/
theorem spawnNodes_creates {input input' : AnalysisInput} {data : List UInt8}
    (h : input.reset data = .ok input') (dic : DictionaryEntries) (s : Spawned) :
    ∃ seeds, Returns 16 (spawnNodes dic input'.codepoints s) { s with seeds := s.seeds ++ seeds } ∧
      (∀ start end_ entry, ⟨entry, start, end_⟩ ∈ seeds ↔
        start < end_ ∧ end_ ≤ input'.codepoints.length ∧
          entry ∈ dic.entriesOf (surfaceOf input'.codepoints start end_)) ∧
      ∀ start end_ entry, ⟨entry, start, end_⟩ ∈ seeds →
        seeds.count ⟨entry, start, end_⟩ =
          (dic.entriesOf (surfaceOf input'.codepoints start end_)).count entry := by
  have hsettles : Settles 16 (spawnNodes dic input'.codepoints s) fun s' =>
      s' = { s with seeds := s.seeds ++ words dic input'.codepoints } :=
    spawnNodes_words (AnalysisInput.length_of_reset h)
  obtain ⟨_, rfl, hreturns⟩ := hsettles.returns
  have hmem : ∀ start end_ entry, ⟨entry, start, end_⟩ ∈ words dic input'.codepoints ↔
      start < end_ ∧ end_ ≤ input'.codepoints.length ∧
        entry ∈ dic.entriesOf (surfaceOf input'.codepoints start end_) := by
    intro start end_ entry
    rw [← List.count_pos_iff, count_words, ← List.count_pos_iff]
    split_ifs with hbounds
    · exact ⟨fun hcount => ⟨hbounds.1, hbounds.2, hcount⟩, fun hcount => hcount.2.2⟩
    · exact ⟨fun hzero => absurd hzero (Nat.lt_irrefl 0), fun hin => absurd ⟨hin.1, hin.2.1⟩ hbounds⟩
  refine ⟨_, hreturns, hmem, fun start end_ entry hseed => ?_⟩
  have hbounds := (hmem start end_ entry).mp hseed
  rw [count_words, if_pos ⟨hbounds.1, hbounds.2.1⟩]

/-- A dictionary whose key is "a". -/
def oneKey : DictionaryEntries where
  array := ((List.range 0x61).map fun id =>
    if id = 0 then 0x400 else if id = 2 then 0x80000005 else if id = 0x60 then 0x18961 else 0).toArray
  entryPtrs := fun value => if value = 5 then [6] else []
  fillBuffer := fun _ => none

example : oneKey.entriesOf [0x61] = [6] ∧ oneKey.entriesOf [0x61, 0x61] = [] := by decide +kernel

theorem spawnNodes_creates_a :
    ∃ seeds, Returns 16 (spawnNodes oneKey [InputCodepoint.ofBytes [0x61]] ⟨[], []⟩) ⟨[], seeds⟩ ∧
      (∀ start end_ entry, ⟨entry, start, end_⟩ ∈ seeds ↔ start < end_ ∧ end_ ≤ 1 ∧
        entry ∈ oneKey.entriesOf (surfaceOf [InputCodepoint.ofBytes [0x61]] start end_)) ∧
      ∀ start end_ entry, ⟨entry, start, end_⟩ ∈ seeds → seeds.count ⟨entry, start, end_⟩ =
        (oneKey.entriesOf (surfaceOf [InputCodepoint.ofBytes [0x61]] start end_)).count entry :=
  @spawnNodes_creates ⟨8, [], []⟩ ⟨8, [0x61], [InputCodepoint.ofBytes [0x61]]⟩ [0x61] (by rfl) oneKey
    ⟨[], []⟩

end DictionaryNodeCreator

end Jumanpp.Core.Analysis
