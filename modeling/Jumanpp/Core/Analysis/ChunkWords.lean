import Jumanpp.Core.Analysis.UnkWords

/-!
# The chunks of one character class

A chunk that no key of the dictionary has as a prefix is prolonged without the trie.  The counter then
stands behind the input and is counted up once more.  In an input of 65535 characters it wraps: the
walk goes on at the beginning of the input, from the node where the trie has lost the chunk.
-/

namespace Jumanpp.Core.Analysis.ChunkingUnkMaker

open Jumanpp.Lib Jumanpp.Util Jumanpp.Core.Dic

variable (dic : DictionaryEntries) (codepoints : List InputCodepoint) (charClass : CharacterClass)

/-- The characters between two positions are of the class. -/
def IsChunk (start end_ : Nat) : Prop :=
  ∀ k < end_, start ≤ k → (codepointAt codepoints k).hasClass charClass = true

instance (start end_ : Nat) : Decidable (IsChunk codepoints charClass start end_) :=
  inferInstanceAs (Decidable (∀ k < end_, _))

instance (key : List UInt8) : Decidable (Viable dic key) :=
  inferInstanceAs (Decidable (_ = []))

instance (key : List UInt8) : Decidable (IsKey dic key) :=
  inferInstanceAs (Decidable (_ ∧ _))

/-- The chunk that ends with a character. -/
def wordsOf (start last : Nat) : List UnkWord :=
  if IsChunk codepoints charClass start (last + 1) ∧
      ¬IsKey dic (surfaceOf codepoints start (last + 1)) then
    [⟨start, last + 1, decide (¬Viable dic (surfaceOf codepoints start (last + 1)))⟩]
  else []

def wordsFrom (start : Nat) : List UnkWord :=
  between start codepoints.length (wordsOf dic codepoints charClass start)

def words : List UnkWord :=
  between 0 codepoints.length (wordsFrom dic codepoints charClass)

/-- Where the trie loses a chunk of the class: the traversal after the step that found no node. -/
def deadFrom : List InputCodepoint → DoubleArrayTraversal → Option DoubleArrayTraversal
  | [], _ => none
  | cp :: rest, trav =>
      if !cp.hasClass charClass then none
      else if (trav.step dic cp.bytes).1 = .NoNode then some (trav.step dic cp.bytes).2
      else deadFrom rest (trav.step dic cp.bytes).2

/-- A walk over the characters of the class that comes to a leaf at each of them. -/
def quiet : List InputCodepoint → DoubleArrayTraversal → Bool
  | [], _ => true
  | cp :: rest, trav =>
      !cp.hasClass charClass ||
        ((trav.step dic cp.bytes).1 == .Ok && quiet rest (trav.step dic cp.bytes).2)

variable {dic codepoints charClass} {conf : UnkNodeConfig} {s : Spawned} {start : Nat}

theorem drop_eq_codepointAt {j : Nat} (h : j < codepoints.length) :
    codepoints.drop j = codepointAt codepoints j :: codepoints.drop (j + 1) := by
  rw [List.drop_eq_getElem_cons h]
  unfold codepointAt
  rw [List.getD_eq_getElem?_getD, List.getElem?_eq_getElem h, Option.getD_some]

theorem IsChunk.succ {j : Nat} (h : IsChunk codepoints charClass start j)
    (hclass : (codepointAt codepoints j).hasClass charClass = true) :
    IsChunk codepoints charClass start (j + 1) := by
  intro k hk hstart
  obtain hlt | rfl : k < j ∨ k = j := by omega
  · exact h k hlt hstart
  · exact hclass

/-- Behind a character of another class there is no chunk. -/
theorem wordsFrom_of_not_class {j : Nat} (hstart : start ≤ j) (hj : j ≤ codepoints.length)
    (h : j < codepoints.length → (codepointAt codepoints j).hasClass charClass = false) :
    wordsFrom dic codepoints charClass start =
      between start j (wordsOf dic codepoints charClass start) := by
  apply between_of_nil hstart hj
  intro i hi hilt
  refine if_neg fun hword => ?_
  have hclass := hword.1 j (by omega) hstart
  rw [h (by omega)] at hclass
  cases hclass

/-! ## The loop of the case `NoNode` -/

/-- What the loop adds from position `j` on, and where it leaves its counter. -/
def Prolonged (codepoints : List InputCodepoint) (charClass : CharacterClass)
    (conf : UnkNodeConfig) (start j : Nat) (s : Spawned) (r : Nat × Spawned) : Prop :=
  r.1 = codepoints.length ∧ ∃ m, j ≤ m ∧ m ≤ codepoints.length ∧
    IsChunk codepoints charClass j m ∧
    (m < codepoints.length → (codepointAt codepoints m).hasClass charClass = false) ∧
    r.2 = s.appendUnks codepoints conf (between j m fun k => [⟨start, k + 1, true⟩])

/-- What has been added when the counter stands at `k`. -/
def Prolongs (codepoints : List InputCodepoint) (charClass : CharacterClass)
    (conf : UnkNodeConfig) (start j : Nat) (s : Spawned) (k : Nat) (s' : Spawned) : Prop :=
  j ≤ k ∧ k ≤ codepoints.length ∧ IsChunk codepoints charClass j k ∧
    s' = s.appendUnks codepoints conf (between j k fun k => [⟨start, k + 1, true⟩])

theorem Prolongs.next {j k : Nat} {s' : Spawned}
    (h : Prolongs codepoints charClass conf start j s k s') (hk : k < codepoints.length)
    (hclass : (codepointAt codepoints k).hasClass charClass = true) :
    Prolongs codepoints charClass conf start j s (k + 1)
      (s'.appendUnk codepoints conf true start (k + 1)) := by
  obtain ⟨hle, -, hchunk, rfl⟩ := h
  refine ⟨by omega, hk, hchunk.succ hclass, ?_⟩
  rw [between_succ hle, Spawned.appendUnks_concat]

theorem Prolongs.done {j k : Nat} {s' : Spawned}
    (h : Prolongs codepoints charClass conf start j s k s')
    (hend : k < codepoints.length → (codepointAt codepoints k).hasClass charClass = false) :
    Prolonged codepoints charClass conf start j s (codepoints.length, s') :=
  ⟨rfl, k, h.1, h.2.1, h.2.2.1, hend, h.2.2.2⟩

theorem prolongs_self {j : Nat} (hj : j ≤ codepoints.length) :
    Prolongs codepoints charClass conf start j s j s := by
  refine ⟨Nat.le_refl j, hj, fun k hk hjk => absurd hk (by omega), ?_⟩
  rw [between_self]
  rfl

theorem spawnRest_settles (hn : codepoints.length < 2 ^ 16) {j : Nat} (hj : j ≤ codepoints.length) :
    Settles 16 (spawnRest codepoints charClass conf start j s)
      (Prolonged codepoints charClass conf start j s) := by
  unfold spawnRest
  refine Settles.loopUp_exit (P := Prolongs codepoints charClass conf start j s)
    (Q := fun k s' => Prolonged codepoints charClass conf start j s (k, s')) ?_ ?_ (prolongs_self hj)
  · intro k s' hk h
    split
    next hno =>
      refine (Settles.narrow (by omega)).bind ?_
      rintro _ rfl
      exact Settles.pure (h.done fun _ => by simpa using hno)
    next hclass =>
      refine (Settles.narrow (by omega)).bind ?_
      rintro _ rfl
      exact Settles.pure ⟨Nat.le_refl k, by omega, h.next hk (by simpa using hclass)⟩
  · intro k s' hk h
    obtain rfl : k = codepoints.length := Nat.le_antisymm h.2.1 hk
    exact h.done fun hlt => absurd hlt (Nat.lt_irrefl _)

theorem spawnRest_partially (hn : codepoints.length < 2 ^ 16) {j turns : Nat}
    (hj : j ≤ codepoints.length) :
    Partially (.wrapping 16 turns) (spawnRest codepoints charClass conf start j s)
      (Prolonged codepoints charClass conf start j s) := by
  unfold spawnRest
  refine Partially.loopUp (P := Prolongs codepoints charClass conf start j s)
    (Q := fun k s' => Prolonged codepoints charClass conf start j s (k, s')) ?_ ?_ (prolongs_self hj)
  · intro k s' hk h
    split
    next hno =>
      refine Partially.narrow.bind ?_
      rintro _ rfl
      rw [Nat.mod_eq_of_lt hn]
      exact Partially.pure (h.done fun _ => by simpa using hno)
    next hclass =>
      refine Partially.narrow.bind ?_
      rintro _ rfl
      rw [Nat.mod_eq_of_lt (show k + 1 < 2 ^ 16 by omega)]
      refine Partially.pure ?_
      show Prolongs _ _ _ _ _ _ ((k + 1) % 2 ^ 16) _
      rw [Nat.mod_eq_of_lt (show k + 1 < 2 ^ 16 by omega)]
      exact h.next hk (by simpa using hclass)
  · intro k s' hk h
    obtain rfl : k = codepoints.length := Nat.le_antisymm h.2.1 hk
    exact h.done fun hlt => absurd hlt (Nat.lt_irrefl _)

/-- After a chunk that no key begins with, these are the words that are left. -/
theorem Prolonged.completes {j : Nat} {r : Nat × Spawned}
    (h : Prolonged codepoints charClass conf start j
      (s.appendUnks codepoints conf (between start j (wordsOf dic codepoints charClass start))) r)
    (hstart : start ≤ j) (hchunk : IsChunk codepoints charClass start j)
    (hdead : ¬Viable dic (surfaceOf codepoints start (j + 1))) :
    r = (codepoints.length, s.appendUnks codepoints conf (wordsFrom dic codepoints charClass start)) := by
  obtain ⟨hfirst, m, hjm, hm, hchunk', hend, hsecond⟩ := h
  refine Prod.ext hfirst ?_
  have hrest : between j m (fun k => [⟨start, k + 1, true⟩]) =
      between j m (wordsOf dic codepoints charClass start) := by
    apply between_congr
    intro k hk hkm
    have hnot := not_viable_mono (by omega) (by omega : j + 1 ≤ k + 1) (by omega) hdead
    have hall : IsChunk codepoints charClass start (k + 1) := by
      intro i hi hstart'
      by_cases hij : i < j
      · exact hchunk i hij hstart'
      · exact hchunk' i (by omega) (by omega)
    unfold wordsOf
    rw [if_pos ⟨hall, fun hkey => hnot hkey.1⟩, decide_eq_true hnot]
  simp only
  rw [hsecond, hrest, ← Spawned.appendUnks_append, wordsFrom_of_not_class (by omega) hm hend]
  rw [between_append hstart hjm]

/-! ## The walk from one position -/

/-- The walk has not come to a character of another class, and the trie has not lost the chunk. -/
structure Walking (dic : DictionaryEntries) (codepoints : List InputCodepoint)
    (charClass : CharacterClass) (conf : UnkNodeConfig) (start : Nat) (s : Spawned) (j : Nat)
    (r : DoubleArrayTraversal × Spawned) : Prop where
  ge : start ≤ j
  le : j ≤ codepoints.length
  chunk : IsChunk codepoints charClass start j
  stands : Stands dic (surfaceOf codepoints start j) r.1
  added : r.2 = s.appendUnks codepoints conf
    (between start j (wordsOf dic codepoints charClass start))
  dead : deadFrom dic charClass (codepoints.drop start) doubleArrayTraversal =
    deadFrom dic charClass (codepoints.drop j) r.1

theorem walking_start (h : start ≤ codepoints.length) :
    Walking dic codepoints charClass conf start s start (doubleArrayTraversal, s) where
  ge := Nat.le_refl start
  le := h
  chunk := fun k hk hstart => absurd hk (by omega)
  stands := by
    rw [surfaceOf_self]
    exact stands_root
  added := by
    rw [between_self]
    rfl
  dead := rfl

namespace Walking

variable {j : Nat} {trav : DoubleArrayTraversal} {s' : Spawned}

/-- The walk ends at a character of another class. -/
theorem of_not_class (h : Walking dic codepoints charClass conf start s j (trav, s'))
    (hclass : j < codepoints.length → (codepointAt codepoints j).hasClass charClass = false) :
    s' = s.appendUnks codepoints conf (wordsFrom dic codepoints charClass start) ∧
      deadFrom dic charClass (codepoints.drop start) doubleArrayTraversal = none := by
  refine ⟨?_, h.dead.trans ?_⟩
  · rw [wordsFrom_of_not_class h.ge h.le hclass]
    exact h.added
  · by_cases hlt : j < codepoints.length
    · rw [drop_eq_codepointAt hlt, deadFrom, hclass hlt]
      rfl
    · rw [List.drop_eq_nil_of_le (by omega)]
      rfl

variable (h : Walking dic codepoints charClass conf start s j (trav, s'))
  (hlt : j < codepoints.length) (hclass : (codepointAt codepoints j).hasClass charClass = true)

include h hlt hclass

/-- One step of the walk, by the status that it returns. -/
theorem step_cases :
    let stepped := trav.step dic (codepointAt codepoints j).bytes
    stepped.1 = .NoNode ∧ ¬Viable dic (surfaceOf codepoints start (j + 1)) ∧
      deadFrom dic charClass (codepoints.drop start) doubleArrayTraversal = some stepped.2 ∨
    stepped.1 = .NoLeaf ∧ Walking dic codepoints charClass conf start s (j + 1)
      (stepped.2, s'.appendUnk codepoints conf false start (j + 1)) ∨
    stepped.1 = .Ok ∧ Walking dic codepoints charClass conf start s (j + 1) (stepped.2, s') := by
  intro stepped
  have hcases := h.stands.step_cases (codepointAt codepoints j).bytes
  have hdead := h.dead
  have hbetween := between_succ (f := wordsOf dic codepoints charClass start) h.ge
  rw [drop_eq_codepointAt hlt, deadFrom, hclass, Bool.not_true, if_neg Bool.false_ne_true] at hdead
  rw [← surfaceOf_succ h.ge hlt] at hcases
  have hchunk := h.chunk.succ hclass
  obtain ⟨hstatus, hviable⟩ | ⟨hstatus, hstands, hkey⟩ | ⟨hstatus, hstands, hkey⟩ := hcases
  · exact .inl ⟨hstatus, hviable, hdead.trans (if_pos hstatus)⟩
  · refine .inr (.inl ⟨hstatus, Nat.le_succ_of_le h.ge, hlt, hchunk, hstands, ?_,
      hdead.trans (if_neg (by rw [hstatus]; decide))⟩)
    simp only
    rw [hbetween, wordsOf, if_pos ⟨hchunk, hkey⟩, decide_eq_false (not_not.mpr hstands.viable),
      Spawned.appendUnks_concat]
    exact congrArg (fun s => Spawned.appendUnk s codepoints conf false start (j + 1)) h.added
  · refine .inr (.inr ⟨hstatus, Nat.le_succ_of_le h.ge, hlt, hchunk, hstands, ?_,
      hdead.trans (if_neg (by rw [hstatus]; decide))⟩)
    simp only
    rw [hbetween, wordsOf, if_neg fun h => h.2 hkey, List.append_nil]
    exact h.added

omit hlt hclass in
/-- Where the trie loses the chunk the loop of the case `NoNode` adds the words that are left. -/
theorem completes {r : Nat × Spawned} (hdead : ¬Viable dic (surfaceOf codepoints start (j + 1)))
    (hrest : Prolonged codepoints charClass conf start j s' r) :
    r = (codepoints.length,
      s.appendUnks codepoints conf (wordsFrom dic codepoints charClass start)) := by
  have hadded : s' = _ := h.added
  rw [hadded] at hrest
  exact hrest.completes h.ge h.chunk hdead

end Walking

/-! ## The counter does not wrap, or the walk from the beginning is quiet -/

/-- The walk goes on at `j` without adding a word. -/
def Quiet (dic : DictionaryEntries) (codepoints : List InputCodepoint)
    (charClass : CharacterClass) (j : Nat) (trav : DoubleArrayTraversal) : Prop :=
  j < codepoints.length → quiet dic charClass (codepoints.drop j) trav = true

/-- From `start` the words are right. -/
def ReturnsQuietly (dic : DictionaryEntries) (codepoints : List InputCodepoint)
    (charClass : CharacterClass) (start : Nat) : Prop :=
  codepoints.length + 1 < 2 ^ 16 ∨ ∀ trav,
    deadFrom dic charClass (codepoints.drop start) doubleArrayTraversal = some trav →
      quiet dic charClass codepoints trav = true

theorem spawnFrom_returns (hn : codepoints.length < 2 ^ 16) (hstart : start ≤ codepoints.length)
    (hquiet : ReturnsQuietly dic codepoints charClass start) :
    Returns 16 (spawnFrom dic codepoints charClass conf start s)
      (s.appendUnks codepoints conf (wordsFrom dic codepoints charClass start)) := by
  unfold spawnFrom
  refine Returns.bind (Q := fun r => r.2.2 =
      s.appendUnks codepoints conf (wordsFrom dic codepoints charClass start)) ?_ ?_
  · -- the measure falls by one with each turn, and by more when the trie loses the chunk
    refine Returns.loopUp
      (P := fun m j (r : DoubleArrayTraversal × Spawned) =>
        m + j = 2 * codepoints.length + 3 ∧ Walking dic codepoints charClass conf start s j r ∨
        m + j = codepoints.length + 1 ∧ Quiet dic codepoints charClass j r.1 ∧
          r.2 = s.appendUnks codepoints conf (wordsFrom dic codepoints charClass start))
      (Q := fun _ r =>
        r.2 = s.appendUnks codepoints conf (wordsFrom dic codepoints charClass start)) ?_ ?_
      (m := 2 * codepoints.length + 3 - start) (.inl ⟨by omega, walking_start hstart⟩)
    · rintro m j ⟨trav, s'⟩ hlt (⟨hm, hwalk⟩ | ⟨hm, hquiet', hs'⟩)
      · simp only
        split
        next hno => exact ⟨_, Returns.pure, (hwalk.of_not_class fun _ => by simpa using hno).1⟩
        next hclass =>
          have hstep := hwalk.step_cases hlt (by simpa using hclass)
          simp only at hstep
          obtain ⟨hstatus, hdead, hlost⟩ | ⟨hstatus, hwalk'⟩ | ⟨hstatus, hwalk'⟩ := hstep
          · rw [hstatus]
            have hsettles : Settles 16 (spawnRest codepoints charClass conf start j s')
                (Prolonged codepoints charClass conf start j s') := spawnRest_settles hn hlt.le
            obtain ⟨_, hprolonged, hrest⟩ := hsettles.returns
            obtain rfl := hwalk.completes hdead hprolonged
            refine ⟨_, Returns.bind ⟨_, rfl, hrest⟩ (by rintro _ rfl; exact Returns.pure), ?_⟩
            by_cases hfits : codepoints.length + 1 < 2 ^ 16
            · refine ⟨0, by omega, .inr ⟨?_, fun h => ?_, rfl⟩⟩
              · rw [Nat.mod_eq_of_lt hfits]
                omega
              · rw [Nat.mod_eq_of_lt hfits] at h
                omega
            · obtain hmax : codepoints.length + 1 = 2 ^ 16 := by omega
              refine ⟨codepoints.length + 1, by omega, .inr ⟨?_, fun _ => ?_, rfl⟩⟩
              · rw [hmax, Nat.mod_self, Nat.add_zero]
              · rw [hmax, Nat.mod_self]
                exact (hquiet.resolve_left hfits) _ hlost
          · rw [hstatus]
            have hreturns := Settles.narrow (by omega : j + 1 < 2 ^ 16)
            refine ⟨.next j (_, s'.appendUnk codepoints conf false start (j + 1)), Returns.bind
              hreturns.returns (by rintro _ rfl; exact Returns.pure), m - 1, by omega,
              .inl ⟨?_, ?_⟩⟩
            · rw [Nat.mod_eq_of_lt (by omega)]
              omega
            · rw [Nat.mod_eq_of_lt (by omega)]
              exact hwalk'
          · rw [hstatus]
            refine ⟨_, Returns.pure, m - 1, by omega, .inl ⟨?_, ?_⟩⟩
            · rw [Nat.mod_eq_of_lt (by omega)]
              omega
            · rw [Nat.mod_eq_of_lt (by omega)]
              exact hwalk'
      · have hq := hquiet' hlt
        rw [drop_eq_codepointAt hlt, quiet, Bool.or_eq_true, Bool.and_eq_true, beq_iff_eq] at hq
        simp only
        split
        next hno => exact ⟨_, Returns.pure, hs'⟩
        next hclass =>
          obtain ⟨hstatus, hrest⟩ := hq.resolve_left hclass
          rw [hstatus]
          refine ⟨_, Returns.pure, m - 1, by omega, .inr ⟨?_, fun _ => ?_, hs'⟩⟩
          · rw [Nat.mod_eq_of_lt (by omega)]
            omega
          · rw [Nat.mod_eq_of_lt (by omega)]
            exact hrest
    · rintro m j ⟨trav, s'⟩ hge (⟨hm, hwalk⟩ | ⟨hm, hquiet', hs'⟩)
      · exact (hwalk.of_not_class fun hlt => absurd hlt (by omega)).1
      · exact hs'
  · rintro r hr
    rw [← hr]
    exact Returns.pure

/-! ## The counter wraps, and the walk from the beginning adds a word -/

theorem quiet_eq_false_iff {j : Nat} (hlt : j < codepoints.length) {trav : DoubleArrayTraversal} :
    quiet dic charClass (codepoints.drop j) trav = false ↔
      (codepointAt codepoints j).hasClass charClass = true ∧
        ((trav.step dic (codepointAt codepoints j).bytes).1 ≠ .Ok ∨
          quiet dic charClass (codepoints.drop (j + 1))
            (trav.step dic (codepointAt codepoints j).bytes).2 = false) := by
  rw [drop_eq_codepointAt hlt, quiet]
  simp only [Bool.or_eq_false_iff, Bool.not_eq_false', Bool.and_eq_false_iff, beq_eq_false_iff_ne]

/-- The loop of the case `NoNode` adds the chunk that ends with the first character. -/
theorem Prolonged.exists_word {j : Nat} {r : Nat × Spawned}
    (h : Prolonged codepoints charClass conf start j s r) (hlt : j < codepoints.length)
    (hclass : (codepointAt codepoints j).hasClass charClass = true) :
    ∃ more, r.2 = s.appendUnks codepoints conf (⟨start, j + 1, true⟩ :: more) := by
  obtain ⟨-, m, hjm, -, -, hend, hadded⟩ := h
  have hne : j ≠ m := by
    rintro rfl
    rw [hend hlt] at hclass
    cases hclass
  rw [← between_append (Nat.le_succ j) (by omega : j + 1 ≤ m), between_succ (Nat.le_refl j),
    between_self] at hadded
  exact ⟨_, hadded⟩

theorem spawnFrom_adds (hn : codepoints.length < 2 ^ 16) (turns : Nat) :
    Partially (.wrapping 16 turns) (spawnFrom dic codepoints charClass conf start s) fun s' =>
      ∃ words, s' = s.appendUnks codepoints conf words := by
  unfold spawnFrom
  refine Partially.bind (Q := fun r => ∃ words, r.2.2 = s.appendUnks codepoints conf words) ?_
    fun r hr => Partially.pure hr
  refine Partially.loopUp
    (P := fun _ (r : DoubleArrayTraversal × Spawned) =>
      ∃ words, r.2 = s.appendUnks codepoints conf words)
    (Q := fun _ r => ∃ words, r.2 = s.appendUnks codepoints conf words) ?_ (fun _ _ _ h => h)
    ⟨[], rfl⟩
  rintro j ⟨trav, s'⟩ hlt ⟨words, hs'⟩
  simp only at hs'
  subst hs'
  simp only
  split
  · exact Partially.pure ⟨words, rfl⟩
  · split
    · refine (spawnRest_partially hn hlt.le).bind ?_
      rintro r ⟨-, m, -, -, -, -, hadded⟩
      exact Partially.pure ⟨_, hadded.trans (Spawned.appendUnks_append _ _).symm⟩
    · refine Partially.narrow.bind ?_
      rintro _ rfl
      exact Partially.pure ⟨_, (Spawned.appendUnks_concat words ⟨start, _, false⟩).symm⟩
    · exact Partially.pure ⟨words, rfl⟩

/-- One word more than there are chunks. -/
def Exceeds (dic : DictionaryEntries) (codepoints : List InputCodepoint)
    (charClass : CharacterClass) (conf : UnkNodeConfig) (start : Nat) (s s' : Spawned) : Prop :=
  ∃ word more, s' = s.appendUnks codepoints conf
    (wordsFrom dic codepoints charClass start ++ word :: more) ∧ word.start = start

theorem Exceeds.append {s' : Spawned} (h : Exceeds dic codepoints charClass conf start s s')
    (words : List UnkWord) :
    Exceeds dic codepoints charClass conf start s (s'.appendUnks codepoints conf words) := by
  obtain ⟨word, more, rfl, hword⟩ := h
  refine ⟨word, more ++ words, ?_, hword⟩
  rw [← Spawned.appendUnks_append, List.append_assoc, List.cons_append]

theorem spawnFrom_exceeds (hn : codepoints.length + 1 = 2 ^ 16) {trav : DoubleArrayTraversal}
    (hstart : start ≤ codepoints.length)
    (hdead : deadFrom dic charClass (codepoints.drop start) doubleArrayTraversal = some trav)
    (hloud : quiet dic charClass codepoints trav = false) (turns : Nat) :
    Partially (.wrapping 16 turns) (spawnFrom dic codepoints charClass conf start s)
      (Exceeds dic codepoints charClass conf start s) := by
  unfold spawnFrom
  refine Partially.bind (Q := fun r => Exceeds dic codepoints charClass conf start s r.2.2) ?_
    fun r hr => Partially.pure hr
  refine Partially.loopUp
    (P := fun j (r : DoubleArrayTraversal × Spawned) =>
      Walking dic codepoints charClass conf start s j r ∨
      quiet dic charClass (codepoints.drop j) r.1 = false ∧
        r.2 = s.appendUnks codepoints conf (wordsFrom dic codepoints charClass start) ∨
      Exceeds dic codepoints charClass conf start s r.2)
    (Q := fun _ r => Exceeds dic codepoints charClass conf start s r.2) ?_ ?_
    (.inl (walking_start hstart))
  · rintro j ⟨trav', s'⟩ hlt (hwalk | ⟨hquiet, hs'⟩ | hexceeds)
    · simp only
      split
      next hno =>
        -- the trie loses the chunk before it ends
        have hnone := (hwalk.of_not_class fun _ => by simpa using hno).2
        rw [hdead] at hnone
        cases hnone
      next hclass =>
        have hstep := hwalk.step_cases hlt (by simpa using hclass)
        simp only at hstep
        obtain ⟨hstatus, hviable, hlost⟩ | ⟨hstatus, hwalk'⟩ | ⟨hstatus, hwalk'⟩ := hstep
        · rw [hstatus]
          refine (spawnRest_partially (by omega) hlt.le).bind fun r hprolonged => ?_
          obtain rfl := hwalk.completes hviable hprolonged
          refine Partially.pure (.inr (.inl ⟨?_, rfl⟩))
          rw [hdead, Option.some.injEq] at hlost
          rw [hn, Nat.mod_self, ← hlost]
          exact hloud
        · rw [hstatus]
          refine Partially.narrow.bind ?_
          rintro _ rfl
          rw [Nat.mod_eq_of_lt (by omega)]
          refine Partially.pure (.inl ?_)
          rw [Nat.mod_eq_of_lt (by omega)]
          exact hwalk'
        · rw [hstatus]
          refine Partially.pure (.inl ?_)
          rw [Nat.mod_eq_of_lt (by omega)]
          exact hwalk'
    · obtain ⟨hclass, hstep⟩ := (quiet_eq_false_iff hlt).mp hquiet
      simp only at hs'
      subst hs'
      simp only
      rw [if_neg (by rw [hclass]; decide)]
      split
      next hstatus =>
        refine (spawnRest_partially (by omega) hlt.le).bind fun r hprolonged => ?_
        obtain ⟨more, hadded⟩ := hprolonged.exists_word hlt hclass
        exact Partially.pure (.inr (.inr
          ⟨_, more, hadded.trans (Spawned.appendUnks_append _ _).symm, rfl⟩))
      next hstatus =>
        refine Partially.narrow.bind fun end_ _ => Partially.pure (.inr (.inr ?_))
        exact ⟨⟨start, end_, false⟩, [], (Spawned.appendUnks_concat _ ⟨start, end_, false⟩).symm, rfl⟩
      next hstatus =>
        refine Partially.pure (.inr (.inl ⟨?_, rfl⟩))
        rw [Nat.mod_eq_of_lt (by omega)]
        exact hstep.resolve_left fun hne => hne hstatus
    · simp only at hexceeds ⊢
      split
      · exact Partially.pure hexceeds
      · split
        · refine (spawnRest_partially (by omega) hlt.le).bind ?_
          rintro r ⟨-, m, -, -, -, -, hadded⟩
          refine Partially.pure (.inr (.inr ?_))
          simp only
          rw [hadded]
          exact hexceeds.append _
        · refine Partially.narrow.bind fun end_ _ => Partially.pure (.inr (.inr ?_))
          exact hexceeds.append [⟨start, end_, false⟩]
        · exact Partially.pure (.inr (.inr hexceeds))
  · rintro j ⟨trav', s'⟩ hge (hwalk | ⟨hquiet, hs'⟩ | hexceeds)
    · have hnone := (hwalk.of_not_class fun hlt => absurd hlt (by omega)).2
      rw [hdead] at hnone
      cases hnone
    · rw [List.drop_eq_nil_of_le hge] at hquiet
      cases hquiet
    · exact hexceeds

/-! ## All positions -/

theorem spawnNodes_returns (hn : codepoints.length < 2 ^ 16)
    (hquiet : ∀ i < codepoints.length, ReturnsQuietly dic codepoints charClass i) :
    Returns 16 (spawnNodes dic codepoints charClass conf s)
      (s.appendUnks codepoints conf (words dic codepoints charClass)) := by
  unfold spawnNodes
  refine Returns.bind (Q := fun r => r.2 =
      s.appendUnks codepoints conf (words dic codepoints charClass)) ?_ ?_
  · refine Returns.loopUp
      (P := fun m i (s' : Spawned) => m + i = codepoints.length ∧ s' = s.appendUnks codepoints conf
        (between 0 i (wordsFrom dic codepoints charClass)))
      (Q := fun _ s' => s' = s.appendUnks codepoints conf (words dic codepoints charClass)) ?_ ?_
      (m := codepoints.length) ⟨rfl, by rw [between_self]; rfl⟩
    · rintro m i _ hi ⟨hm, rfl⟩
      have hbetween := between_succ (f := wordsFrom dic codepoints charClass) (Nat.zero_le i)
      split
      next hno =>
        have hnone : wordsFrom dic codepoints charClass i = [] := by
          rw [wordsFrom_of_not_class (Nat.le_refl i) hi.le fun _ => by simpa using hno, between_self]
        refine ⟨_, Returns.pure, m - 1, by omega, ?_, ?_⟩
        · rw [Nat.mod_eq_of_lt (by omega)]
          omega
        · rw [Nat.mod_eq_of_lt (by omega), hbetween, hnone, List.append_nil]
      next =>
        refine ⟨.next i _, Returns.bind ⟨_, rfl, spawnFrom_returns hn hi.le (hquiet i hi)⟩
          (by rintro _ rfl; exact Returns.pure), m - 1, by omega, ?_, ?_⟩
        · rw [Nat.mod_eq_of_lt (by omega)]
          omega
        · rw [Nat.mod_eq_of_lt (by omega), hbetween, Spawned.appendUnks_append]
    · rintro m i _ hge ⟨hm, rfl⟩
      obtain rfl : i = codepoints.length := by omega
      rfl
  · rintro r hr
    rw [← hr]
    exact Returns.pure

theorem spawnNodes_exceeds (hn : codepoints.length + 1 = 2 ^ 16) {trav : DoubleArrayTraversal}
    (hstart : start < codepoints.length)
    (hdead : deadFrom dic charClass (codepoints.drop start) doubleArrayTraversal = some trav)
    (hloud : quiet dic charClass codepoints trav = false) (turns : Nat) :
    Partially (.wrapping 16 turns) (spawnNodes dic codepoints charClass conf s) fun s' =>
      ∃ before word more, s' = s.appendUnks codepoints conf
        (before ++ (wordsFrom dic codepoints charClass start ++ word :: more)) ∧
          word.start = start := by
  have hclass : (codepointAt codepoints start).hasClass charClass = true := by
    by_contra hno
    rw [drop_eq_codepointAt hstart, deadFrom, if_pos (by simpa using hno)] at hdead
    cases hdead
  unfold spawnNodes
  refine Partially.bind (Q := fun r => ∃ before word more, r.2 = s.appendUnks codepoints conf
    (before ++ (wordsFrom dic codepoints charClass start ++ word :: more)) ∧ word.start = start) ?_
    fun r hr => Partially.pure hr
  refine Partially.loopUp
    (P := fun i (s' : Spawned) => i ≤ start ∧ (∃ words, s' = s.appendUnks codepoints conf words) ∨
      ∃ before word more, s' = s.appendUnks codepoints conf
        (before ++ (wordsFrom dic codepoints charClass start ++ word :: more)) ∧ word.start = start)
    (Q := fun _ s' => ∃ before word more, s' = s.appendUnks codepoints conf
        (before ++ (wordsFrom dic codepoints charClass start ++ word :: more)) ∧ word.start = start)
    ?_ ?_ (.inl ⟨Nat.zero_le _, [], rfl⟩)
  · rintro i s' hi (⟨hle, words, rfl⟩ | ⟨before, word, more, rfl, hword⟩)
    · by_cases heq : i = start
      · subst heq
        rw [if_neg (by rw [hclass]; decide)]
        refine (spawnFrom_exceeds hn hi.le hdead hloud turns).bind ?_
        rintro _ ⟨word, more, rfl, hword⟩
        exact Partially.pure (.inr
          ⟨words, word, more, (Spawned.appendUnks_append _ _).symm, hword⟩)
      · have hnext : (i + 1) % 2 ^ 16 ≤ start := by
          rw [Nat.mod_eq_of_lt (by omega)]
          omega
        split
        · exact Partially.pure (.inl ⟨hnext, words, rfl⟩)
        · refine (spawnFrom_adds (by omega) turns).bind ?_
          rintro _ ⟨words', rfl⟩
          exact Partially.pure (.inl ⟨hnext, _, (Spawned.appendUnks_append _ _).symm⟩)
    · split
      · exact Partially.pure (.inr ⟨before, word, more, rfl, hword⟩)
      · refine (spawnFrom_adds (by omega) turns).bind ?_
        rintro _ ⟨words', rfl⟩
        refine Partially.pure (.inr ⟨before, word, more ++ words', ?_, hword⟩)
        rw [← Spawned.appendUnks_append, List.append_assoc, List.append_assoc, List.cons_append]
  · rintro i s' hge (⟨hle, -⟩ | hexceeds)
    · omega
    · exact hexceeds

/-! ## The seeds -/

/-- There is one word for each chunk that the dictionary does not have, and no other; the flag says
that no word of the dictionary begins with it. -/
def Emits (codepoints : List InputCodepoint) (charClass : CharacterClass) (keys : Set (List UInt8))
    (words : List UnkWord) : Prop :=
  (words.map UnkWord.span).Nodup ∧
    (∀ start end_, (start, end_) ∈ words.map UnkWord.span ↔
      start < end_ ∧ end_ ≤ codepoints.length ∧ IsChunk codepoints charClass start end_ ∧
        surfaceOf codepoints start end_ ∉ keys) ∧
    ∀ word ∈ words, word.notPrefix = true ↔
      ∀ rest, surfaceOf codepoints word.start word.end_ ++ rest ∉ keys

theorem mem_wordsOf_iff {last : Nat} {word : UnkWord} :
    word ∈ wordsOf dic codepoints charClass start last ↔ word.span = (start, last + 1) ∧
      IsChunk codepoints charClass start (last + 1) ∧
      ¬IsKey dic (surfaceOf codepoints start (last + 1)) ∧
      word.notPrefix = decide (¬Viable dic (surfaceOf codepoints start (last + 1))) := by
  unfold wordsOf UnkWord.span
  obtain ⟨start', end', notPrefix⟩ := word
  split
  next h =>
    simp only [List.mem_singleton, UnkWord.mk.injEq, Prod.mk.injEq]
    exact ⟨fun hword => ⟨⟨hword.1, hword.2.1⟩, h.1, h.2, hword.2.2⟩,
      fun hword => ⟨hword.1.1, hword.1.2, hword.2.2.2⟩⟩
  next h =>
    refine iff_of_false (fun hnil => nomatch hnil) fun hword => h ⟨hword.2.1, hword.2.2.1⟩

theorem mem_wordsFrom_iff {i : Nat} {word : UnkWord} :
    word ∈ wordsFrom dic codepoints charClass i ↔ word.start = i ∧ i < word.end_ ∧
      word.end_ ≤ codepoints.length ∧ IsChunk codepoints charClass i word.end_ ∧
      ¬IsKey dic (surfaceOf codepoints i word.end_) ∧
      word.notPrefix = decide (¬Viable dic (surfaceOf codepoints i word.end_)) := by
  unfold wordsFrom
  rw [mem_between_iff]
  constructor
  · rintro ⟨last, hle, hlt, hword⟩
    obtain ⟨hspan, hchunk, hkey, hflag⟩ := mem_wordsOf_iff.mp hword
    obtain ⟨hstart, hend⟩ := Prod.mk.inj hspan
    rw [hend]
    exact ⟨hstart, by omega, by omega, hchunk, hkey, hflag⟩
  · rintro ⟨rfl, hlt, hle, hchunk, hkey, hflag⟩
    refine ⟨word.end_ - 1, by omega, by omega, mem_wordsOf_iff.mpr ?_⟩
    rw [Nat.sub_add_cancel (by omega)]
    exact ⟨rfl, hchunk, hkey, hflag⟩

theorem nodup_spans : ((words dic codepoints charClass).map UnkWord.span).Nodup := by
  rw [List.nodup_iff_count_le_one]
  rintro ⟨i, e⟩
  unfold words wordsFrom
  rw [map_between, count_between (k := i), map_between, count_between (k := e - 1)]
  · unfold wordsOf
    split_ifs <;> simp [List.count_singleton]
    split_ifs <;> omega
  · intro last hlast hmem
    obtain ⟨word, hword, hspan⟩ := List.mem_map.mp hmem
    rw [(mem_wordsOf_iff.mp hword).1, Prod.mk.injEq] at hspan
    omega
  · intro i' hi hmem
    obtain ⟨word, hword, hspan⟩ := List.mem_map.mp hmem
    have hstart := (mem_wordsFrom_iff.mp hword).1
    exact hi (hstart.symm.trans (Prod.mk.inj hspan).1)

theorem surfaceOf_ne_nil (hbytes : ∀ cp ∈ codepoints, cp.bytes ≠ []) {end_ : Nat}
    (hlt : start < end_) (hle : end_ ≤ codepoints.length) : surfaceOf codepoints start end_ ≠ [] := by
  obtain ⟨last, rfl⟩ := Nat.exists_eq_succ_of_ne_zero (by omega : end_ ≠ 0)
  rw [surfaceOf_succ (by omega) (by omega)]
  intro hnil
  have hcodepoint : codepointAt codepoints last = codepoints[last] := by
    unfold codepointAt
    rw [List.getD_eq_getElem?_getD, List.getElem?_eq_getElem (by omega)]
    rfl
  refine hbytes _ (List.getElem_mem (by omega : last < codepoints.length)) ?_
  rw [← hcodepoint]
  exact (List.append_eq_nil_iff.mp hnil).2

theorem mem_spans_wordsFrom_iff {keys : Set (List UInt8)} (hkeys : HasKeys dic keys) {e : Nat} :
    (start, e) ∈ (wordsFrom dic codepoints charClass start).map UnkWord.span ↔
      start < e ∧ e ≤ codepoints.length ∧ IsChunk codepoints charClass start e ∧
        surfaceOf codepoints start e ∉ keys := by
  rw [List.mem_map, ← hkeys.isKey_iff]
  constructor
  · rintro ⟨word, hword, hspan⟩
    obtain ⟨rfl, hlt, hle, hchunk, hkey, -⟩ := mem_wordsFrom_iff.mp hword
    obtain rfl : word.end_ = e := (Prod.mk.inj hspan).2
    exact ⟨hlt, hle, hchunk, hkey⟩
  · rintro ⟨hlt, hle, hchunk, hkey⟩
    exact ⟨⟨start, e, decide (¬Viable dic (surfaceOf codepoints start e))⟩,
      mem_wordsFrom_iff.mpr ⟨rfl, hlt, hle, hchunk, hkey, rfl⟩, rfl⟩

theorem emits_words {keys : Set (List UInt8)} (hkeys : HasKeys dic keys)
    (hbytes : ∀ cp ∈ codepoints, cp.bytes ≠ []) :
    Emits codepoints charClass keys (words dic codepoints charClass) := by
  refine ⟨nodup_spans, fun i e => ?_, fun word hword => ?_⟩
  · rw [← mem_spans_wordsFrom_iff hkeys]
    unfold words
    simp only [List.mem_map, mem_between_iff]
    constructor
    · rintro ⟨word, ⟨i', -, -, hword⟩, hspan⟩
      have hstart := (mem_wordsFrom_iff.mp hword).1
      obtain rfl : i' = i := hstart.symm.trans (Prod.mk.inj hspan).1
      exact ⟨word, hword, hspan⟩
    · rintro ⟨word, hword, hspan⟩
      have hbounds := mem_wordsFrom_iff.mp hword
      exact ⟨word, ⟨i, Nat.zero_le _, by omega, hword⟩, hspan⟩
  · obtain ⟨i, -, -, hword⟩ := mem_between_iff.mp hword
    obtain ⟨rfl, hlt, hle, -, -, hflag⟩ := mem_wordsFrom_iff.mp hword
    rw [hflag, decide_eq_true_iff, hkeys.viable_iff _ (surfaceOf_ne_nil hbytes hlt hle), not_exists]

/-- When the counter wraps and the walk from the beginning adds a word, then the seeds are wrong. -/
theorem not_emits_of_loud {keys : Set (List UInt8)} (hkeys : HasKeys dic keys)
    (hn : codepoints.length + 1 = 2 ^ 16) (hstart : start < codepoints.length)
    {trav : DoubleArrayTraversal}
    (hdead : deadFrom dic charClass (codepoints.drop start) doubleArrayTraversal = some trav)
    (hloud : quiet dic charClass codepoints trav = false) {words : List UnkWord}
    (hreturns : Returns 16 (spawnNodes dic codepoints charClass conf s)
      (s.appendUnks codepoints conf words)) : ¬Emits codepoints charClass keys words := by
  rintro ⟨hnodup, hmem, -⟩
  obtain ⟨bound, hrun⟩ := hreturns
  obtain ⟨before, word, more, hsame, rfl⟩ :=
    spawnNodes_exceeds hn hstart hdead hloud bound _ (hrun bound (Nat.le_refl bound))
  have hspans := congrArg (fun s' : Spawned => s'.seeds.map fun seed =>
    (seed.codepointStart, seed.codepointEnd)) hsame
  simp only [Spawned.spans_appendUnks, List.append_cancel_left_eq, List.map_append,
    List.map_cons] at hspans
  rw [hspans] at hnodup
  -- the additional word is one of the chunks
  have hword : word.span ∈ (wordsFrom dic codepoints charClass word.start).map UnkWord.span := by
    refine (mem_spans_wordsFrom_iff hkeys).mpr ((hmem word.start word.end_).mp ?_)
    rw [hspans]
    exact List.mem_append_right _ (List.mem_append_right _ List.mem_cons_self)
  have hdisjoint := (List.nodup_append.mp (List.nodup_append.mp hnodup).2.1).2.2
  exact hdisjoint _ hword _ List.mem_cons_self rfl

theorem emits_iff {keys : Set (List UInt8)} (hkeys : HasKeys dic keys)
    (hn : codepoints.length < 2 ^ 16) (hbytes : ∀ cp ∈ codepoints, cp.bytes ≠ []) :
    (∃ words, Returns 16 (spawnNodes dic codepoints charClass conf s)
        (s.appendUnks codepoints conf words) ∧ Emits codepoints charClass keys words) ↔
      codepoints.length + 1 < 2 ^ 16 ∨ ∀ start < codepoints.length, ∀ trav,
        deadFrom dic charClass (codepoints.drop start) doubleArrayTraversal = some trav →
          quiet dic charClass codepoints trav = true := by
  constructor
  · rintro ⟨words, hreturns, hemits⟩
    by_contra hwrong
    rw [not_or] at hwrong
    obtain ⟨hlong, hloud⟩ := hwrong
    push Not at hloud
    obtain ⟨start, hstart, trav, hdead, hloud⟩ := hloud
    exact not_emits_of_loud hkeys (by omega) hstart hdead (Bool.eq_false_iff.mpr hloud) hreturns
      hemits
  · intro hquiet
    refine ⟨_, spawnNodes_returns hn fun i hi => ?_, emits_words hkeys hbytes⟩
    exact hquiet.imp_right fun h => h i hi

theorem deadFrom_replicate (n : Nat) :
    deadFrom noKeys CharacterClass.ALPH (List.replicate (n + 1) (InputCodepoint.ofBytes [0x61]))
      doubleArrayTraversal = some ⟨0, 0, 0⟩ := by
  rw [List.replicate_succ, deadFrom, if_neg (by decide +kernel), if_pos (by decide +kernel)]
  decide +kernel

theorem quiet_replicate (n : Nat) :
    quiet noKeys CharacterClass.ALPH (List.replicate (n + 1) (InputCodepoint.ofBytes [0x61]))
      ⟨0, 0, 0⟩ = false := by
  have hclass : (!(InputCodepoint.ofBytes [0x61]).hasClass CharacterClass.ALPH) = false := by
    decide +kernel
  have hstatus : ((DoubleArrayTraversal.step noKeys ⟨0, 0, 0⟩ (InputCodepoint.ofBytes [0x61]).bytes).1
      == TraverseStatus.Ok) = false := by decide +kernel
  rw [List.replicate_succ, quiet, hclass, hstatus]
  rfl

end Jumanpp.Core.Analysis.ChunkingUnkMaker
