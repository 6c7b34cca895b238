import Jumanpp.Core.Analysis.OnomatopoeiaCreator
import Jumanpp.Core.Analysis.UnkWords

/-!
# The onomatopoeia of an input

Two things keep a repeated word from its seed: four characters at the very end of the input are not
looked at, and the trie that has lost a prefix goes on from the node that it reached, so that the
characters which remain can lead it to a key.
-/

namespace Jumanpp.Core.Analysis.OnomatopoeiaUnkMaker

open Jumanpp.Lib Jumanpp.Util Jumanpp.Core.Dic

variable (dic : DictionaryEntries) (codepoints : List InputCodepoint) (charClass : CharacterClass)

/-- The `2 * k` characters from `start` are the same `k` characters twice, of one class. -/
def Repeats (start k : Nat) : Prop :=
  start + k * 2 ≤ codepoints.length ∧
    (codepointAt codepoints start).hasClass charClass = true ∧
    (∀ p < k * 2, (codepointAt codepoints (start + p)).hasClass
      (codepointAt codepoints start).charClass = true) ∧
    ∀ p < k, (codepointAt codepoints (start + p)).codepoint =
      (codepointAt codepoints (start + k + p)).codepoint

instance (start k : Nat) : Decidable (Repeats codepoints charClass start k) :=
  inferInstanceAs (Decidable (_ ∧ _))

/-- The trie after `d` steps from a position, whatever they return. -/
def walk (start : Nat) : Nat → TraverseStatus × DoubleArrayTraversal
  | 0 => (.NoNode, doubleArrayTraversal)
  | d + 1 => (walk start d).2.step dic (codepointAt codepoints (start + d)).bytes

def wordsOf (start k : Nat) : List UnkWord :=
  if start + MinOnomatopoeiaLength < codepoints.length ∧ Repeats codepoints charClass start k ∧
      (walk dic codepoints start (k * 2)).1 ≠ .Ok then
    [⟨start, start + k * 2, decide ((walk dic codepoints start (k * 2)).1 = .NoNode)⟩]
  else []

def wordsFrom (start : Nat) : List UnkWord :=
  between 2 5 (wordsOf dic codepoints charClass start)

def words : List UnkWord :=
  between 0 codepoints.length (wordsFrom dic codepoints charClass)

variable {dic codepoints charClass} {conf : UnkNodeConfig} {n : Nat}

/-! ## The pattern -/

/-- The flags of a pattern are those lengths for which `P` holds. -/
def Flags (pattern : OnomatopoeicPattern) (P : Nat → Prop) : Prop :=
  ∀ k, 2 ≤ k → k ≤ 4 → (pattern &&& HalfLenToPattern k ≠ OnomatopoeicPattern.None ↔ P k)

theorem flags_none : Flags OnomatopoeicPattern.None fun _ => False := by
  intro k _ _
  simp only [iff_false, not_not]
  exact BitVec.zero_and

theorem halfLenToPattern_self : ∀ k ≤ 4, 2 ≤ k →
    HalfLenToPattern k &&& HalfLenToPattern k ≠ OnomatopoeicPattern.None := by
  decide

theorem Flags.congr {pattern : OnomatopoeicPattern} {P Q : Nat → Prop} (h : Flags pattern P)
    (hiff : ∀ k, 2 ≤ k → k ≤ 4 → (P k ↔ Q k)) : Flags pattern Q :=
  fun k htwo hfour => (h k htwo hfour).trans (hiff k htwo hfour)

theorem Flags.or {pattern : OnomatopoeicPattern} {P : Nat → Prop} (h : Flags pattern P)
    {halfLen : Nat} (htwo : 2 ≤ halfLen) (hfour : halfLen ≤ 4) :
    Flags (pattern ||| HalfLenToPattern halfLen) fun k => P k ∨ k = halfLen := by
  intro k hk hk4
  rw [BitVec.and_or_distrib_right]
  have hold := h k hk hk4
  by_cases hkl : k = halfLen
  · subst hkl
    refine iff_of_true (fun hzero => ?_) (.inr rfl)
    exact halfLenToPattern_self k hfour htwo (BitVec.or_eq_zero_iff.mp hzero).2
  · have hdisjoint : HalfLenToPattern halfLen &&& HalfLenToPattern k = OnomatopoeicPattern.None := by
      by_contra hne
      exact hkl (halfLenToPattern_disjoint halfLen hfour k hk4 hne).symm
    rw [hdisjoint]
    have hzero : pattern &&& HalfLenToPattern k ||| OnomatopoeicPattern.None =
        pattern &&& HalfLenToPattern k := BitVec.or_zero
    rw [hzero, hold]
    exact (or_iff_left hkl).symm

theorem isOnomatopoeia_eq {start halfLen : Nat} (hlen : halfLen ≤ 4) :
    Settles 16 (isOnomatopoeia codepoints start halfLen) fun same =>
      (same = true ↔ ∀ p, 1 ≤ p → p < halfLen → (codepointAt codepoints (start + p)).codepoint =
        (codepointAt codepoints (start + halfLen + p)).codepoint) := by
  unfold isOnomatopoeia
  refine Settles.bind (Q := fun r => (r.2 = true ↔ ∀ p, 1 ≤ p → p < halfLen →
      (codepointAt codepoints (start + p)).codepoint =
        (codepointAt codepoints (start + halfLen + p)).codepoint)) ?_ fun r hr => Settles.pure hr
  refine Settles.loopUp_exit
    (P := fun p same => 1 ≤ p ∧ same = true ∧ ∀ q, 1 ≤ q → q < p →
      (codepointAt codepoints (start + q)).codepoint =
        (codepointAt codepoints (start + halfLen + q)).codepoint)
    (Q := fun _ same => (same = true ↔ ∀ p, 1 ≤ p → p < halfLen →
      (codepointAt codepoints (start + p)).codepoint =
        (codepointAt codepoints (start + halfLen + p)).codepoint)) ?_ ?_ ?_
  · rintro p same hp ⟨hone, rfl, hq⟩
    split
    next hne => exact Settles.pure ⟨fun h => (nomatch h), fun hall => absurd (hall p hone hp) hne⟩
    next heq =>
      refine Settles.pure ⟨Nat.le_refl p, by omega, by omega, rfl, fun q hq1 hqp => ?_⟩
      obtain hlt | rfl : q < p ∨ q = p := by omega
      · exact hq q hq1 hlt
      · exact not_not.mp heq
  · rintro p same hp ⟨-, rfl, hq⟩
    exact iff_of_true rfl fun q hq1 hqp => hq q hq1 (by omega)
  · exact ⟨Nat.le_refl 1, rfl, fun q hq1 hqp => absurd hq1 (by omega)⟩

/-- Equal characters are of one class. -/
def ClassByCodepoint (codepoints : List InputCodepoint) : Prop :=
  ∀ cp ∈ codepoints, cp.charClass = getCodeType cp.codepoint

theorem codepointAt_mem {i : Nat} (h : i < codepoints.length) :
    codepointAt codepoints i ∈ codepoints := by
  unfold codepointAt
  rw [List.getD_eq_getElem?_getD, List.getElem?_eq_getElem h, Option.getD_some]
  exact List.getElem_mem h

/-- Of a repeated word the code compares the first half with the second one, and looks at the
classes of the first half. -/
theorem repeats_iff (hclass : ClassByCodepoint codepoints) {start k : Nat}
    (hfits : start + k * 2 ≤ codepoints.length)
    (hstart : (codepointAt codepoints start).hasClass charClass = true)
    (hfirst : ∀ p < k, (codepointAt codepoints (start + p)).hasClass
      (codepointAt codepoints start).charClass = true) :
    Repeats codepoints charClass start k ↔
      ∀ p < k, (codepointAt codepoints (start + p)).codepoint =
        (codepointAt codepoints (start + k + p)).codepoint := by
  refine ⟨fun h => h.2.2.2, fun h => ⟨hfits, hstart, fun p hp => ?_, h⟩⟩
  by_cases hlt : p < k
  · exact hfirst p hlt
  · have hsame := h (p - k) (by omega)
    have hclass1 := hclass _ (codepointAt_mem (by omega : start + (p - k) < codepoints.length))
    have hclass2 := hclass _ (codepointAt_mem (by omega : start + k + (p - k) < codepoints.length))
    have hshift : start + k + (p - k) = start + p := by omega
    rw [hshift] at hsame hclass2
    have hfirst' := hfirst (p - k) (by omega)
    unfold InputCodepoint.hasClass at hfirst' ⊢
    rwa [hclass2, ← hsame, ← hclass1]

theorem hasClass_self {cp : InputCodepoint} (h : cp.hasClass charClass = true) :
    cp.hasClass cp.charClass = true := by
  unfold InputCodepoint.hasClass IsCompatibleCharClass at h ⊢
  simp only [bne_iff_ne, ne_eq] at h ⊢
  intro hzero
  have hself : cp.charClass &&& cp.charClass = cp.charClass := by simp
  rw [hself] at hzero
  rw [hzero] at h
  exact h (by simp [CharacterClass.FAMILY_OTHERS])

/-- The invariant of the loop over the lengths: the characters that have been looked at are of one
class, and the flags are right for the lengths that are done. -/
theorem FindOnomatopoeia_flags (hclass : ClassByCodepoint codepoints) (start : Nat) :
    Settles 16 (FindOnomatopoeia codepoints charClass start) (Flags · fun k =>
      start + MinOnomatopoeiaLength < codepoints.length ∧ Repeats codepoints charClass start k) := by
  unfold FindOnomatopoeia
  split
  next hlong =>
    refine Settles.pure (flags_none.congr fun k _ _ => ?_)
    exact iff_of_false id fun h => by omega
  next hlong =>
    have hshort : start + MinOnomatopoeiaLength < codepoints.length := by omega
    simp only
    split
    next hno =>
      refine Settles.pure (flags_none.congr fun k _ _ => iff_of_false id fun h => ?_)
      simp [h.2.2.1] at hno
    next hstart =>
      simp only [Bool.not_eq_true, Bool.not_eq_false'] at hstart
      split
      next hno =>
        refine Settles.pure (flags_none.congr fun k hk _ => iff_of_false id fun h => ?_)
        simp [h.2.2.2.1 1 (by omega)] at hno
      next hone =>
        simp only [Bool.not_eq_true, Bool.not_eq_false'] at hone
        refine Settles.bind (Q := fun r => Flags r.2 fun k =>
          start + MinOnomatopoeiaLength < codepoints.length ∧
            Repeats codepoints charClass start k) ?_ fun r hr => Settles.pure hr
        refine Settles.loopUp_exit
          (P := fun halfLen pattern => 2 ≤ halfLen ∧
            (∀ p < halfLen, (codepointAt codepoints (start + p)).hasClass
              (codepointAt codepoints start).charClass = true) ∧
            Flags pattern fun k => k < halfLen ∧ Repeats codepoints charClass start k)
          (Q := fun _ pattern => Flags pattern fun k =>
            start + MinOnomatopoeiaLength < codepoints.length ∧
              Repeats codepoints charClass start k) ?_ ?_ ?_
        · rintro halfLen pattern hlen ⟨htwo, hfirst, hflags⟩
          have hfour : halfLen ≤ 4 := Nat.le_of_lt_succ hlen
          split
          next hend =>
            -- no longer word fits
            refine Settles.pure (hflags.congr fun k hk _ => ?_)
            refine ⟨fun h => ⟨hshort, h.2⟩, fun h => ⟨?_, h.2⟩⟩
            have := h.2.1
            omega
          next hend =>
            split
            next hno =>
              -- a longer word has this character
              refine Settles.pure (hflags.congr fun k hk _ => ?_)
              refine ⟨fun h => ⟨hshort, h.2⟩, fun h => ⟨?_, h.2⟩⟩
              by_contra hge
              simp [h.2.2.2.1 halfLen (by omega)] at hno
            next hhalf =>
              simp only [Bool.not_eq_true, Bool.not_eq_false'] at hhalf
              have hfirst' : ∀ p < halfLen + 1, (codepointAt codepoints (start + p)).hasClass
                  (codepointAt codepoints start).charClass = true := by
                intro p hp
                obtain hlt | rfl : p < halfLen ∨ p = halfLen := by omega
                · exact hfirst p hlt
                · exact hhalf
              have hrepeats := repeats_iff hclass
                (by omega : start + halfLen * 2 ≤ codepoints.length) hstart hfirst
              have hmissing : ¬Repeats codepoints charClass start halfLen →
                  Flags pattern fun k => k < halfLen + 1 ∧ Repeats codepoints charClass start k := by
                intro hno
                refine hflags.congr fun k _ _ => ⟨fun h => ⟨by omega, h.2⟩, fun h => ⟨?_, h.2⟩⟩
                by_contra hge
                obtain rfl : k = halfLen := by omega
                exact hno h.2
              split
              next hne =>
                refine Settles.pure ⟨Nat.le_refl _, by omega, by omega, hfirst', hmissing ?_⟩
                intro h
                exact hne (h.2.2.2 0 (by omega))
              next heq =>
                refine (isOnomatopoeia_eq hfour).bind fun same hsame =>
                  Settles.pure ⟨Nat.le_refl _, by omega, by omega, hfirst', ?_⟩
                have hsame' : same = true ↔ Repeats codepoints charClass start halfLen := by
                  rw [hsame, hrepeats]
                  refine ⟨fun h p hp => ?_, fun h p _ hp => h p hp⟩
                  obtain rfl | hpos : p = 0 ∨ 1 ≤ p := by omega
                  · exact not_not.mp heq
                  · exact h p hpos hp
                split
                next htrue =>
                  refine (hflags.or htwo hfour).congr fun k _ _ => ?_
                  constructor
                  · rintro (h | rfl)
                    · exact ⟨by omega, h.2⟩
                    · exact ⟨by omega, hsame'.mp htrue⟩
                  · intro h
                    obtain hlt | rfl : k < halfLen ∨ k = halfLen := by omega
                    · exact .inl ⟨hlt, h.2⟩
                    · exact .inr rfl
                next hfalse => exact hmissing fun h => hfalse (hsame'.mpr h)
        · rintro halfLen pattern hge ⟨-, -, hflags⟩
          refine hflags.congr fun k _ hk => ⟨fun h => ⟨hshort, h.2⟩, fun h => ⟨?_, h.2⟩⟩
          have hlen : MaxOnomatopoeiaLength / 2 + 1 = 5 := rfl
          omega
        · refine ⟨Nat.le_refl 2, fun p hp => ?_, flags_none.congr fun k hk _ =>
            iff_of_false id fun h => by omega⟩
          obtain rfl | rfl : p = 0 ∨ p = 1 := by omega
          · exact hasClass_self hstart
          · exact hone

/-! ## The walk -/

/-- As long as the characters lead through the trie the walk stands at their node. -/
theorem stands_walk {start d : Nat} (hd : start + d ≤ codepoints.length)
    (h : Viable dic (surfaceOf codepoints start (start + d))) :
    Stands dic (surfaceOf codepoints start (start + d)) (walk dic codepoints start d).2 := by
  induction d with
  | zero =>
      rw [Nat.add_zero, surfaceOf_self]
      exact stands_root
  | succ d ih =>
      have hsurface : surfaceOf codepoints start (start + (d + 1)) =
          surfaceOf codepoints start (start + d) ++ (codepointAt codepoints (start + d)).bytes :=
        surfaceOf_succ (Nat.le_add_right start d) hd
      rw [hsurface] at h ⊢
      exact ((ih (by omega) h.of_append).step h).1

/-- On a key the walk ends with its leaf. -/
theorem walk_of_isKey {start d : Nat} (hd : start + (d + 1) ≤ codepoints.length)
    (h : IsKey dic (surfaceOf codepoints start (start + (d + 1)))) :
    (walk dic codepoints start (d + 1)).1 = .Ok := by
  have hsurface : surfaceOf codepoints start (start + (d + 1)) =
      surfaceOf codepoints start (start + d) ++ (codepointAt codepoints (start + d)).bytes :=
    surfaceOf_succ (Nat.le_add_right start d) hd
  have hviable := h.1
  rw [hsurface] at h hviable
  have hstands := stands_walk (by omega) hviable.of_append
  obtain ⟨-, hno⟩ | ⟨-, -, hno⟩ | ⟨hok, -⟩ := hstands.step_cases
    (codepointAt codepoints (start + d)).bytes
  · exact absurd hviable hno
  · exact absurd h hno
  · exact hok

variable {s : Spawned}

/-- The loop that steps to the end of a word. -/
theorem steps_walk {start d e : Nat} (hde : d ≤ e) (hn : start + e < 2 ^ 16) :
    Settles 16 (loopUp (start + e) (fun nextstep (r : DoubleArrayTraversal × TraverseStatus) =>
        let (status, trav) := r.1.step dic (codepointAt codepoints nextstep).bytes
        pure (.next nextstep (trav, status))) (start + d)
        ((walk dic codepoints start d).2, (walk dic codepoints start d).1))
      fun r => r = (start + e, (walk dic codepoints start e).2, (walk dic codepoints start e).1) := by
  refine Settles.loopUp_exit
    (P := fun nextstep r => ∃ k, nextstep = start + k ∧ k ≤ e ∧
      r = ((walk dic codepoints start k).2, (walk dic codepoints start k).1))
    (Q := fun nextstep r =>
      (nextstep, r) = (start + e, (walk dic codepoints start e).2, (walk dic codepoints start e).1))
    ?_ ?_ ?_
  · rintro nextstep _ hlt ⟨k, rfl, hk, rfl⟩
    exact Settles.pure ⟨Nat.le_refl _, by omega, k + 1, rfl, by omega, rfl⟩
  · rintro nextstep _ hge ⟨k, rfl, hk, rfl⟩
    obtain rfl : k = e := by omega
    rfl
  · exact ⟨d, rfl, hde, rfl⟩

theorem spawnFrom_words (hn : codepoints.length < 2 ^ 16) {pattern : OnomatopoeicPattern}
    {start : Nat}
    (hflags : Flags pattern fun k =>
      start + MinOnomatopoeiaLength < codepoints.length ∧ Repeats codepoints charClass start k) :
    Settles 16 (spawnFrom dic codepoints conf pattern start s) fun s' =>
      s' = s.appendUnks codepoints conf (wordsFrom dic codepoints charClass start) := by
  unfold spawnFrom
  refine Settles.bind (Q := fun r => r.2.2.2.2 =
      s.appendUnks codepoints conf (wordsFrom dic codepoints charClass start)) ?_
    fun r hr => Settles.pure hr
  refine Settles.loopUp_exit
    (P := fun halfLen (r : Nat × DoubleArrayTraversal × TraverseStatus × Spawned) =>
      2 ≤ halfLen ∧ halfLen ≤ 5 ∧ ∃ d, d < halfLen * 2 ∧ r = (start + d,
        (walk dic codepoints start d).2, (walk dic codepoints start d).1,
        s.appendUnks codepoints conf (between 2 halfLen (wordsOf dic codepoints charClass start))))
    (Q := fun _ r => r.2.2.2 =
      s.appendUnks codepoints conf (wordsFrom dic codepoints charClass start)) ?_ ?_ ?_
  · rintro halfLen _ hlen ⟨htwo, -, d, hd, rfl⟩
    have hfour : halfLen ≤ 4 := Nat.le_of_lt_succ hlen
    have hbetween := between_succ (f := wordsOf dic codepoints charClass start) htwo
    have hbit := hflags halfLen htwo hfour
    simp only
    split
    next hset =>
      have hrepeats := hbit.mp hset
      have hend : start + halfLen * 2 ≤ codepoints.length := hrepeats.2.1
      refine (steps_walk (by omega) (by omega)).bind ?_
      rintro _ rfl
      have hword : ∀ notPrefix,
          (walk dic codepoints start (halfLen * 2)).1 ≠ .Ok →
          decide ((walk dic codepoints start (halfLen * 2)).1 = .NoNode) = notPrefix →
          (s.appendUnks codepoints conf
            (between 2 halfLen (wordsOf dic codepoints charClass start))).appendUnk codepoints conf
              notPrefix start (start + halfLen * 2) = s.appendUnks codepoints conf
            (between 2 (halfLen + 1) (wordsOf dic codepoints charClass start)) := by
        intro notPrefix hne hflag
        rw [hbetween, wordsOf, if_pos ⟨hrepeats.1, hrepeats.2, hne⟩, hflag,
          Spawned.appendUnks_concat]
      generalize hwalk : (walk dic codepoints start (halfLen * 2)).1 = status at hword
      cases status with
      | Ok =>
          refine Settles.pure ⟨Nat.le_refl _, by omega, by omega, by omega, halfLen * 2, by omega, ?_⟩
          rw [hwalk, hbetween, wordsOf, if_neg (by rw [hwalk]; simp), List.append_nil]
      | NoLeaf =>
          refine (Settles.narrow (by omega)).bind ?_
          rintro _ rfl
          refine Settles.pure ⟨Nat.le_refl _, by omega, by omega, by omega, halfLen * 2, by omega, ?_⟩
          rw [hwalk, hword false (by decide) (by decide)]
      | NoNode =>
          refine (Settles.narrow (by omega)).bind ?_
          rintro _ rfl
          refine Settles.pure ⟨Nat.le_refl _, by omega, by omega, by omega, halfLen * 2, by omega, ?_⟩
          rw [hwalk, hword true (by decide) (by decide)]
    next hunset =>
      refine Settles.pure ⟨Nat.le_refl _, by omega, by omega, by omega, d, by omega, ?_⟩
      have hnone : wordsOf dic codepoints charClass start halfLen = [] :=
        if_neg fun h => hunset (hbit.mpr ⟨h.1, h.2.1⟩)
      rw [hbetween, hnone, List.append_nil]
  · rintro halfLen _ hge ⟨-, hle, d, -, rfl⟩
    have hlen : MaxOnomatopoeiaLength / 2 + 1 = 5 := rfl
    obtain rfl : halfLen = 5 := by omega
    rfl
  · refine ⟨Nat.le_refl 2, by decide, 0, by decide, ?_⟩
    rw [between_self]
    rfl

theorem wordsFrom_of_none {start : Nat}
    (hflags : Flags OnomatopoeicPattern.None fun k =>
      start + MinOnomatopoeiaLength < codepoints.length ∧ Repeats codepoints charClass start k) :
    wordsFrom dic codepoints charClass start = [] := by
  unfold wordsFrom
  rw [between_of_nil (Nat.le_refl 2) (by decide) fun k htwo hlt => ?_, between_self]
  refine if_neg fun h => ?_
  exact (hflags k htwo (by omega)).mpr ⟨h.1, h.2.1⟩ BitVec.zero_and

theorem spawnNodes_words (hclass : ClassByCodepoint codepoints)
    (hn : codepoints.length < 2 ^ 16) :
    Settles 16 (spawnNodes dic codepoints charClass conf s) fun s' =>
      s' = s.appendUnks codepoints conf (words dic codepoints charClass) := by
  unfold spawnNodes
  refine Settles.bind (Q := fun r => r.2 =
      s.appendUnks codepoints conf (words dic codepoints charClass)) ?_ fun r hr => Settles.pure hr
  refine Settles.loopUp_exit
    (P := fun i (s' : Spawned) => i ≤ codepoints.length ∧ s' = s.appendUnks codepoints conf
      (between 0 i (wordsFrom dic codepoints charClass)))
    (Q := fun _ s' => s' = s.appendUnks codepoints conf (words dic codepoints charClass)) ?_ ?_ ?_
  · rintro i _ hi ⟨-, rfl⟩
    have hbetween := between_succ (f := wordsFrom dic codepoints charClass) (Nat.zero_le i)
    refine (FindOnomatopoeia_flags hclass i).bind fun pattern hflags => ?_
    split
    next hnone =>
      subst hnone
      refine Settles.pure ⟨Nat.le_refl _, by omega, by omega, ?_⟩
      rw [hbetween, wordsFrom_of_none hflags, List.append_nil]
    next =>
      refine (spawnFrom_words hn hflags).bind ?_
      rintro _ rfl
      refine Settles.pure ⟨Nat.le_refl _, by omega, by omega, ?_⟩
      rw [hbetween, Spawned.appendUnks_append]
  · rintro i _ hge ⟨hle, rfl⟩
    obtain rfl : i = codepoints.length := by omega
    rfl
  · refine ⟨Nat.zero_le _, ?_⟩
    rw [between_self]
    rfl

/-! ## The seeds -/

/-- There is one word for each repeated word that the dictionary does not have, and no other. -/
def Emits (codepoints : List InputCodepoint) (charClass : CharacterClass) (keys : Set (List UInt8))
    (words : List UnkWord) : Prop :=
  (words.map UnkWord.span).Nodup ∧ ∀ start end_, (start, end_) ∈ words.map UnkWord.span ↔
    ∃ k, 2 ≤ k ∧ k ≤ 4 ∧ end_ = start + k * 2 ∧ Repeats codepoints charClass start k ∧
      surfaceOf codepoints start end_ ∉ keys

theorem span_of_mem_wordsOf {start k : Nat} {word : UnkWord}
    (h : word ∈ wordsOf dic codepoints charClass start k) : word.span = (start, start + k * 2) := by
  unfold wordsOf at h
  split at h
  · rw [List.mem_singleton.mp h]
    rfl
  · cases h

theorem mem_spans_iff {start end_ : Nat} :
    (start, end_) ∈ (words dic codepoints charClass).map UnkWord.span ↔
      ∃ k, 2 ≤ k ∧ k ≤ 4 ∧ end_ = start + k * 2 ∧ Repeats codepoints charClass start k ∧
        start + MinOnomatopoeiaLength < codepoints.length ∧
        (walk dic codepoints start (k * 2)).1 ≠ .Ok := by
  unfold words wordsFrom
  rw [List.mem_map]
  constructor
  · rintro ⟨word, hword, hspan⟩
    obtain ⟨i, -, -, hword⟩ := mem_between_iff.mp hword
    obtain ⟨k, htwo, hlt, hword⟩ := mem_between_iff.mp hword
    rw [span_of_mem_wordsOf hword, Prod.mk.injEq] at hspan
    obtain ⟨rfl, rfl⟩ := hspan
    unfold wordsOf at hword
    split at hword
    next h => exact ⟨k, htwo, by omega, rfl, h.2.1, h.1, h.2.2⟩
    next => cases hword
  · rintro ⟨k, htwo, hfour, rfl, hrepeats, hlong, hne⟩
    have hword : ⟨start, start + k * 2, decide ((walk dic codepoints start (k * 2)).1 = .NoNode)⟩ ∈
        wordsOf dic codepoints charClass start k := by
      unfold wordsOf
      rw [if_pos ⟨hlong, hrepeats, hne⟩]
      exact List.mem_singleton_self _
    exact ⟨_, mem_between_iff.mpr ⟨start, Nat.zero_le _, by omega, mem_between_iff.mpr
      ⟨k, htwo, by omega, hword⟩⟩, rfl⟩

theorem nodup_spans : ((words dic codepoints charClass).map UnkWord.span).Nodup := by
  rw [List.nodup_iff_count_le_one]
  rintro ⟨start, end_⟩
  unfold words wordsFrom
  rw [map_between, count_between (k := start), map_between, count_between (k := (end_ - start) / 2)]
  · unfold wordsOf
    split_ifs <;> simp [List.count_singleton]
    split_ifs <;> omega
  · intro k hk hmem
    obtain ⟨word, hword, hspan⟩ := List.mem_map.mp hmem
    rw [span_of_mem_wordsOf hword, Prod.mk.injEq] at hspan
    omega
  · intro i hi hmem
    obtain ⟨word, hword, hspan⟩ := List.mem_map.mp hmem
    obtain ⟨k, -, -, hword⟩ := mem_between_iff.mp hword
    rw [span_of_mem_wordsOf hword, Prod.mk.injEq] at hspan
    exact hi hspan.1

theorem emits_words_iff {keys : Set (List UInt8)} (hkeys : HasKeys dic keys) :
    Emits codepoints charClass keys (words dic codepoints charClass) ↔
      ∀ start k, 2 ≤ k → k ≤ 4 → Repeats codepoints charClass start k →
        surfaceOf codepoints start (start + k * 2) ∉ keys →
        start + MinOnomatopoeiaLength < codepoints.length ∧
          (walk dic codepoints start (k * 2)).1 ≠ .Ok := by
  unfold Emits
  rw [and_iff_right nodup_spans]
  constructor
  · intro h start k htwo hfour hrepeats hnew
    obtain ⟨k', -, -, hk', -, hlong, hne⟩ := mem_spans_iff.mp
      ((h start (start + k * 2)).mpr ⟨k, htwo, hfour, rfl, hrepeats, hnew⟩)
    obtain rfl : k' = k := by omega
    exact ⟨hlong, hne⟩
  · intro h start end_
    rw [mem_spans_iff]
    constructor
    · rintro ⟨k, htwo, hfour, rfl, hrepeats, hlong, hne⟩
      refine ⟨k, htwo, hfour, rfl, hrepeats, fun hkey => hne ?_⟩
      obtain ⟨d, hd⟩ := Nat.exists_eq_succ_of_ne_zero (by omega : k * 2 ≠ 0)
      have hfits := hrepeats.1
      rw [hd] at hfits hkey ⊢
      exact walk_of_isKey hfits ((hkeys.isKey_iff _).mpr hkey)
    · rintro ⟨k, htwo, hfour, rfl, hrepeats, hnew⟩
      obtain ⟨hlong, hne⟩ := h start k htwo hfour hrepeats hnew
      exact ⟨k, htwo, hfour, rfl, hrepeats, hlong, hne⟩

/-- The maker returns, and the words that it adds are determined by the input. -/
theorem emits_iff (hclass : ClassByCodepoint codepoints) (hn : codepoints.length < 2 ^ 16)
    {keys : Set (List UInt8)} (hkeys : HasKeys dic keys) :
    (∃ words, Returns 16 (spawnNodes dic codepoints charClass conf s)
        (s.appendUnks codepoints conf words) ∧ Emits codepoints charClass keys words) ↔
      ∀ start k, 2 ≤ k → k ≤ 4 → Repeats codepoints charClass start k →
        surfaceOf codepoints start (start + k * 2) ∉ keys →
        start + MinOnomatopoeiaLength < codepoints.length ∧
          (walk dic codepoints start (k * 2)).1 ≠ .Ok := by
  have hsettles : Settles 16 (spawnNodes dic codepoints charClass conf s) fun s' =>
      s' = s.appendUnks codepoints conf (words dic codepoints charClass) :=
    spawnNodes_words hclass hn
  rw [← emits_words_iff hkeys]
  constructor
  · rintro ⟨words', hreturns, hemits⟩
    have hsame : s.appendUnks codepoints conf words' =
        s.appendUnks codepoints conf (words dic codepoints charClass) := hreturns.spec hsettles
    have hspans := congrArg (fun s' : Spawned => s'.seeds.map fun seed =>
      (seed.codepointStart, seed.codepointEnd)) hsame
    simp only [Spawned.spans_appendUnks, List.append_cancel_left_eq] at hspans
    unfold Emits at hemits ⊢
    rwa [← hspans]
  · intro hemits
    obtain ⟨_, rfl, hreturns⟩ := hsettles.returns
    exact ⟨_, hreturns, hemits⟩

/-- The seeds are right for just those inputs in which no repeated word that is new ends with the
input after four characters, or leads the trie to a leaf although it is not a key. -/
theorem spawnNodes_emits_patterns_iff {input input' : AnalysisInput} {data : List UInt8}
    (h : input.reset data = .ok input') {keys : Set (List UInt8)} (hkeys : HasKeys dic keys)
    (charClass : CharacterClass) (conf : UnkNodeConfig) (s : Spawned) :
    (∃ words, Returns 16 (spawnNodes dic input'.codepoints charClass conf s)
        (s.appendUnks input'.codepoints conf words) ∧
          Emits input'.codepoints charClass keys words) ↔
      ∀ start k, 2 ≤ k → k ≤ 4 → Repeats input'.codepoints charClass start k →
        surfaceOf input'.codepoints start (start + k * 2) ∉ keys →
        start + MinOnomatopoeiaLength < input'.codepoints.length ∧
          (walk dic input'.codepoints start (k * 2)).1 ≠ .Ok :=
  emits_iff (AnalysisInput.charClass_of_reset h) (AnalysisInput.length_of_reset h) hkeys

/-- "わくわく" -/
def wakuwaku : List UInt8 :=
  [0xE3, 0x82, 0x8F, 0xE3, 0x81, 0x8F, 0xE3, 0x82, 0x8F, 0xE3, 0x81, 0x8F]

def wakuwakuInput : AnalysisInput :=
  ⟨16, wakuwaku, [InputCodepoint.ofBytes [0xE3, 0x82, 0x8F], InputCodepoint.ofBytes [0xE3, 0x81, 0x8F],
    InputCodepoint.ofBytes [0xE3, 0x82, 0x8F], InputCodepoint.ofBytes [0xE3, 0x81, 0x8F]]⟩

theorem reset_wakuwaku : AnalysisInput.reset ⟨16, [], []⟩ wakuwaku = .ok wakuwakuInput := by
  rfl

theorem spawnNodes_emits_patterns_iff_wakuwaku :
    (∃ words, Returns 16 (spawnNodes noKeys wakuwakuInput.codepoints CharacterClass.HIRAGANA
        ⟨[], 0, [], [], none⟩ ⟨[], []⟩)
        (Spawned.appendUnks ⟨[], []⟩ wakuwakuInput.codepoints ⟨[], 0, [], [], none⟩ words) ∧
          Emits wakuwakuInput.codepoints CharacterClass.HIRAGANA ∅ words) ↔
      ∀ start k, 2 ≤ k → k ≤ 4 → Repeats wakuwakuInput.codepoints CharacterClass.HIRAGANA start k →
        surfaceOf wakuwakuInput.codepoints start (start + k * 2) ∉ (∅ : Set (List UInt8)) →
        start + MinOnomatopoeiaLength < wakuwakuInput.codepoints.length ∧
          (walk noKeys wakuwakuInput.codepoints start (k * 2)).1 ≠ .Ok :=
  spawnNodes_emits_patterns_iff reset_wakuwaku hasKeys_noKeys CharacterClass.HIRAGANA ⟨[], 0, [], [], none⟩
    ⟨[], []⟩

/-- A repeated word that is the whole input has no seed. -/
theorem wakuwaku_not_emitted :
    AnalysisInput.reset ⟨16, [], []⟩ wakuwaku = .ok wakuwakuInput ∧ HasKeys noKeys ∅ ∧
      ¬∃ words, Returns 16 (spawnNodes noKeys wakuwakuInput.codepoints CharacterClass.HIRAGANA
          ⟨[], 0, [], [], none⟩ ⟨[], []⟩)
          (Spawned.appendUnks ⟨[], []⟩ wakuwakuInput.codepoints ⟨[], 0, [], [], none⟩ words) ∧
            Emits wakuwakuInput.codepoints CharacterClass.HIRAGANA ∅ words := by
  refine ⟨reset_wakuwaku, hasKeys_noKeys, ?_⟩
  have hclass := AnalysisInput.charClass_of_reset reset_wakuwaku
  rw [emits_iff hclass (by decide) hasKeys_noKeys]
  intro h
  exact absurd (h 0 2 (by decide) (by decide) (by decide +kernel) (Set.notMem_empty _)).1 (by decide)

end Jumanpp.Core.Analysis.OnomatopoeiaUnkMaker
