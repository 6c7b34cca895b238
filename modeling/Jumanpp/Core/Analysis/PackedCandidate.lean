import Jumanpp.Core.Analysis.ScoreProcessor
import Jumanpp.Lib.Binary32

/-!
# Packed beam candidates

The 64 bits of a beam candidate: above, the bits of the score as an unsigned number in the order of
the scores, below, the left node and its beam.  `left << 16` is computed as an `int`.
-/

namespace Jumanpp.Core.Analysis

open Jumanpp.Lib

structure PackedCandidate where
  data_ : BitVec 64
deriving DecidableEq

namespace PackedCandidate

def pack (score : Binary32) (left beam : BitVec 16) : BitVec 64 :=
  let value := score
  let value := if value &&& 0x80000000#32 ≠ 0#32 then ~~~value else value ^^^ 0x80000000#32
  -- the `int` is extended by its sign
  (value.setWidth 64 <<< 32) ||| (left.setWidth 32 <<< 16).signExtend 64 ||| beam.setWidth 64

/-- `BeamCandidate(score, left, beam)`. -/
def ofTriple (score : Binary32) (left beam : BitVec 16) : PackedCandidate :=
  ⟨pack score left beam⟩

variable (c : PackedCandidate)

def score : Binary32 :=
  let value := (c.data_ >>> 32).setWidth 32
  if value &&& 0x80000000#32 = 0#32 then ~~~value else value ^^^ 0x80000000#32

def left : BitVec 16 := (c.data_ >>> 16).setWidth 16

def beam : BitVec 16 := c.data_.setWidth 16

def less (o : PackedCandidate) : Bool := decide (c.data_ < o.data_)

def greater (o : PackedCandidate) : Bool := decide (o.data_ < c.data_)

/-! ## The three fields -/

theorem and_sign_eq_zero_iff (x : BitVec 32) : x &&& 0x80000000#32 = 0#32 ↔ x.msb = false := by
  have hbit : ∀ i < 32, (0x80000000#32).getLsbD i = decide (i = 31) := by decide
  constructor
  · intro h
    have hlast : (x &&& 0x80000000#32).getLsbD 31 = false := by rw [h]; rfl
    rw [BitVec.getLsbD_and, hbit 31 (by decide)] at hlast
    rw [BitVec.msb_eq_getLsbD_last]
    simpa using hlast
  · intro h
    apply BitVec.eq_of_getLsbD_eq
    intro i hi
    rw [BitVec.getLsbD_and, hbit i hi, BitVec.getLsbD_zero]
    by_cases hlast : i = 31
    · rw [BitVec.msb_eq_getLsbD_last] at h
      simpa [hlast] using h
    · simp [hlast]

theorem value_eq_orderKey (score : Binary32) :
    (if score &&& 0x80000000#32 ≠ 0#32 then ~~~score else score ^^^ 0x80000000#32) =
      score.orderKey := by
  unfold Binary32.orderKey
  cases hmsb : BitVec.msb score with
  | false =>
      rw [if_neg (not_not.mpr ((and_sign_eq_zero_iff score).mpr hmsb))]
      rfl
  | true =>
      have hne : score &&& 0x80000000#32 ≠ 0#32 := by
        rw [ne_eq, and_sign_eq_zero_iff, hmsb]
        decide
      rw [if_pos hne]
      rfl

/-- A left node with the highest bit set covers the score. -/
theorem pack_eq_append (score : Binary32) (left beam : BitVec 16) :
    pack score left beam =
      (if left.msb then BitVec.allOnes 32 else score.orderKey) ++ left ++ beam := by
  unfold pack
  simp only [value_eq_orderKey]
  apply BitVec.eq_of_getLsbD_eq
  intro i hi
  have hsign : (left.setWidth 32 <<< 16).msb = left.msb := by
    rw [BitVec.msb_eq_getLsbD_last, BitVec.msb_eq_getLsbD_last]
    simp
  simp only [BitVec.getLsbD_or, BitVec.getLsbD_shiftLeft, BitVec.getLsbD_setWidth,
    BitVec.getLsbD_signExtend, BitVec.getLsbD_append, hsign, hi, decide_true, Bool.true_and]
  by_cases hbeam : i < 16
  · simp [hbeam, show i < 32 by omega]
  · have hnot : beam.getLsbD i = false := BitVec.getLsbD_of_ge _ _ (by omega)
    by_cases hleft : i < 32
    · simp [hbeam, hleft, hnot, show i - 16 < 16 by omega, show i - 16 < 32 by omega]
    · have hscore : i - 16 - 16 = i - 32 := by omega
      cases BitVec.msb left with
      | false =>
          simp [hbeam, hleft, hnot, hscore, show ¬ i - 16 < 16 by omega, show i - 32 < 64 by omega]
      | true =>
          simp only [if_true, BitVec.getLsbD_allOnes]
          simp [hbeam, hleft, hnot, show ¬ i - 16 < 16 by omega, show i - 16 - 16 < 32 by omega]

/-- The score as it is stored. -/
def storedKey (score : Binary32) (left : BitVec 16) : BitVec 32 :=
  if left.msb then BitVec.allOnes 32 else score.orderKey

theorem ofTriple_data (score : Binary32) (left beam : BitVec 16) :
    (ofTriple score left beam).data_ = storedKey score left ++ left ++ beam :=
  pack_eq_append score left beam

theorem getLsbD_data (score : Binary32) (left beam : BitVec 16) (i : Nat) :
    (ofTriple score left beam).data_.getLsbD i =
      if i < 16 then beam.getLsbD i
      else if i < 32 then left.getLsbD (i - 16) else (storedKey score left).getLsbD (i - 32) := by
  have happend : (storedKey score left ++ left ++ beam).getLsbD i =
      if i < 16 then beam.getLsbD i
      else if i < 32 then left.getLsbD (i - 16) else (storedKey score left).getLsbD (i - 32) := by
    rw [BitVec.getLsbD_append, BitVec.getLsbD_append, Nat.sub_sub]
    split_ifs with hbeam hleft hleft' hleft'
    · rfl
    · rfl
    · omega
    · omega
    · rfl
  rw [← happend, ofTriple_data]

theorem left_ofTriple (score : Binary32) (l b : BitVec 16) : (ofTriple score l b).left = l := by
  apply BitVec.eq_of_getLsbD_eq
  intro i hi
  rw [left, BitVec.getLsbD_setWidth, BitVec.getLsbD_ushiftRight, getLsbD_data]
  simp [hi, show 16 + i < 32 by omega]

theorem beam_ofTriple (score : Binary32) (l b : BitVec 16) : (ofTriple score l b).beam = b := by
  apply BitVec.eq_of_getLsbD_eq
  intro i hi
  rw [beam, BitVec.getLsbD_setWidth, getLsbD_data]
  simp [hi]

/-- The number whose key is stored. -/
def ofKey (value : BitVec 32) : Binary32 :=
  if value &&& 0x80000000#32 = 0#32 then ~~~value else value ^^^ 0x80000000#32

theorem score_ofTriple (s : Binary32) (l b : BitVec 16) :
    (ofTriple s l b).score = ofKey (storedKey s l) := by
  have hkey : ((ofTriple s l b).data_ >>> 32).setWidth 32 = storedKey s l := by
    apply BitVec.eq_of_getLsbD_eq
    intro i hi
    rw [BitVec.getLsbD_setWidth, BitVec.getLsbD_ushiftRight, getLsbD_data]
    simp [hi, show ¬ 32 + i < 16 by omega]
  unfold score ofKey
  rw [hkey]

theorem ofKey_orderKey (s : Binary32) : ofKey s.orderKey = s := by
  have hkey := s.msb_orderKey
  unfold ofKey
  cases hmsb : BitVec.msb s with
  | false =>
      rw [hmsb] at hkey
      have hne : s.orderKey &&& 0x80000000#32 ≠ 0#32 := by
        rw [ne_eq, and_sign_eq_zero_iff, hkey]
        decide
      rw [if_neg hne, Binary32.orderKey, hmsb, if_neg (by decide), BitVec.xor_assoc, BitVec.xor_self,
        BitVec.xor_zero]
  | true =>
      rw [hmsb] at hkey
      rw [if_pos ((and_sign_eq_zero_iff _).mpr hkey), Binary32.orderKey, hmsb, if_pos rfl,
        BitVec.not_not]

/-! ## What comes back, and the order -/

/-- The NaN that a covered score is read as. -/
def coveredScore : Binary32 := 0x7fffffff#32

theorem ofKey_allOnes : ofKey (BitVec.allOnes 32) = coveredScore := by
  decide

/-- The key of the score is stored. -/
def Kept (s : Binary32) (l : BitVec 16) : Prop := l.toNat < 2 ^ 15 ∨ s = coveredScore

instance (s : Binary32) (l : BitVec 16) : Decidable (Kept s l) :=
  inferInstanceAs (Decidable (_ ∨ _))

theorem msb_eq_false_iff (l : BitVec 16) : l.msb = false ↔ l.toNat < 2 ^ 15 := by
  rw [BitVec.msb_eq_decide, decide_eq_false_iff_not, Nat.not_le]

theorem storedKey_of_kept {s : Binary32} {l : BitVec 16} (h : Kept s l) :
    storedKey s l = s.orderKey := by
  unfold storedKey
  rcases h with hl | rfl
  · rw [(msb_eq_false_iff l).mpr hl]
    rfl
  · have hcovered : coveredScore.orderKey = BitVec.allOnes 32 := by decide
    rw [hcovered, ite_self]

/-- The three values that went in. -/
def Returns (s : Binary32) (l b : BitVec 16) : Prop :=
  (ofTriple s l b).score = s ∧ (ofTriple s l b).left = l ∧ (ofTriple s l b).beam = b

theorem returns_iff (s : Binary32) (l b : BitVec 16) : Returns s l b ↔ Kept s l := by
  unfold Returns
  simp only [left_ofTriple, beam_ofTriple, and_self, and_true, score_ofTriple]
  constructor
  · intro h
    by_cases hl : l.toNat < 2 ^ 15
    · exact Or.inl hl
    · have hmsb : l.msb = true := by
        rw [← Bool.not_eq_false, msb_eq_false_iff]
        exact hl
      rw [storedKey, hmsb, if_pos rfl, ofKey_allOnes] at h
      exact Or.inr h.symm
  · intro h
    rw [storedKey_of_kept h, ofKey_orderKey]

/-- Different scores decide; with the same score the left node decides, and then the beam. -/
structure ScoreFirst (s₁ : Binary32) (l₁ b₁ : BitVec 16) (s₂ : Binary32) (l₂ b₂ : BitVec 16) :
    Prop where
  less_of_less : s₁.less s₂ = true → (ofTriple s₁ l₁ b₁).less (ofTriple s₂ l₂ b₂) = true
  greater_of_less : s₂.less s₁ = true → (ofTriple s₁ l₁ b₁).greater (ofTriple s₂ l₂ b₂) = true
  less_iff_of_eq : s₁ = s₂ → ((ofTriple s₁ l₁ b₁).less (ofTriple s₂ l₂ b₂) = true ↔
    l₁ < l₂ ∨ l₁ = l₂ ∧ b₁ < b₂)

theorem toNat_data (s : Binary32) (l b : BitVec 16) :
    (ofTriple s l b).data_.toNat = (storedKey s l).toNat * 2 ^ 32 + l.toNat * 2 ^ 16 + b.toNat := by
  rw [ofTriple_data, BitVec.toNat_append, BitVec.toNat_append,
    ← Nat.shiftLeft_add_eq_or_of_lt l.isLt, ← Nat.shiftLeft_add_eq_or_of_lt b.isLt,
    Nat.shiftLeft_eq, Nat.shiftLeft_eq]
  omega

theorem less_ofTriple_iff (s₁ s₂ : Binary32) (l₁ b₁ l₂ b₂ : BitVec 16) :
    (ofTriple s₁ l₁ b₁).less (ofTriple s₂ l₂ b₂) = true ↔
      storedKey s₁ l₁ < storedKey s₂ l₂ ∨
        storedKey s₁ l₁ = storedKey s₂ l₂ ∧ (l₁ < l₂ ∨ l₁ = l₂ ∧ b₁ < b₂) := by
  have hl₁ := l₁.isLt
  have hl₂ := l₂.isLt
  have hb₁ := b₁.isLt
  have hb₂ := b₂.isLt
  rw [less, decide_eq_true_iff, BitVec.lt_def, toNat_data, toNat_data]
  simp only [BitVec.lt_def, ← BitVec.toNat_inj]
  omega

theorem scoreFirst_of_kept {s₁ s₂ : Binary32} {l₁ l₂ : BitVec 16} (h₁ : Kept s₁ l₁)
    (h₂ : Kept s₂ l₂) (b₁ b₂ : BitVec 16) : ScoreFirst s₁ l₁ b₁ s₂ l₂ b₂ where
  less_of_less h := by
    rw [less_ofTriple_iff, storedKey_of_kept h₁, storedKey_of_kept h₂]
    exact Or.inl (Binary32.orderKey_lt (Binary32.less_iff.mp h).2.2)
  greater_of_less h := by
    change (ofTriple s₂ l₂ b₂).less (ofTriple s₁ l₁ b₁) = true
    rw [less_ofTriple_iff, storedKey_of_kept h₁, storedKey_of_kept h₂]
    exact Or.inl (Binary32.orderKey_lt (Binary32.less_iff.mp h).2.2)
  less_iff_of_eq h := by
    rw [less_ofTriple_iff, storedKey_of_kept h₁, storedKey_of_kept h₂, h]
    simp [BitVec.lt_def]

/-- The order of the data is that of the triples. -/
theorem greater_eq_greater {s₁ s₂ : Binary32} {l₁ l₂ : BitVec 16} (h₁ : l₁.toNat < 2 ^ 15)
    (h₂ : l₂.toNat < 2 ^ 15) (b₁ b₂ : BitVec 16) (hzero : s₁.value = s₂.value → s₁ = s₂) :
    (ofTriple s₁ l₁ b₁).greater (ofTriple s₂ l₂ b₂) =
      BeamCandidate.greater ⟨s₁.toRat, l₁.toNat, b₁.toNat⟩ ⟨s₂.toRat, l₂.toNat, b₂.toNat⟩ := by
  rw [Bool.eq_iff_iff, BeamCandidate.greater_iff]
  change (ofTriple s₂ l₂ b₂).less (ofTriple s₁ l₁ b₁) = true ↔ _
  rw [less_ofTriple_iff, storedKey_of_kept (Or.inl h₁), storedKey_of_kept (Or.inl h₂)]
  simp only [BitVec.lt_def, ← BitVec.toNat_inj]
  rcases lt_trichotomy s₁.value s₂.value with hlt | heq | hgt
  · have hkey := Binary32.orderKey_lt hlt
    have hrat := Binary32.toRat_lt_iff.mpr hlt
    rw [BitVec.lt_def] at hkey
    apply iff_of_false
    · omega
    · rintro (hgt | ⟨heq, -⟩)
      · exact absurd hgt hrat.not_gt
      · exact hrat.ne heq
  · rw [hzero heq]
    simp [eq_comm]
  · have hkey := Binary32.orderKey_lt hgt
    rw [BitVec.lt_def] at hkey
    exact iff_of_true (Or.inl hkey) (Or.inl (Binary32.toRat_lt_iff.mpr hgt))

end PackedCandidate

end Jumanpp.Core.Analysis
