import Jumanpp.Rnn.MikolovReader
import Mathlib

/-!
# Direct scores

The maximum entropy part of a model has a weight for each hashed context and word.  A context of each
length up to the order gives one index, to which the number of the word is added.
-/

namespace Jumanpp.Rnn.Mikolov

open Jumanpp.Lib Jumanpp.Core.Analysis.Rnn

inductive MaxentFault
  | divisionByZero
  | outOfBounds
deriving DecidableEq

def PRIMES : List UInt64 :=
  [108641969, 116049371, 125925907, 133333309, 145678979, 175308587,
    197530793, 234567803, 251851741, 264197411, 330864029, 399999781,
    407407183, 459258997, 479012069, 545678687, 560493491, 607407037,
    629629243, 656789717, 716048933, 718518067, 725925469, 733332871,
    753085943, 755555077, 782715551, 790122953, 812345159, 814814293,
    893826581, 923456189, 940740127, 953085797, 985184539, 990122807]

def PRIMES_SIZE : UInt64 := 36

def readAt {α : Type} (l : List α) (i : Nat) : Except MaxentFault α :=
  match l[i]? with
  | none => throw .outOfBounds
  | some a => return a

/-- The conversion extends the sign. -/
def toU64 (i : Int32) : UInt64 := i.toInt64.toUInt64

def modulo (x hashMax : UInt64) : Except MaxentFault UInt64 :=
  if hashMax = 0 then throw .divisionByZero else return x % hashMax

/-! ## Indices of contexts -/

/-- One turn of the inner loop. -/
def addHistoryItem (context : List Int32) (i j : Nat) (x : UInt64) :
    Except MaxentFault UInt64 := do
  let prime ← readAt PRIMES j
  let primeIdx := (UInt64.ofNat i * prime + UInt64.ofNat j) % PRIMES_SIZE
  let historyItem ← readAt context (j - 1)
  let converted := toU64 historyItem + 1
  let factor ← readAt PRIMES primeIdx.toNat
  return x + factor * converted

def calcIndex (hashMax : UInt64) (context : List Int32) (i : Nat) :
    Except MaxentFault UInt64 := do
  let first ← readAt PRIMES 0
  let second ← readAt PRIMES 1
  let x ← (List.range' 1 i).foldlM (fun x j => addHistoryItem context i j x) (first * second)
  modulo x hashMax

/-- `result` are `size` slots of an array of `capacity`. -/
def calcIndices (hashMax : UInt64) (context : List Int32) (capacity size : Nat) :
    Except MaxentFault (List UInt64) :=
  (List.range size).mapM fun i => do
    let index ← calcIndex hashMax context i
    if i < capacity then return index else throw .outOfBounds

/-! ## Scores of words -/

section Scores

variable {F : Type} [AddCommMonoid F]

structure MikolovScoreCalculator (F : Type) where
  indices : List UInt64
  weights : List F
  hashMax : UInt64

namespace MikolovScoreCalculator

variable (msc : MikolovScoreCalculator F)

def weightAt (slot : Nat) (word : Int32) : Except MaxentFault F := do
  let index ← readAt msc.indices slot
  let idx ← modulo (index + toU64 word) msc.hashMax
  readAt msc.weights idx.toNat

def calcScores1 (word : Int32) : Except MaxentFault F :=
  msc.weightAt 0 word

def calcScores2 (word : Int32) : Except MaxentFault F := do
  return (← msc.weightAt 0 word) + (← msc.weightAt 1 word)

def calcScores3 (word : Int32) : Except MaxentFault F := do
  return (← msc.weightAt 0 word) + (← msc.weightAt 1 word) + (← msc.weightAt 2 word)

def calcScores4 (word : Int32) : Except MaxentFault F := do
  return (← msc.weightAt 0 word) + (← msc.weightAt 1 word) + (← msc.weightAt 2 word) +
    (← msc.weightAt 3 word)

/-- The slot is that of the number of the word, in every turn. -/
def calcScoresMany (i : Nat) (word : Int32) : Except MaxentFault F :=
  (List.range msc.indices.length).foldlM (fun res _ => do return res + (← msc.weightAt i word)) 0

/-- The loop over the words, from the one with number `i` on, and the results along. -/
def addEach (score : Nat → Int32 → Except MaxentFault F) :
    Nat → List Int32 → List F → Except MaxentFault (List F)
  | _, [], result => return result
  | _, _ :: _, [] => throw .outOfBounds
  | i, word :: words, r :: result => do
      let s ← score i word
      let result ← addEach score (i + 1) words result
      return (r + s) :: result

def addScores (words : List Int32) (result : List F) : Except MaxentFault (List F) :=
  match msc.indices.length with
  | 0 => return result.map fun _ => 0
  | 1 => addEach (fun _ => msc.calcScores1) 0 words result
  | 2 => addEach (fun _ => msc.calcScores2) 0 words result
  | 3 => addEach (fun _ => msc.calcScores3) 0 words result
  | 4 => addEach (fun _ => msc.calcScores4) 0 words result
  | _ => addEach msc.calcScoresMany 0 words result

end MikolovScoreCalculator

/-- `MikolovIndexCalculator`. -/
structure MikolovIndexCalculator where
  hashMax : UInt64

namespace MikolovIndexCalculator

def ofSizes (directMentsize vocabSize : UInt64) : MikolovIndexCalculator :=
  ⟨directMentsize - vocabSize⟩

def addScores (c : MikolovIndexCalculator) (context words : List Int32) (weights scores : List F) :
    Except MaxentFault (List F) := do
  -- the slots are in an array of four
  let slice ← calcIndices c.hashMax context 4 (context.length + 1)
  MikolovScoreCalculator.addScores ⟨slice, weights, c.hashMax⟩ words scores

end MikolovIndexCalculator

end Scores

/-! ## What is to be computed -/

/-- The index for the last `k` words of a context. -/
def contextIndex (hashMax : UInt64) (context : List Int32) (k : Nat) : UInt64 :=
  (List.range' 1 k).foldl (fun x j => x +
    PRIMES.getD ((UInt64.ofNat k * PRIMES.getD j 0 + UInt64.ofNat j) % PRIMES_SIZE).toNat 0 *
      (toU64 (context.getD (j - 1) 0) + 1)) (108641969 * 116049371) % hashMax

/-- The place of the weight for a word after the last `k` words. -/
def weightIndex (hashMax : UInt64) (context : List Int32) (k : Nat) (word : Int32) : Nat :=
  ((contextIndex hashMax context k + toU64 word) % hashMax).toNat

/-- The sum over the contexts of all lengths below the order. -/
def maxentScore {F : Type} [AddCommMonoid F] (hashMax : UInt64) (context : List Int32)
    (weights : List F) (order : Nat) (word : Int32) : F :=
  ((List.range order).map fun k => weights.getD (weightIndex hashMax context k word) 0).sum

theorem toNat_toU64 {word : Int32} (h : 0 ≤ word.toInt) :
    (toU64 word).toNat = word.toInt.toNat := by
  have hle : 0 ≤ word.toInt64 := by
    rw [Int64.le_iff_toInt_le, Int32.toInt_toInt64]
    exact h
  rw [toU64, Int64.toNat_toUInt64_of_le hle, ← Int32.toInt_toInt64]
  rfl

/-- The number of a word is added without an overflow. -/
theorem weightIndex_of_nonneg {hashMax : UInt64} (hmax : hashMax.toNat < 2 ^ 63)
    (hpos : 0 < hashMax.toNat) (context : List Int32) (k : Nat) {word : Int32}
    (hword : 0 ≤ word.toInt) :
    weightIndex hashMax context k word =
      ((contextIndex hashMax context k).toNat + word.toInt.toNat) % hashMax.toNat := by
  have hindex : (contextIndex hashMax context k).toNat < hashMax.toNat := by
    rw [contextIndex, UInt64.toNat_mod]
    exact Nat.mod_lt _ hpos
  have hlt := word.toInt_lt
  rw [weightIndex, UInt64.toNat_mod, UInt64.toNat_add, toNat_toU64 hword,
    Nat.mod_eq_of_lt (by omega : (contextIndex hashMax context k).toNat + word.toInt.toNat < 2 ^ 64)]

/-! ## Loops without a fault -/

section Loops

variable {ε α β : Type}

theorem foldlM_ok {f : β → α → Except ε β} {g : β → α → β} {l : List α}
    (h : ∀ a ∈ l, ∀ b, f b a = .ok (g b a)) (b : β) : l.foldlM f b = .ok (l.foldl g b) := by
  induction l generalizing b with
  | nil => rfl
  | cons a l ih =>
      rw [List.foldlM_cons, h a (by simp), ok_bind, ih (fun a ha => h a (List.mem_cons_of_mem _ ha)),
        List.foldl_cons]

theorem mapM_ok {f : α → Except ε β} {g : α → β} {l : List α} (h : ∀ a ∈ l, f a = .ok (g a)) :
    l.mapM f = .ok (l.map g) := by
  induction l with
  | nil => rfl
  | cons a l ih =>
      rw [List.mapM_cons, h a (by simp), ok_bind, ih (fun a ha => h a (List.mem_cons_of_mem _ ha)),
        ok_bind]
      rfl

theorem ok_of_mapM_ok {f : α → Except ε β} {l : List α} {r : List β} (h : l.mapM f = .ok r) :
    ∀ a ∈ l, ∃ b, f a = .ok b := by
  induction l generalizing r with
  | nil => simp
  | cons a l ih =>
      rw [List.mapM_cons] at h
      obtain ⟨b, hb, h⟩ := bind_ok h
      obtain ⟨rest, hrest, -⟩ := bind_ok h
      exact List.forall_mem_cons.mpr ⟨⟨b, hb⟩, ih hrest⟩

end Loops

theorem readAt_ok {α : Type} {l : List α} {i : Nat} (h : i < l.length) (d : α) :
    readAt l i = .ok (l.getD i d) := by
  rw [readAt, List.getElem?_eq_getElem h, List.getD_eq_getElem l d h]
  rfl

theorem addHistoryItem_ok {context : List Int32} {i j : Nat} (hj : 1 ≤ j) (hji : j ≤ i)
    (hi : i ≤ context.length) (hfew : i < 4) (x : UInt64) :
    addHistoryItem context i j x = .ok (x +
      PRIMES.getD ((UInt64.ofNat i * PRIMES.getD j 0 + UInt64.ofNat j) % PRIMES_SIZE).toNat 0 *
        (toU64 (context.getD (j - 1) 0) + 1)) := by
  have hprimes : PRIMES.length = 36 := rfl
  have hprime : ((UInt64.ofNat i * PRIMES.getD j 0 + UInt64.ofNat j) % PRIMES_SIZE).toNat < 36 := by
    rw [UInt64.toNat_mod]
    exact Nat.mod_lt _ (by decide)
  unfold addHistoryItem
  rw [readAt_ok (by omega) 0, ok_bind, readAt_ok (by omega) 0, ok_bind,
    readAt_ok (by omega) 0, ok_bind]
  rfl

theorem calcIndex_ok {hashMax : UInt64} {context : List Int32} {i : Nat} (hmax : hashMax ≠ 0)
    (hi : i ≤ context.length) (hfew : i < 4) :
    calcIndex hashMax context i = .ok (contextIndex hashMax context i) := by
  have hloop := @foldlM_ok MaxentFault Nat UInt64 (fun x j => addHistoryItem context i j x)
    (fun x j => x +
      PRIMES.getD ((UInt64.ofNat i * PRIMES.getD j 0 + UInt64.ofNat j) % PRIMES_SIZE).toNat 0 *
        (toU64 (context.getD (j - 1) 0) + 1)) (List.range' 1 i) (by
      intro j hj x
      rw [List.mem_range'_1] at hj
      exact addHistoryItem_ok hj.1 (by omega) hi hfew x)
  unfold calcIndex
  rw [readAt_ok (by decide) 0, ok_bind, readAt_ok (by decide) 0, ok_bind, hloop, ok_bind, modulo,
    if_neg hmax]
  rfl

theorem calcIndices_ok {hashMax : UInt64} {context : List Int32} (hmax : hashMax ≠ 0)
    (hfew : context.length < 4) :
    calcIndices hashMax context 4 (context.length + 1) =
      .ok ((List.range (context.length + 1)).map (contextIndex hashMax context)) := by
  apply mapM_ok
  intro i hi
  rw [List.mem_range] at hi
  rw [calcIndex_ok hmax (by omega) (by omega), ok_bind, if_pos (by omega)]
  rfl

/-- The fifth slot is behind the array. -/
theorem calcIndices_not_ok {hashMax : UInt64} {context : List Int32} (hmany : 4 ≤ context.length)
    (r : List UInt64) : calcIndices hashMax context 4 (context.length + 1) ≠ .ok r := by
  intro h
  obtain ⟨index, hindex⟩ := ok_of_mapM_ok h 4 (List.mem_range.mpr (by omega))
  obtain ⟨x, -, hx⟩ := bind_ok hindex
  rw [if_neg (by decide)] at hx
  cases hx

section Scores

variable {F : Type} [AddCommMonoid F]

namespace MikolovScoreCalculator

theorem addEach_ok {score : Nat → Int32 → Except MaxentFault F} {g : Int32 → F} {words : List Int32}
    (h : ∀ i, ∀ w ∈ words, score i w = .ok (g w)) {result : List F}
    (hlength : words.length = result.length) (i : Nat) :
    addEach score i words result = .ok (result.zipWith (fun r w => r + g w) words) := by
  induction words generalizing result i with
  | nil =>
      cases result with
      | nil => rfl
      | cons r result => cases hlength
  | cons word words ih =>
      cases result with
      | nil => cases hlength
      | cons r result =>
          rw [addEach, h i word (by simp), ok_bind,
            ih (fun i w hw => h i w (List.mem_cons_of_mem _ hw)) (Nat.succ.inj hlength), ok_bind]
          rfl

theorem length_addEach {score : Nat → Int32 → Except MaxentFault F} {words : List Int32} {i : Nat}
    {result r : List F} (h : addEach score i words result = .ok r) : r.length = result.length := by
  induction words generalizing result r i with
  | nil =>
      rw [addEach] at h
      cases h
      rfl
  | cons word words ih =>
      cases result with
      | nil => cases h
      | cons first result =>
          rw [addEach] at h
          obtain ⟨s, -, h⟩ := bind_ok h
          obtain ⟨rest, hrest, h⟩ := bind_ok h
          cases h
          rw [List.length_cons, ih hrest, List.length_cons]

theorem length_addScores {msc : MikolovScoreCalculator F} {words : List Int32} {result r : List F}
    (h : msc.addScores words result = .ok r) : r.length = result.length := by
  unfold addScores at h
  split at h
  · cases h
    exact List.length_map _
  all_goals exact length_addEach h

theorem weightAt_ok {hashMax : UInt64} {context : List Int32} {weights : List F} {order : Nat}
    (hmax : hashMax ≠ 0) (hweights : hashMax.toNat ≤ weights.length) {slot : Nat}
    (hslot : slot < order) (word : Int32) :
    weightAt ⟨(List.range order).map (contextIndex hashMax context), weights, hashMax⟩ slot word =
      .ok (weights.getD (weightIndex hashMax context slot word) 0) := by
  have hindex : ((List.range order).map (contextIndex hashMax context)).getD slot 0 =
      contextIndex hashMax context slot := by
    rw [List.getD_eq_getElem _ _ (by simpa using hslot)]
    simp
  have hlt : ((contextIndex hashMax context slot + toU64 word) % hashMax).toNat < weights.length := by
    rw [UInt64.toNat_mod]
    have hpos : 0 < hashMax.toNat := Nat.pos_of_ne_zero fun h => hmax (UInt64.toNat_inj.mp h)
    exact (Nat.mod_lt _ hpos).trans_le hweights
  unfold weightAt
  rw [readAt_ok (by simpa using hslot) 0, ok_bind, hindex, modulo, if_neg hmax]
  exact readAt_ok hlt 0

theorem addScores_ok {hashMax : UInt64} {context : List Int32} {weights : List F} {order : Nat}
    (hmax : hashMax ≠ 0) (hweights : hashMax.toNat ≤ weights.length) (hpos : 0 < order)
    (hfew : order ≤ 4) {words : List Int32} {result : List F}
    (hlength : words.length = result.length) :
    addScores ⟨(List.range order).map (contextIndex hashMax context), weights, hashMax⟩ words result =
      .ok (result.zipWith (fun r w => r + maxentScore hashMax context weights order w) words) := by
  have hweight := fun (slot : Nat) (hslot : slot < order) (word : Int32) =>
    @weightAt_ok F _ hashMax context weights order hmax hweights slot hslot word
  unfold addScores
  rw [List.length_map, List.length_range]
  have hcases : order = 1 ∨ order = 2 ∨ order = 3 ∨ order = 4 := by omega
  rcases hcases with rfl | rfl | rfl | rfl
  · apply addEach_ok _ hlength
    intro _ w _
    rw [calcScores1, hweight 0 (by decide)]
    simp [maxentScore]
  · apply addEach_ok _ hlength
    intro _ w _
    rw [calcScores2, hweight 0 (by decide), ok_bind, hweight 1 (by decide), ok_bind]
    simp [maxentScore, List.range_succ, pure, Except.pure]
  · apply addEach_ok _ hlength
    intro _ w _
    rw [calcScores3, hweight 0 (by decide), ok_bind, hweight 1 (by decide), ok_bind,
      hweight 2 (by decide), ok_bind]
    simp [maxentScore, List.range_succ, pure, Except.pure, add_assoc]
  · apply addEach_ok _ hlength
    intro _ w _
    rw [calcScores4, hweight 0 (by decide), ok_bind, hweight 1 (by decide), ok_bind,
      hweight 2 (by decide), ok_bind, hweight 3 (by decide), ok_bind]
    simp [maxentScore, List.range_succ, pure, Except.pure, add_assoc]

end MikolovScoreCalculator

end Scores

/-! ## Accepted models -/

/-- The ids that the scorer keeps for each context. -/
def contextWidth (header : MikolovRnnModelHeader) : Nat := (header.maxentOrder - 1).toNat

def indexCalculator (header : MikolovRnnModelHeader) : MikolovIndexCalculator :=
  .ofSizes header.maxentSize header.vocabSize

variable {F : Type} [AddCommMonoid F]

/-- The hash range is the positive difference of the sizes, every weight that is read is one of the
model, and each word gets the sum over the contexts of all lengths. -/
structure MaxentRight (data : MikolovModelReaderData) (value : UInt32 → F)
    (context words : List Int32) (scores : List F) : Prop where
  range_eq : (indexCalculator data.header).hashMax.toNat + data.header.vocabSize.toNat =
    data.header.maxentSize.toNat
  range_pos : 0 < (indexCalculator data.header).hashMax.toNat
  inside : ∀ k < data.header.maxentOrder.toNat, ∀ word ∈ words,
    weightIndex (indexCalculator data.header).hashMax context k word <
      data.header.maxentSize.toNat
  computes : (indexCalculator data.header).addScores context words
      (data.maxentWeightData.map value) scores =
    .ok (scores.zipWith (fun score word => score +
      maxentScore (indexCalculator data.header).hashMax context
        (data.maxentWeightData.map value) data.header.maxentOrder.toNat word) words)

theorem hashMax_eq_iff (header : MikolovRnnModelHeader) :
    ((indexCalculator header).hashMax.toNat + header.vocabSize.toNat = header.maxentSize.toNat ∧
      0 < (indexCalculator header).hashMax.toNat) ↔ header.vocabSize < header.maxentSize := by
  have hvocab := header.vocabSize.toNat_lt
  have hmaxent := header.maxentSize.toNat_lt
  rw [indexCalculator, MikolovIndexCalculator.ofSizes, UInt64.toNat_sub, UInt64.lt_iff_toNat_lt]
  omega

theorem contextWidth_eq_iff (header : MikolovRnnModelHeader) :
    contextWidth header < 4 ↔
      1 ≤ header.maxentOrder.toNat ∧ header.maxentOrder.toNat ≤ 4 := by
  have horder := header.maxentOrder.toNat_lt
  have hone : (1 : UInt32).toNat = 1 := rfl
  rw [contextWidth, UInt32.toNat_sub, hone]
  omega

/-- Direct scores are right exactly for models of an order from one to four that have more direct
weights than words. -/
theorem maxentRight_iff {contents : List UInt8} {vocabulary : List (List UInt8)}
    {data : MikolovModelReaderData} (h : parse contents vocabulary = .ok data) (value : UInt32 → F)
    {context words : List Int32} (hcontext : context.length = contextWidth data.header)
    {scores : List F} (hscores : words.length = scores.length) :
    MaxentRight data value context words scores ↔
      (1 ≤ data.header.maxentOrder.toNat ∧ data.header.maxentOrder.toNat ≤ 4) ∧
        data.header.vocabSize < data.header.maxentSize := by
  rw [← hashMax_eq_iff, ← contextWidth_eq_iff, ← hcontext]
  constructor
  · intro hright
    refine ⟨?_, hright.range_eq, hright.range_pos⟩
    by_contra hmany
    obtain ⟨slice, hslice, -⟩ := bind_ok hright.computes
    exact calcIndices_not_ok (by omega) slice hslice
  · rintro ⟨hfew, hrange, hpos⟩
    have hmax : (indexCalculator data.header).hashMax ≠ 0 := by
      intro hzero
      rw [hzero] at hpos
      cases hpos
    have hsize := (parse_sizes h).1
    have horder : context.length + 1 = data.header.maxentOrder.toNat := by
      have hlt := data.header.maxentOrder.toNat_lt
      have hone : (1 : UInt32).toNat = 1 := rfl
      rw [hcontext, contextWidth, UInt32.toNat_sub, hone] at hfew ⊢
      omega
    refine ⟨hrange, hpos, ?_, ?_⟩
    · intro k _ word _
      rw [weightIndex, UInt64.toNat_mod]
      have hlt := Nat.mod_lt (contextIndex (indexCalculator data.header).hashMax context k +
        toU64 word).toNat hpos
      omega
    · unfold MikolovIndexCalculator.addScores
      rw [calcIndices_ok hmax hfew, ok_bind, horder]
      exact MikolovScoreCalculator.addScores_ok hmax (by rw [List.length_map, hsize]; omega)
        (by omega) (by omega) hscores

/-- A model of order one with layers of one neuron and as many direct weights as given. -/
def modelFile (maxentSize : UInt8) : List UInt8 :=
  [0x61, 0xea, 0, 0, 0, 0, 0, 0] ++ [maxentSize, 0, 0, 0, 0, 0, 0, 0] ++ [1, 0, 0, 0] ++ [1] ++
    [0, 0, 0, 0] ++ [0] ++ (sigmoid ++ List.replicate 57 0) ++ [1, 0, 0, 0] ++ [0, 0, 0, 0] ++
    List.replicate (4 * (3 + maxentSize.toNat)) 0

def modelData (maxentSize : UInt8) : MikolovModelReaderData :=
  ⟨⟨1, 1, maxentSize.toUInt64, 1, 0⟩, [0], [0], [0], List.replicate maxentSize.toNat 0⟩

theorem parse_modelFile_two : parse (modelFile 2) [[0x61]] = .ok (modelData 2) := by
  rfl

theorem parse_modelFile_one : parse (modelFile 1) [[0x61]] = .ok (modelData 1) := by
  rfl

theorem maxentRight_iff_two :
    MaxentRight (modelData 2) (fun _ => (0 : Int)) [] [0] [0] ↔
      (1 ≤ (modelData 2).header.maxentOrder.toNat ∧ (modelData 2).header.maxentOrder.toNat ≤ 4) ∧
        (modelData 2).header.vocabSize < (modelData 2).header.maxentSize :=
  maxentRight_iff parse_modelFile_two _ rfl rfl

/-- With as many direct weights as words the remainder by zero is taken. -/
theorem equalSizes_not_maxentRight :
    parse (modelFile 1) [[0x61]] = .ok (modelData 1) ∧
      ¬ MaxentRight (modelData 1) (fun _ => (0 : Int)) [] [0] [0] ∧
      (indexCalculator (modelData 1).header).addScores [] [0] [(0 : Int)] [0] =
        .error .divisionByZero := by
  refine ⟨parse_modelFile_one, fun h => ?_, by decide +kernel⟩
  have hpos := h.range_pos
  revert hpos
  decide

end Jumanpp.Rnn.Mikolov
