import Mathlib
import Jumanpp.Core.Impl.NgramSteps

/-!
# What the scoring loops read from the value buffers

The loops of a score processor share two value buffers, of which only the first one is zero-filled, and
use the slots of either as indices into the weights.  A slot that nobody has written is `none`.
-/

namespace Jumanpp.Core.Features

open Jumanpp.Lib Jumanpp.Core.Analysis

abbrev Slot := Option UInt32

/-- The value buffers, as in `ValueBuffers`, and the slots whose weights have been read. -/
structure SlotTrace where
  values : Bool → List Slot
  reads : List Slot

namespace SlotTrace

/-- Reads the weights of the first `n` slots of a buffer. -/
def read (t : SlotTrace) (b : Bool) (n : Nat) : SlotTrace :=
  { t with reads := t.reads ++ (t.values b).take n }

def write (t : SlotTrace) (b : Bool) (row : List UInt32) : SlotTrace :=
  { t with values := Function.update t.values b (row.map some ++ (t.values b).drop row.length) }

/-- A row of a loop that begins with `buf1.swap(buf2)`; `swapped` is the buffer that `buf1` names. -/
def swapRow (n : Nat) : SlotTrace × Bool → List UInt32 → SlotTrace × Bool
  | (t, swapped), row => ((t.read swapped n).write (!swapped) row, !swapped)

/-- `generateLoop`: the last row is summed up behind the loop. -/
def generateLoop (n : Nat) (rows : List (List UInt32)) (t : SlotTrace) : SlotTrace :=
  let (t, swapped) := rows.foldl (swapRow n) (t, false)
  t.read swapped n

/-- A row of a loop that swaps the buffers at its end. -/
def scoreRow (n : Nat) : SlotTrace × Bool → List UInt32 → SlotTrace × Bool
  | (t, swapped), row => ((t.write swapped row).read (!swapped) n, !swapped)

/-- The loops of the steps, printed or not: the first row goes to the second buffer. -/
def scoreRows (n : Nat) (rows : List (List UInt32)) (t : SlotTrace) : SlotTrace :=
  match rows with
  | [] => t
  | row :: rows =>
      let (t, swapped) := rows.foldl (scoreRow n) (t.write true row, false)
      t.read (!swapped) n

/-- The trigram rows go on with the buffers as the bigram rows left them.  The first one also sums up the
last bigram row, which `buf1` still names. -/
def applyBiTriFullKernel (numBi numTri : Nat) (biRows triRows : List (List UInt32)) (t : SlotTrace) :
    SlotTrace :=
  let (t, swapped) := biRows.foldl (swapRow numBi) (t, false)
  let (t, triSwapped) :=
    match triRows with
    | [] => (t, swapped)
    | row :: triRows =>
        let (t, triSwapped) := swapRow numTri (t, swapped) row
        triRows.foldl (swapRow numTri) (t.read swapped numBi, triSwapped)
  t.read triSwapped numTri

/-- The buffers of a new score processor. -/
def allocate (size : Nat) : SlotTrace where
  values := fun b => if b then List.replicate size none else List.replicate size (some 0)
  reads := []

end SlotTrace

/-- A loop over the rows of pattern matrices. -/
inductive ScoringLoop
  | patternsAndUnigramsApply (p0 : List PatternRow)
  | applyUni (p0 : List PatternRow)
  | applyBiStep2 (p0 : List PatternRow) (p1 : PatternRow)
  | applyTriStep3 (p0 : List PatternRow) (p1 p2 : PatternRow)
  | applyBiTri (t0 : PatternRow) (t1 t2 : List PatternRow) (t1idxes : List Nat)

namespace PartialNgramFeatures

variable (child : PartialNgramFeatures) (mask : UInt32)

def uniRow (t0 : PatternRow) : List UInt32 :=
  child.unigrams.map fun f => f.value t0 mask

def biRow (t0 t1 : PatternRow) : List UInt32 :=
  child.bigrams.map fun f => f.jointRaw t0 t1 mask

def triRow (t0 t1 t2 : PatternRow) : List UInt32 :=
  child.trigrams.map fun f => f.jointRaw t0 t1 t2 mask

/-- The rows of the trigram phase: every T2 node comes with the place of its T1 node. -/
def triRows (t0 : PatternRow) (t1 t2 : List PatternRow) (t1idxes : List Nat) : List (List UInt32) :=
  t2.zipIdx.map fun (t2row, row) => child.triRow mask t0 (t1.getD (t1idxes.getD row 0) []) t2row

/-- `std::max({numUnigrams(), numBigrams(), numTrigrams()})`. -/
def maxNgrams : Nat :=
  max child.numUnigrams (max child.numBigrams child.numTrigrams)

end PartialNgramFeatures

namespace ScoringLoop

variable (child : PartialNgramFeatures) (mask : UInt32)

def run : ScoringLoop → SlotTrace → SlotTrace
  | patternsAndUnigramsApply p0, t =>
      t.generateLoop child.numUnigrams (p0.map (child.uniRow mask))
  | applyUni p0, t => t.scoreRows child.numUnigrams (p0.map (child.uniRow mask))
  | applyBiStep2 p0 p1, t =>
      t.scoreRows child.numBigrams (p0.map fun t0 => child.biRow mask t0 p1)
  | applyTriStep3 p0 p1 p2, t =>
      t.scoreRows child.numTrigrams (p0.map fun t0 => child.triRow mask t0 p1 p2)
  | applyBiTri t0 t1 t2 t1idxes, t =>
      t.applyBiTriFullKernel child.numBigrams child.numTrigrams (t1.map (child.biRow mask t0))
        (child.triRows mask t0 t1 t2 t1idxes)

/-- All loops of a score processor. -/
def runAll (loops : List ScoringLoop) : SlotTrace :=
  loops.foldl (fun t loop => loop.run child mask t) (.allocate child.maxNgrams)

/-- The number of slots of the second buffer that are written after a loop, `written` of them before. -/
def writtenAfter (written : Nat) : ScoringLoop → Nat
  | patternsAndUnigramsApply p0 | applyUni p0 =>
      if p0 = [] then written else max written child.numUnigrams
  | applyBiStep2 p0 _ => if p0 = [] then written else max written child.numBigrams
  | applyTriStep3 p0 _ _ => if p0 = [] then written else max written child.numTrigrams
  | applyBiTri _ t1 t2 _ =>
      let written := if t1 = [] then written else max written child.numBigrams
      if t2 = [] then written else max written child.numTrigrams

/-- After an odd number of T1 rows the kernel begins the trigrams with what the second buffer holds. -/
def Warm (written : Nat) : ScoringLoop → Prop
  | applyBiTri _ t1 _ _ => t1.length % 2 = 1 → child.numTrigrams ≤ max written child.numBigrams
  | _ => True

def AllWarm : Nat → List ScoringLoop → Prop
  | _, [] => True
  | written, loop :: loops => loop.Warm child written ∧ AllWarm (loop.writtenAfter child written) loops

end ScoringLoop

/-- A slot that holds a value computed with the mask; zero is one of them. -/
def Masked (mask : UInt32) (slot : Slot) : Prop :=
  ∃ v : UInt32, slot = some (v &&& mask)

theorem masked_zero (mask : UInt32) : Masked mask (some 0) :=
  ⟨0, by rw [UInt32.zero_and]⟩

theorem not_masked_none (mask : UInt32) : ¬ Masked mask none :=
  fun ⟨_, h⟩ => by cases h

/-- A masked slot is the index of a weight. -/
theorem Masked.inRange {weights : WeightBuffer} {slot : Slot} (h : Masked weights.mask slot) :
    ∃ x, slot = some x ∧ weights.InRange x := by
  obtain ⟨v, hv⟩ := h
  exact ⟨v &&& weights.mask, hv, weights.inRange_and_mask v⟩

/-- A row of values that a loop computes. -/
structure MaskedRow (mask : UInt32) (n : Nat) (row : List UInt32) : Prop where
  length : row.length = n
  masked : ∀ x ∈ row, Masked mask (some x)

theorem maskedRow_map {F : Type} {features : List F} {mask : UInt32} {value : F → UInt32}
    (h : ∀ f, Masked mask (some (value f))) : MaskedRow mask features.length (features.map value) where
  length := List.length_map _
  masked x hx := by
    obtain ⟨f, -, rfl⟩ := List.mem_map.mp hx
    exact h f

namespace SlotTrace

def AllMasked (mask : UInt32) (t : SlotTrace) : Prop :=
  ∀ slot ∈ t.reads, Masked mask slot

/-- The first buffer and the first `written` slots of the second one are known; behind them nothing has
been written. -/
structure Known (mask : UInt32) (size written : Nat) (t : SlotTrace) : Prop where
  length : ∀ b, (t.values b).length = size
  first : ∀ slot ∈ t.values false, Masked mask slot
  second : ∀ i slot, (t.values true)[i]? = some slot →
    (i < written → Masked mask slot) ∧ (written ≤ i → slot = none)

theorem known_allocate (mask : UInt32) (size : Nat) : Known mask size 0 (allocate size) where
  length b := by
    cases b with
    | false => exact List.length_replicate
    | true => exact List.length_replicate
  first slot hslot := by
    rw [List.eq_of_mem_replicate hslot]
    exact masked_zero mask
  second i slot hslot := by
    constructor
    · exact fun h => absurd h (Nat.not_lt_zero i)
    · intro _
      exact List.eq_of_mem_replicate (List.mem_of_getElem? hslot)

variable {mask : UInt32} {size written n : Nat} {t : SlotTrace} {b swapped : Bool} {row : List UInt32}
  {rows : List (List UInt32)}

namespace Known

/-- The slots that are read are known unless they lie in the unwritten part of the second buffer. -/
theorem take_masked_iff (h : Known mask size written t) (hn : n ≤ size) :
    (∀ slot ∈ (t.values b).take n, Masked mask slot) ↔ (b = true → n ≤ written) := by
  cases b with
  | false =>
      constructor
      · exact fun _ hfalse => by cases hfalse
      · exact fun _ slot hslot => h.first slot (List.mem_of_mem_take hslot)
  | true =>
      constructor
      · intro hall _
        by_contra hlt
        have hmem : written < (t.values true).length := by
          rw [h.length]
          omega
        have hget := List.getElem?_eq_getElem hmem
        have hnone := (h.second written _ hget).2 (Nat.le_refl _)
        apply not_masked_none mask
        rw [← hnone]
        apply hall
        apply List.mem_of_getElem? (i := written)
        rw [List.getElem?_take_of_lt (by omega)]
        exact hget
      · intro hle slot hslot
        obtain ⟨i, hi⟩ := List.mem_iff_getElem?.mp hslot
        have hlt : i < n := by
          have hbound := (List.getElem?_eq_some_iff.mp hi).1
          rw [List.length_take] at hbound
          omega
        rw [List.getElem?_take_of_lt hlt] at hi
        exact (h.second i slot hi).1 (hlt.trans_le (hle rfl))

theorem read (h : Known mask size written t) (b : Bool) (n : Nat) :
    Known mask size written (t.read b n) :=
  ⟨h.length, h.first, h.second⟩

theorem write_first (h : Known mask size written t) (hrow : MaskedRow mask n row) (hn : n ≤ size) :
    Known mask size written (t.write false row) where
  length b := by
    cases b with
    | true => exact h.length true
    | false =>
        show (row.map some ++ (t.values false).drop row.length).length = size
        rw [List.length_append, List.length_map, List.length_drop, h.length, hrow.length]
        omega
  first slot hslot := by
    rcases List.mem_append.mp hslot with hslot | hslot
    · obtain ⟨x, hx, rfl⟩ := List.mem_map.mp hslot
      exact hrow.masked x hx
    · exact h.first slot (List.mem_of_mem_drop hslot)
  second := h.second

theorem write_second (h : Known mask size written t) (hrow : MaskedRow mask n row) (hn : n ≤ size) :
    Known mask size (max written n) (t.write true row) where
  length b := by
    cases b with
    | false => exact h.length false
    | true =>
        show (row.map some ++ (t.values true).drop row.length).length = size
        rw [List.length_append, List.length_map, List.length_drop, h.length, hrow.length]
        omega
  first := h.first
  second i slot hslot := by
    change (row.map some ++ (t.values true).drop row.length)[i]? = some slot at hslot
    by_cases hi : i < n
    · rw [List.getElem?_append_left (by rw [List.length_map, hrow.length]; exact hi),
        List.getElem?_map] at hslot
      obtain ⟨x, hx, rfl⟩ := Option.map_eq_some_iff.mp hslot
      constructor
      · exact fun _ => hrow.masked x (List.mem_of_getElem? hx)
      · intro hle
        omega
    · rw [List.getElem?_append_right (by rw [List.length_map, hrow.length]; omega), List.length_map,
        hrow.length, List.getElem?_drop] at hslot
      have hplace : n + (i - n) = i := by omega
      rw [hplace] at hslot
      obtain ⟨hold, hnew⟩ := h.second i slot hslot
      constructor
      · intro hlt
        exact hold (by omega)
      · intro hle
        exact hnew (by omega)

end Known

theorem allMasked_read (h : Known mask size written t) (hn : n ≤ size) :
    (t.read b n).AllMasked mask ↔ t.AllMasked mask ∧ (b = true → n ≤ written) := by
  rw [← h.take_masked_iff hn]
  exact List.forall_mem_append

/-- The buffer that `buf1` names holds a row. -/
structure Filled (mask : UInt32) (size n written : Nat) (s : SlotTrace × Bool) : Prop where
  known : Known mask size written s.1
  named : s.2 = true → n ≤ written

/-! ## What is read stays read -/

theorem reads_read (t : SlotTrace) (b : Bool) (n : Nat) : t.reads ⊆ (t.read b n).reads :=
  List.subset_append_left _ _

theorem reads_swapRow (n : Nat) (s : SlotTrace × Bool) (row : List UInt32) :
    s.1.reads ⊆ (swapRow n s row).1.reads :=
  reads_read s.1 s.2 n

theorem reads_scoreRow (n : Nat) (s : SlotTrace × Bool) (row : List UInt32) :
    s.1.reads ⊆ (scoreRow n s row).1.reads :=
  reads_read (s.1.write s.2 row) (!s.2) n

theorem reads_foldl {f : SlotTrace × Bool → List UInt32 → SlotTrace × Bool}
    (hf : ∀ s row, s.1.reads ⊆ (f s row).1.reads) (rows : List (List UInt32)) (s : SlotTrace × Bool) :
    s.1.reads ⊆ (rows.foldl f s).1.reads := by
  induction rows generalizing s with
  | nil => exact List.Subset.refl _
  | cons row rows ih => exact List.Subset.trans (hf s row) (ih (f s row))

theorem reads_generateLoop (n : Nat) (rows : List (List UInt32)) (t : SlotTrace) :
    t.reads ⊆ (t.generateLoop n rows).reads :=
  List.Subset.trans (reads_foldl (reads_swapRow n) rows (t, false)) (reads_read _ _ n)

theorem reads_scoreRows (n : Nat) (rows : List (List UInt32)) (t : SlotTrace) :
    t.reads ⊆ (t.scoreRows n rows).reads := by
  cases rows with
  | nil => exact List.Subset.refl _
  | cons row rows =>
      exact List.Subset.trans (reads_foldl (reads_scoreRow n) rows (t.write true row, false))
        (reads_read _ _ n)

/-- The first slots that the trigram phase reads, in either of its cases. -/
theorem reads_trigramPhase (numBi numTri : Nat) (biRows triRows : List (List UInt32)) (t : SlotTrace) :
    ((biRows.foldl (swapRow numBi) (t, false)).1.read (biRows.foldl (swapRow numBi) (t, false)).2
      numTri).reads ⊆ (t.applyBiTriFullKernel numBi numTri biRows triRows).reads := by
  cases triRows with
  | nil => exact List.Subset.refl _
  | cons row triRows =>
      let s := biRows.foldl (swapRow numBi) (t, false)
      let first := swapRow numTri s row
      have hfirst : (s.1.read s.2 numTri).reads ⊆ (first.1.read s.2 numBi).reads :=
        reads_read first.1 s.2 numBi
      exact List.Subset.trans hfirst (List.Subset.trans
        (reads_foldl (reads_swapRow numTri) triRows (first.1.read s.2 numBi, first.2))
        (reads_read _ _ numTri))

theorem reads_applyBiTriFullKernel (numBi numTri : Nat) (biRows triRows : List (List UInt32))
    (t : SlotTrace) : t.reads ⊆ (t.applyBiTriFullKernel numBi numTri biRows triRows).reads :=
  List.Subset.trans (reads_foldl (reads_swapRow numBi) biRows (t, false))
    (List.Subset.trans (reads_read _ _ numTri) (reads_trigramPhase numBi numTri biRows triRows t))

theorem AllMasked.of_subset {t t' : SlotTrace} (h : t'.AllMasked mask) (hsub : t.reads ⊆ t'.reads) :
    t.AllMasked mask :=
  fun slot hslot => h slot (hsub hslot)

/-! ## The loops -/

theorem Filled.swapRow {s : SlotTrace × Bool} (h : Filled mask size n written s)
    (hrow : MaskedRow mask n row) (hn : n ≤ size) :
    Filled mask size n (max written n) (SlotTrace.swapRow n s row) ∧
      ((SlotTrace.swapRow n s row).1.AllMasked mask ↔ s.1.AllMasked mask) := by
  obtain ⟨t, swapped⟩ := s
  have hreads := allMasked_read (b := swapped) h.known hn
  refine ⟨?_, hreads.trans (and_iff_left h.named)⟩
  cases swapped with
  | false =>
      constructor
      · exact (h.known.read false n).write_second hrow hn
      · exact fun _ => le_max_right _ _
  | true =>
      constructor
      · rw [max_eq_left (h.named rfl)]
        exact (h.known.read true n).write_first hrow hn
      · exact fun hfalse => by cases hfalse

theorem Filled.foldl_swapRow {s : SlotTrace × Bool} (h : Filled mask size n written s)
    (hrows : ∀ row ∈ rows, MaskedRow mask n row) (hn : n ≤ size) :
    Filled mask size n (if rows = [] then written else max written n)
        (rows.foldl (SlotTrace.swapRow n) s) ∧
      ((rows.foldl (SlotTrace.swapRow n) s).1.AllMasked mask ↔ s.1.AllMasked mask) := by
  induction rows generalizing s written with
  | nil => exact ⟨h, Iff.rfl⟩
  | cons row rows ih =>
      obtain ⟨hrow, hrest⟩ := List.forall_mem_cons.mp hrows
      obtain ⟨hstep, hmasked⟩ := h.swapRow hrow hn
      obtain ⟨hfilled, hall⟩ := ih hstep hrest
      refine ⟨?_, hall.trans hmasked⟩
      rw [max_eq_left (le_max_right written n), ite_self] at hfilled
      rw [if_neg (List.cons_ne_nil row rows)]
      exact hfilled

theorem foldl_swapRow_snd (n : Nat) (rows : List (List UInt32)) (t : SlotTrace) (swapped : Bool) :
    (rows.foldl (swapRow n) (t, swapped)).2 = (swapped ^^ swappedAfter rows.length) := by
  induction rows generalizing t swapped with
  | nil => exact (Bool.xor_false swapped).symm
  | cons row rows ih =>
      rw [List.length_cons, swappedAfter_succ]
      show (rows.foldl (swapRow n) (_, !swapped)).2 = _
      rw [ih, Bool.xor_not, Bool.not_xor]

theorem Known.filled (h : Known mask size written t) (n : Nat) :
    Filled mask size n written (t, false) :=
  ⟨h, fun hfalse => by cases hfalse⟩

theorem Known.generateLoop (h : Known mask size written t)
    (hrows : ∀ row ∈ rows, MaskedRow mask n row) (hn : n ≤ size) :
    Known mask size (if rows = [] then written else max written n) (t.generateLoop n rows) ∧
      ((t.generateLoop n rows).AllMasked mask ↔ t.AllMasked mask) := by
  obtain ⟨hfilled, hall⟩ := (h.filled n).foldl_swapRow hrows hn
  refine ⟨hfilled.known.read _ n, ?_⟩
  exact (allMasked_read hfilled.known hn).trans ((and_iff_left hfilled.named).trans hall)

theorem Known.foldl_scoreRow {s : SlotTrace × Bool} (h : Known mask size written s.1)
    (hrows : ∀ row ∈ rows, MaskedRow mask n row) (hn : n ≤ size) (hwritten : n ≤ written) :
    Known mask size written (rows.foldl (SlotTrace.scoreRow n) s).1 ∧
      ((rows.foldl (SlotTrace.scoreRow n) s).1.AllMasked mask ↔ s.1.AllMasked mask) := by
  induction rows generalizing s with
  | nil => exact ⟨h, Iff.rfl⟩
  | cons row rows ih =>
      obtain ⟨hrow, hrest⟩ := List.forall_mem_cons.mp hrows
      obtain ⟨t, swapped⟩ := s
      have hwrite : Known mask size written (t.write swapped row) := by
        cases swapped with
        | false => exact h.write_first hrow hn
        | true =>
            rw [← max_eq_left hwritten]
            exact h.write_second hrow hn
      obtain ⟨hknown, hall⟩ := ih (s := SlotTrace.scoreRow n (t, swapped) row)
        (hwrite.read (!swapped) n) hrest
      refine ⟨hknown, hall.trans ?_⟩
      exact (allMasked_read hwrite hn).trans (and_iff_left fun _ => hwritten)

theorem Known.scoreRows (h : Known mask size written t)
    (hrows : ∀ row ∈ rows, MaskedRow mask n row) (hn : n ≤ size) :
    Known mask size (if rows = [] then written else max written n) (t.scoreRows n rows) ∧
      ((t.scoreRows n rows).AllMasked mask ↔ t.AllMasked mask) := by
  cases rows with
  | nil => exact ⟨h, Iff.rfl⟩
  | cons row rows =>
      obtain ⟨hrow, hrest⟩ := List.forall_mem_cons.mp hrows
      rw [if_neg (List.cons_ne_nil row rows)]
      have hfirst : Known mask size (max written n) (t.write true row) := h.write_second hrow hn
      obtain ⟨hknown, hall⟩ := hfirst.foldl_scoreRow (s := (t.write true row, false)) hrest hn
        (le_max_right _ _)
      refine ⟨hknown.read _ n, ?_⟩
      exact (allMasked_read hknown hn).trans ((and_iff_left fun _ => le_max_right _ _).trans hall)

variable {numBi numTri : Nat} {biRows triRows : List (List UInt32)}

/-- The bigram rows of the kernel.  After an odd number of them `buf1` names the second buffer. -/
theorem Known.bigramPhase (h : Known mask size written t)
    (hbi : ∀ row ∈ biRows, MaskedRow mask numBi row) (hn : numBi ≤ size) :
    Filled mask size numBi (if biRows = [] then written else max written numBi)
        (biRows.foldl (SlotTrace.swapRow numBi) (t, false)) ∧
      ((biRows.foldl (SlotTrace.swapRow numBi) (t, false)).1.AllMasked mask ↔ t.AllMasked mask) :=
  (h.filled numBi).foldl_swapRow hbi hn

theorem bigramPhase_snd (numBi : Nat) (biRows : List (List UInt32)) (t : SlotTrace) :
    (biRows.foldl (swapRow numBi) (t, false)).2 = swappedAfter biRows.length := by
  rw [foldl_swapRow_snd, Bool.false_xor]

/-- The trigram phase needs its slots of the buffer that the bigram rows have left under `buf1`. -/
theorem Known.applyBiTriFullKernel (h : Known mask size written t)
    (hbi : ∀ row ∈ biRows, MaskedRow mask numBi row) (hnBi : numBi ≤ size)
    (htri : ∀ row ∈ triRows, MaskedRow mask numTri row) (hnTri : numTri ≤ size)
    (hwarm : swappedAfter biRows.length = true →
      numTri ≤ if biRows = [] then written else max written numBi) :
    Known mask size
        (if triRows = [] then (if biRows = [] then written else max written numBi)
          else max (if biRows = [] then written else max written numBi) numTri)
        (t.applyBiTriFullKernel numBi numTri biRows triRows) ∧
      ((t.applyBiTriFullKernel numBi numTri biRows triRows).AllMasked mask ↔ t.AllMasked mask) := by
  obtain ⟨hfilled, hall⟩ := h.bigramPhase hbi hnBi
  rw [← bigramPhase_snd numBi biRows t] at hwarm
  cases triRows with
  | nil =>
      refine ⟨hfilled.known.read _ numTri, ?_⟩
      exact (allMasked_read hfilled.known hnTri).trans ((and_iff_left hwarm).trans hall)
  | cons row triRows =>
      obtain ⟨hrow, hrest⟩ := List.forall_mem_cons.mp htri
      rw [if_neg (List.cons_ne_nil row triRows)]
      let s := biRows.foldl (SlotTrace.swapRow numBi) (t, false)
      let first := SlotTrace.swapRow numTri s row
      have hstart : Filled mask size numTri (if biRows = [] then written else max written numBi) s :=
        ⟨hfilled.known, hwarm⟩
      obtain ⟨hfirst, hallFirst⟩ := hstart.swapRow hrow hnTri
      have hnamed : s.2 = true →
          numBi ≤ max (if biRows = [] then written else max written numBi) numTri :=
        fun hswapped => (hfilled.named hswapped).trans (le_max_left _ _)
      have hallRead := allMasked_read (b := s.2) hfirst.known hnBi
      have hread : Filled mask size numTri
          (max (if biRows = [] then written else max written numBi) numTri)
          (first.1.read s.2 numBi, first.2) :=
        ⟨hfirst.known.read s.2 numBi, hfirst.named⟩
      obtain ⟨hlast, hallLast⟩ := hread.foldl_swapRow hrest hnTri
      rw [max_eq_left (le_max_right _ numTri), ite_self] at hlast
      refine ⟨hlast.known.read _ numTri, ?_⟩
      have hend := (allMasked_read hlast.known hnTri).trans (and_iff_left hlast.named)
      exact hend.trans (hallLast.trans ((hallRead.trans (and_iff_left hnamed)).trans
        (hallFirst.trans hall)))

/-- What the trigram phase reads first is the condition of the whole kernel. -/
theorem Known.warm_of_allMasked (h : Known mask size written t)
    (hbi : ∀ row ∈ biRows, MaskedRow mask numBi row) (hnBi : numBi ≤ size) (hnTri : numTri ≤ size)
    (hall : (t.applyBiTriFullKernel numBi numTri biRows triRows).AllMasked mask) :
    swappedAfter biRows.length = true → numTri ≤ if biRows = [] then written else max written numBi := by
  obtain ⟨hfilled, -⟩ := h.bigramPhase hbi hnBi
  have hphase := hall.of_subset (reads_trigramPhase numBi numTri biRows triRows t)
  have hwarm := ((allMasked_read hfilled.known hnTri).mp hphase).2
  rw [bigramPhase_snd] at hwarm
  exact hwarm

end SlotTrace

namespace ScoringLoop

variable {child : PartialNgramFeatures} {mask : UInt32} {written : Nat} {t : SlotTrace}

theorem maskedRow_uniRow (child : PartialNgramFeatures) (mask : UInt32) (t0 : PatternRow) :
    MaskedRow mask child.numUnigrams (child.uniRow mask t0) :=
  maskedRow_map fun _ => ⟨_, rfl⟩

theorem maskedRow_biRow (child : PartialNgramFeatures) (mask : UInt32) (t0 t1 : PatternRow) :
    MaskedRow mask child.numBigrams (child.biRow mask t0 t1) :=
  maskedRow_map fun _ => ⟨_, rfl⟩

theorem maskedRow_triRow (child : PartialNgramFeatures) (mask : UInt32) (t0 t1 t2 : PatternRow) :
    MaskedRow mask child.numTrigrams (child.triRow mask t0 t1 t2) :=
  maskedRow_map fun _ => ⟨_, rfl⟩

theorem triRows_eq_nil_iff (child : PartialNgramFeatures) (mask : UInt32) (t0 : PatternRow)
    (t1 t2 : List PatternRow) (t1idxes : List Nat) :
    child.triRows mask t0 t1 t2 t1idxes = [] ↔ t2 = [] := by
  show List.map _ t2.zipIdx = [] ↔ t2 = []
  rw [List.map_eq_nil_iff, List.zipIdx_eq_nil_iff]

theorem numUnigrams_le (child : PartialNgramFeatures) : child.numUnigrams ≤ child.maxNgrams :=
  le_max_left _ _

theorem numBigrams_le (child : PartialNgramFeatures) : child.numBigrams ≤ child.maxNgrams :=
  (le_max_left _ _).trans (le_max_right _ _)

theorem numTrigrams_le (child : PartialNgramFeatures) : child.numTrigrams ≤ child.maxNgrams :=
  (le_max_right _ _).trans (le_max_right _ _)

/-- The condition of the kernel in its own terms. -/
theorem warm_applyBiTri_iff (child : PartialNgramFeatures) (mask : UInt32) (written : Nat)
    (t0 : PatternRow) (t1 t2 : List PatternRow) (t1idxes : List Nat) :
    (applyBiTri t0 t1 t2 t1idxes).Warm child written ↔
      (swappedAfter (t1.map (child.biRow mask t0)).length = true →
        child.numTrigrams ≤ if t1.map (child.biRow mask t0) = [] then written
          else max written child.numBigrams) := by
  rw [List.length_map]
  cases t1 with
  | nil =>
      constructor
      · exact fun _ hodd => absurd hodd (by decide)
      · exact fun _ hodd => absurd hodd (by decide)
  | cons p1 t1 =>
      rw [List.map_cons, if_neg (List.cons_ne_nil _ _)]
      exact imp_congr beq_iff_eq.symm Iff.rfl

theorem run_spec {loop : ScoringLoop} (h : SlotTrace.Known mask child.maxNgrams written t)
    (hwarm : loop.Warm child written) :
    SlotTrace.Known mask child.maxNgrams (loop.writtenAfter child written) (loop.run child mask t) ∧
      ((loop.run child mask t).AllMasked mask ↔ t.AllMasked mask) := by
  cases loop with
  | patternsAndUnigramsApply p0 =>
      have hrows : ∀ row ∈ p0.map (child.uniRow mask), MaskedRow mask child.numUnigrams row :=
        List.forall_mem_map.mpr fun t0 _ => maskedRow_uniRow child mask t0
      have hrun := h.generateLoop hrows (numUnigrams_le child)
      simp only [List.map_eq_nil_iff] at hrun
      exact hrun
  | applyUni p0 =>
      have hrows : ∀ row ∈ p0.map (child.uniRow mask), MaskedRow mask child.numUnigrams row :=
        List.forall_mem_map.mpr fun t0 _ => maskedRow_uniRow child mask t0
      have hrun := h.scoreRows hrows (numUnigrams_le child)
      simp only [List.map_eq_nil_iff] at hrun
      exact hrun
  | applyBiStep2 p0 p1 =>
      have hrows : ∀ row ∈ p0.map fun t0 => child.biRow mask t0 p1,
          MaskedRow mask child.numBigrams row :=
        List.forall_mem_map.mpr fun t0 _ => maskedRow_biRow child mask t0 p1
      have hrun := h.scoreRows hrows (numBigrams_le child)
      simp only [List.map_eq_nil_iff] at hrun
      exact hrun
  | applyTriStep3 p0 p1 p2 =>
      have hrows : ∀ row ∈ p0.map fun t0 => child.triRow mask t0 p1 p2,
          MaskedRow mask child.numTrigrams row :=
        List.forall_mem_map.mpr fun t0 _ => maskedRow_triRow child mask t0 p1 p2
      have hrun := h.scoreRows hrows (numTrigrams_le child)
      simp only [List.map_eq_nil_iff] at hrun
      exact hrun
  | applyBiTri t0 t1 t2 t1idxes =>
      have hbi : ∀ row ∈ t1.map (child.biRow mask t0), MaskedRow mask child.numBigrams row :=
        List.forall_mem_map.mpr fun t1row _ => maskedRow_biRow child mask t0 t1row
      have htri : ∀ row ∈ child.triRows mask t0 t1 t2 t1idxes,
          MaskedRow mask child.numTrigrams row :=
        List.forall_mem_map.mpr fun _ _ => maskedRow_triRow child mask t0 _ _
      have hrun := h.applyBiTriFullKernel hbi (numBigrams_le child) htri (numTrigrams_le child)
        ((warm_applyBiTri_iff child mask written t0 t1 t2 t1idxes).mp hwarm)
      simp only [List.map_eq_nil_iff, triRows_eq_nil_iff] at hrun
      exact hrun

theorem reads_run (loop : ScoringLoop) (child : PartialNgramFeatures) (mask : UInt32) (t : SlotTrace) :
    t.reads ⊆ (loop.run child mask t).reads := by
  cases loop with
  | patternsAndUnigramsApply p0 => exact SlotTrace.reads_generateLoop _ _ t
  | applyUni p0 => exact SlotTrace.reads_scoreRows _ _ t
  | applyBiStep2 p0 p1 => exact SlotTrace.reads_scoreRows _ _ t
  | applyTriStep3 p0 p1 p2 => exact SlotTrace.reads_scoreRows _ _ t
  | applyBiTri t0 t1 t2 t1idxes => exact SlotTrace.reads_applyBiTriFullKernel _ _ _ _ t

theorem reads_foldl_run (loops : List ScoringLoop) (child : PartialNgramFeatures) (mask : UInt32)
    (t : SlotTrace) : t.reads ⊆ (loops.foldl (fun t loop => loop.run child mask t) t).reads := by
  induction loops generalizing t with
  | nil => exact List.Subset.refl _
  | cons loop loops ih => exact List.Subset.trans (reads_run loop child mask t) (ih _)

theorem warm_of_run {loop : ScoringLoop} (h : SlotTrace.Known mask child.maxNgrams written t)
    (hall : (loop.run child mask t).AllMasked mask) : loop.Warm child written := by
  cases loop with
  | patternsAndUnigramsApply p0 => trivial
  | applyUni p0 => trivial
  | applyBiStep2 p0 p1 => trivial
  | applyTriStep3 p0 p1 p2 => trivial
  | applyBiTri t0 t1 t2 t1idxes =>
      apply (warm_applyBiTri_iff child mask written t0 t1 t2 t1idxes).mpr
      exact h.warm_of_allMasked
        (List.forall_mem_map.mpr fun t1row _ => maskedRow_biRow child mask t0 t1row)
        (numBigrams_le child) (numTrigrams_le child) hall

/-- The induction over the loops: `written` follows the second buffer. -/
theorem foldl_run_allMasked_iff (loops : List ScoringLoop)
    (h : SlotTrace.Known mask child.maxNgrams written t) (ht : t.AllMasked mask) :
    (loops.foldl (fun t loop => loop.run child mask t) t).AllMasked mask ↔
      AllWarm child written loops := by
  induction loops generalizing t written with
  | nil => exact iff_of_true ht trivial
  | cons loop loops ih =>
      constructor
      · intro hall
        have hfirst : (loop.run child mask t).AllMasked mask :=
          hall.of_subset (reads_foldl_run loops child mask _)
        have hwarm := warm_of_run h hfirst
        exact ⟨hwarm, (ih (run_spec h hwarm).1 hfirst).mp hall⟩
      · intro hwarm
        obtain ⟨hknown, hmasked⟩ := run_spec h hwarm.1
        exact (ih hknown (hmasked.mpr ht)).mpr hwarm.2

/-- The trigrams never outrun the second buffer when a row of unigrams precedes every kernel and there
are at least as many unigrams or bigrams. -/
theorem AllWarm.of_numTrigrams_le {loops : List ScoringLoop}
    (hsize : child.numTrigrams ≤ max child.numUnigrams child.numBigrams)
    (hwritten : child.numUnigrams ≤ written) : AllWarm child written loops := by
  induction loops generalizing written with
  | nil => trivial
  | cons loop loops ih =>
      have hgrows : written ≤ loop.writtenAfter child written := by
        cases loop with
        | patternsAndUnigramsApply p0 => simp only [writtenAfter]; split <;> omega
        | applyUni p0 => simp only [writtenAfter]; split <;> omega
        | applyBiStep2 p0 p1 => simp only [writtenAfter]; split <;> omega
        | applyTriStep3 p0 p1 p2 => simp only [writtenAfter]; split <;> omega
        | applyBiTri t0 t1 t2 t1idxes => simp only [writtenAfter]; split <;> split <;> omega
      refine ⟨?_, ih (hwritten.trans hgrows)⟩
      cases loop with
      | applyBiTri t0 t1 t2 t1idxes =>
          intro _
          omega
      | _ => trivial

end ScoringLoop

end Jumanpp.Core.Features
