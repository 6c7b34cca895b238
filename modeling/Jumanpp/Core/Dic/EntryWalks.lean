import Jumanpp.Core.Dic.EntryRoundTrip

/-!
# Walking over the rows of an entry

What a buffer yields depends on its counts and on the list that it still has to read; only when that
list has no length it depends on the features and on the counter in front of `dataBuffer_`.
-/

namespace Jumanpp.Core.Dic

open Jumanpp.Util Jumanpp.Core.Analysis

theorem length_snd_fill (cnt : Nat) (t : IntListTraversal) : (t.fill cnt).2.length = t.length := by
  induction cnt generalizing t with
  | zero => rfl
  | succ cnt ih =>
      have hread := (readOne_snd t).2
      rw [IntListTraversal.fill]
      split
      next t' h => rw [← hread, h]
      next value t' h => exact (ih t').trans (by rw [← hread, h])

namespace DicEntryBuffer

variable {buf buf₁ buf₂ : DicEntryBuffer} {rows rows₁ rows₂ : List (List Int32)}

/-- What stands behind the features. -/
def columns (buf : DicEntryBuffer) : List Int32 :=
  (buf.featureBuffer.drop buf.numFeatures).take buf.numData

theorem data_stored (hlength : buf.remainingData.length = 0) : buf.data = buf.columns :=
  if_pos hlength

/-! ## One step -/

theorem nextData_frame :
    buf.nextData.2.numFeatures = buf.numFeatures ∧ buf.nextData.2.numData = buf.numData ∧
      buf.nextData.2.remainingData.length = buf.remainingData.length := by
  unfold nextData
  split
  next => exact ⟨rfl, rfl, rfl⟩
  next =>
    split
    next => exact ⟨rfl, rfl, rfl⟩
    next => exact ⟨rfl, rfl, length_snd_fill buf.numData buf.remainingData⟩

/-- The old row is overwritten as a whole. -/
theorem nextData_congr (hnum : buf₁.numData = buf₂.numData)
    (hremaining : buf₁.remainingData = buf₂.remainingData)
    (hlength : buf₁.remainingData.length ≠ 0) :
    buf₁.nextData.1 = buf₂.nextData.1 ∧
      buf₁.nextData.2.remainingData = buf₂.nextData.2.remainingData ∧
      (buf₁.nextData.1 = true → buf₁.nextData.2.data = buf₂.nextData.2.data) := by
  have hlength₂ : buf₂.remainingData.length ≠ 0 := hremaining ▸ hlength
  by_cases hend : buf₁.remainingData.position = buf₁.remainingData.length
  · rw [nextData_ended hlength hend, nextData_ended hlength₂ (hremaining ▸ hend)]
    exact ⟨rfl, hremaining, fun h => absurd h Bool.false_ne_true⟩
  · obtain ⟨hnext₁, hread₁, hcount₁, hdata₁⟩ := nextData_read hlength hend
    obtain ⟨hnext₂, hread₂, hcount₂, hdata₂⟩ := nextData_read hlength₂ (hremaining ▸ hend)
    rw [← hremaining, ← hnum] at hnext₂ hread₂ hdata₂
    refine ⟨hnext₁.trans hnext₂.symm, hread₁.trans hread₂.symm, fun hfull => ?_⟩
    rw [hnext₁, beq_iff_eq] at hfull
    have hlen : (buf₁.remainingData.fill buf₁.numData).2.length ≠ 0 := by
      rw [length_snd_fill]
      exact hlength
    unfold data
    rw [hread₁, hread₂, if_neg hlen, if_neg hlen, hdata₁, hdata₂, hcount₁, hcount₂, ← hnum,
      List.take_append_of_le_length (by omega), List.take_append_of_le_length (by omega)]

/-! ## A whole walk -/

theorem Yields.unique (h₁ : buf.Yields rows₁) (h₂ : buf.Yields rows₂) : rows₁ = rows₂ := by
  induction rows₁ generalizing buf rows₂ with
  | nil =>
      cases rows₂ with
      | nil => rfl
      | cons row rows => exact absurd (h₂.1.symm.trans h₁) Bool.false_ne_true.symm
  | cons row rows ih =>
      cases rows₂ with
      | nil => exact absurd (h₁.1.symm.trans h₂) Bool.false_ne_true.symm
      | cons row' rows' =>
          obtain ⟨-, hrow, hrest⟩ := h₁
          obtain ⟨-, hrow', hrest'⟩ := h₂
          rw [← hrow, ← hrow', ih hrest hrest']

/-- What has been left in the arrays does not matter while there is a list to read. -/
theorem yields_congr (hnum : buf₁.numData = buf₂.numData)
    (hremaining : buf₁.remainingData = buf₂.remainingData)
    (hlength : buf₁.remainingData.length ≠ 0) : buf₁.Yields rows ↔ buf₂.Yields rows := by
  induction rows generalizing buf₁ buf₂ with
  | nil =>
      show buf₁.nextData.1 = false ↔ buf₂.nextData.1 = false
      rw [(nextData_congr hnum hremaining hlength).1]
  | cons row rows ih =>
      obtain ⟨hnext, hread, hdata⟩ := nextData_congr hnum hremaining hlength
      have hrest : buf₁.nextData.2.Yields rows ↔ buf₂.nextData.2.Yields rows := by
        apply ih
        · rw [nextData_frame.2.1, nextData_frame.2.1, hnum]
        · exact hread
        · rw [nextData_frame.2.2]
          exact hlength
      show buf₁.nextData.1 = true ∧ _ ∧ _ ↔ buf₂.nextData.1 = true ∧ _ ∧ _
      rw [← hnext, hrest]
      exact and_congr_right fun h => by rw [hdata h]

theorem yields_replicate (hlength : buf.remainingData.length = 0) :
    buf.Yields (List.replicate buf.rowsLeft.toNat buf.data) := by
  rw [yields_stored hlength, List.length_replicate]
  exact ⟨Int.toNat_eq_max _, fun row h => List.eq_of_mem_replicate h⟩

/-- A walk over an alias ends, since each step reads at least one value. -/
theorem exists_yields (h : buf.remainingData.length = 0 ∨ 0 < buf.numData) :
    ∃ rows, buf.Yields rows := by
  by_cases hlength : buf.remainingData.length = 0
  · exact ⟨_, yields_replicate hlength⟩
  have hdata := h.resolve_left hlength
  -- the measure is the number of values that have not been read
  generalize hleft : (buf.remainingData.length - buf.remainingData.position).toNat = left
  induction left using Nat.strong_induction_on generalizing buf with
  | h left ih =>
      cases hnext : buf.nextData.1 with
      | false => exact ⟨[], hnext⟩
      | true =>
          have hposition : buf.remainingData.position ≠ buf.remainingData.length := by
            intro hend
            rw [nextData_ended hlength hend] at hnext
            cases hnext
          obtain ⟨hfull, hread, hcount, -⟩ := nextData_read hlength hposition
          rw [hnext] at hfull
          obtain ⟨hle, hmoved, hsame⟩ := add_le_of_fill (beq_iff_eq.mp hfull.symm) (.inr hdata)
          rw [← hread] at hmoved hsame
          have hdata' : 0 < buf.nextData.2.numData := hcount ▸ hdata
          have hlength' : buf.nextData.2.remainingData.length ≠ 0 := hsame ▸ hlength
          obtain ⟨rows, hrows⟩ := ih _ (by rw [hsame, hmoved]; omega) (.inr hdata') hlength' hdata' rfl
          exact ⟨_ :: rows, hnext, rfl, hrows⟩

/-! ## Reading an entry into a buffer that has been used -/

variable {ptr : EntryPtr} {entryData : List UInt8}

/-- How many numbers are read at a pointer. -/
def storedCount (numFeatures numData : Nat) (ptr : EntryPtr) : Nat :=
  if EntryPtr.isAlias ptr then numFeatures + 1 else numFeatures + numData

def storedValues (numFeatures numData : Nat) (ptr : EntryPtr) (entryData : List UInt8) :
    List Int32 × IntListTraversal :=
  (rawWithLimit entryData (EntryPtr.dicPtr ptr) (storedCount numFeatures numData ptr)).fill
    (storedCount numFeatures numData ptr)

/-- The numbers of an alias that stand behind the number of its rows, as they are counted. -/
def aliasValues (numFeatures numData : Nat) (ptr : EntryPtr) (entryData : List UInt8) : Int :=
  (UInt32.ofNat numData *
    ((storedValues numFeatures numData ptr entryData).1.getD numFeatures 0).toUInt32).toInt32.toInt

/-- Without a column there is no value. -/
theorem numData_pos {numFeatures numData : Nat}
    (h : aliasValues numFeatures numData ptr entryData ≠ 0) : 0 < numData := by
  refine Nat.pos_of_ne_zero fun hnum => h ?_
  unfold aliasValues
  rw [hnum, show UInt32.ofNat 0 = 0 from rfl, UInt32.zero_mul]
  rfl

/-- An entry stands at the pointer, and what is read fits the buffer. -/
def Readable (numFeatures numData : Nat) (ptr : EntryPtr) (entryData : List UInt8) : Prop :=
  (storedValues numFeatures numData ptr entryData).1.length = storedCount numFeatures numData ptr ∧
    storedCount numFeatures numData ptr ≤ JPP_MAX_DIC_FIELDS

theorem Readable.le_length {numFeatures numData : Nat}
    (h : Readable numFeatures numData ptr entryData) :
    numFeatures ≤ (storedValues numFeatures numData ptr entryData).1.length := by
  rw [h.1, storedCount]
  split <;> omega

theorem fillFromStorage_readable
    (h : Readable buf.numFeatures buf.numData ptr entryData) :
    ∃ filled, buf.fillFromStorage ptr entryData = some (true, filled) ∧
      filled.numFeatures = buf.numFeatures ∧ filled.numData = buf.numData ∧
      filled.featureBuffer = (storedValues buf.numFeatures buf.numData ptr entryData).1 ++
        buf.featureBuffer.drop (storedCount buf.numFeatures buf.numData ptr) ∧
      if EntryPtr.isAlias ptr then
        filled.rowsLeft = buf.rowsLeft ∧
          filled.remainingData = rawWithLimit entryData (EntryPtr.dicPtr ptr +
            (storedValues buf.numFeatures buf.numData ptr entryData).2.numReadBytes)
            (aliasValues buf.numFeatures buf.numData ptr entryData)
      else filled.rowsLeft = 1 ∧ filled.remainingData.length = 0 := by
  obtain ⟨hlength, hle⟩ := h
  generalize hread : storedValues buf.numFeatures buf.numData ptr entryData = read at *
  obtain ⟨values, t⟩ := read
  unfold aliasValues
  rw [hread]
  unfold storedValues at hread
  unfold fillFromStorage storedCount
  by_cases halias : EntryPtr.isAlias ptr
  · rw [storedCount, if_pos halias] at hread hlength hle
    simp only [halias, ↓reduceIte, hread]
    simp only at hlength
    have hget : (values ++ buf.featureBuffer.drop values.length).getD buf.numFeatures 0 =
        values.getD buf.numFeatures 0 := by
      rw [List.getD_eq_getElem?_getD, List.getElem?_append_left (by omega),
        ← List.getD_eq_getElem?_getD]
    rw [dif_pos (by omega), if_neg (by omega)]
    refine ⟨_, rfl, rfl, rfl, ?_, rfl, ?_⟩
    · exact congrArg (fun cnt => values ++ buf.featureBuffer.drop cnt) hlength
    · rw [← hget]
      rfl
  · rw [storedCount, if_neg halias] at hread hlength hle
    simp only [halias, Bool.false_eq_true, ↓reduceIte, hread]
    simp only at hlength
    rw [dif_pos (by omega), if_neg (by omega)]
    refine ⟨_, rfl, rfl, rfl, ?_, ?_, rfl⟩
    · exact congrArg (fun cnt => values ++ buf.featureBuffer.drop cnt) hlength
    · have hpos : 0 < buf.dataBuffer.length := by
        rw [buf.dataBuffer_length]
        decide
      show ((buf.dataBuffer.set 0 1).getD 0 0).toInt = 1
      rw [List.getD_eq_getElem?_getD, List.getElem?_set_self hpos]
      rfl

/-- Whatever is read, the list that is left belongs to rows with columns. -/
theorem fillFromStorage_frame {found : Bool} {filled : DicEntryBuffer}
    (h : buf.fillFromStorage ptr entryData = some (found, filled)) :
    filled.numFeatures = buf.numFeatures ∧ filled.numData = buf.numData ∧
      (filled.remainingData.length = 0 ∨ filled.remainingData = buf.remainingData ∨
        0 < buf.numData) := by
  have hcounted : buf.numData = 0 → ∀ numAlias : UInt32,
      (UInt32.ofNat buf.numData * numAlias).toInt32.toInt = 0 := by
    intro hnum numAlias
    rw [hnum, show UInt32.ofNat 0 = 0 from rfl, UInt32.zero_mul]
    rfl
  unfold fillFromStorage at h
  by_cases halias : EntryPtr.isAlias ptr
  · simp only [halias, ↓reduceIte] at h
    split at h
    next =>
      split at h
      next =>
        cases h
        exact ⟨rfl, rfl, .inr (.inl rfl)⟩
      next =>
        cases h
        refine ⟨rfl, rfl, ?_⟩
        by_cases hnum : buf.numData = 0
        · exact .inl (hcounted hnum _)
        · exact .inr (.inr (Nat.pos_of_ne_zero hnum))
    next => cases h
  · simp only [halias, Bool.false_eq_true, ↓reduceIte] at h
    split at h
    next =>
      split at h
      next =>
        cases h
        exact ⟨rfl, rfl, .inr (.inl rfl)⟩
      next =>
        cases h
        exact ⟨rfl, rfl, .inl rfl⟩
    next => cases h

end DicEntryBuffer

end Jumanpp.Core.Dic
