import Jumanpp.Core.Dic.DicEntries

/-!
# Reading an entry back

The rows of an alias come back when the number of their values is positive and fits the counter of the
reader.  When it counts no value the reader takes the alias for an entry whose data is stored with its
features, and returns as many rows as its buffer was left with.
-/

namespace Jumanpp.Core.Dic

open Jumanpp.Util Jumanpp.Core.Analysis

/-! ## Numbers -/

theorem readOne_writeField {length position : Int} {rest : List UInt8} {begin_ : Nat} (v : Int32)
    (h : position < length) :
    IntListTraversal.readOne ⟨length, position, writeField v ++ rest, begin_⟩ =
      (some v, ⟨length, position + 1, rest, begin_⟩) := by
  unfold IntListTraversal.readOne writeField
  simp only
  rw [readVarint64_writeVarint, if_pos h]
  simp

theorem fill_flatMap {length position : Int} {rest : List UInt8} {begin_ : Nat}
    (values : List Int32) (h : position + values.length ≤ length) :
    IntListTraversal.fill values.length
        ⟨length, position, values.flatMap writeField ++ rest, begin_⟩ =
      (values, ⟨length, position + values.length, rest, begin_⟩) := by
  induction values generalizing position with
  | nil =>
      rw [List.length_nil, IntListTraversal.fill, List.flatMap_nil, List.nil_append]
      simp
  | cons v values ih =>
      rw [List.length_cons] at h ⊢
      rw [IntListTraversal.fill, List.flatMap_cons, List.append_assoc,
        readOne_writeField v (by omega)]
      simp only
      rw [ih (by omega)]
      simp only [Nat.cast_add, Nat.cast_one]
      congr 2
      omega

/-- The features of an alias and the number of its rows. -/
theorem fill_flatMap_size {length position : Int} {rest : List UInt8} {begin_ : Nat}
    (values : List Int32) (size : UInt64) (h : position + values.length + 1 ≤ length) :
    IntListTraversal.fill (values.length + 1)
        ⟨length, position, values.flatMap writeField ++ (writeVarint size ++ rest), begin_⟩ =
      (values ++ [size.toUInt32.toInt32], ⟨length, position + values.length + 1, rest, begin_⟩) := by
  induction values generalizing position with
  | nil =>
      have hlt : position < length := by
        simp only [List.length_nil] at h
        omega
      rw [List.length_nil, IntListTraversal.fill, List.flatMap_nil, List.nil_append]
      unfold IntListTraversal.readOne
      simp only
      rw [readVarint64_writeVarint, if_pos hlt]
      simp [IntListTraversal.fill]
  | cons v values ih =>
      rw [List.length_cons] at h ⊢
      rw [IntListTraversal.fill, List.flatMap_cons, List.append_assoc,
        readOne_writeField v (by omega)]
      simp only
      rw [ih (by omega)]
      simp only [Nat.cast_add, Nat.cast_one, List.cons_append]
      congr 2
      omega

theorem readOne_snd (t : IntListTraversal) :
    t.readOne.2.position = t.position + 1 ∧ t.readOne.2.length = t.length := by
  unfold IntListTraversal.readOne
  simp only
  split <;> exact ⟨rfl, rfl⟩

theorem lt_of_readOne {t : IntListTraversal} {v : Int32} (h : t.readOne.1 = some v) :
    t.position < t.length := by
  unfold IntListTraversal.readOne at h
  simp only at h
  split at h
  next hlt => exact hlt
  next => cases h

theorem fill_succ_of_full {cnt : Nat} {t : IntListTraversal}
    (h : (t.fill (cnt + 1)).1.length = cnt + 1) :
    t.position < t.length ∧ (t.readOne.2.fill cnt).1.length = cnt ∧
      (t.fill (cnt + 1)).2 = (t.readOne.2.fill cnt).2 := by
  rw [IntListTraversal.fill] at h ⊢
  generalize hread : t.readOne = read at h ⊢
  obtain ⟨_ | v, t'⟩ := read
  · cases h
  · exact ⟨lt_of_readOne (congrArg Prod.fst hread), Nat.succ.inj h, rfl⟩

/-- The list has to be long enough for what is read from it. -/
theorem add_le_of_fill {cnt : Nat} {t : IntListTraversal} (h : (t.fill cnt).1.length = cnt)
    (hle : t.position ≤ t.length ∨ 0 < cnt) :
    t.position + cnt ≤ t.length ∧ (t.fill cnt).2.position = t.position + cnt ∧
      (t.fill cnt).2.length = t.length := by
  induction cnt generalizing t with
  | zero => exact ⟨by simpa using hle, by simp [IntListTraversal.fill], rfl⟩
  | succ cnt ih =>
      obtain ⟨hlt, hrest, hsame⟩ := fill_succ_of_full h
      obtain ⟨hposition, hlength⟩ := readOne_snd t
      obtain ⟨hle', hposition', hlength'⟩ := ih hrest (.inl (by omega))
      rw [hsame, hposition', hlength']
      exact ⟨by omega, by omega, hlength⟩

/-! ## Rows -/

namespace DicEntryBuffer

variable {buf : DicEntryBuffer}

theorem nextData_ended (hlength : buf.remainingData.length ≠ 0)
    (h : buf.remainingData.position = buf.remainingData.length) : buf.nextData = (false, buf) := by
  unfold nextData IntListTraversal.remaining
  rw [if_neg hlength, if_pos (by omega)]

theorem nextData_read (hlength : buf.remainingData.length ≠ 0)
    (h : buf.remainingData.position ≠ buf.remainingData.length) :
    buf.nextData.1 = ((buf.remainingData.fill buf.numData).1.length == buf.numData) ∧
      buf.nextData.2.remainingData = (buf.remainingData.fill buf.numData).2 ∧
      buf.nextData.2.numData = buf.numData ∧
      buf.nextData.2.dataBuffer = (buf.remainingData.fill buf.numData).1 ++
        buf.dataBuffer.drop (buf.remainingData.fill buf.numData).1.length := by
  unfold nextData IntListTraversal.remaining
  rw [if_neg hlength, if_neg (by omega)]
  exact ⟨rfl, rfl, rfl, rfl⟩

/-- The rows that are stored with the features are counted down. -/
theorem nextData_stored (hlength : buf.remainingData.length = 0) :
    (buf.nextData.1 = true ↔ 1 ≤ buf.rowsLeft) ∧
      (1 ≤ buf.rowsLeft → buf.nextData.2.rowsLeft = buf.rowsLeft - 1) ∧
      buf.nextData.2.remainingData = buf.remainingData ∧ buf.nextData.2.data = buf.data := by
  unfold nextData
  rw [if_pos hlength]
  refine ⟨?_, fun hle => ?_, rfl, ?_⟩
  · rw [decide_eq_true_iff]
    omega
  · have hlt : buf.rowsLeft < 2 ^ 31 := Int32.toInt_lt _
    have hpos : 0 < buf.dataBuffer.length := by
      rw [buf.dataBuffer_length]
      decide
    show ((buf.dataBuffer.set 0 (Int32.ofInt (buf.rowsLeft - 1))).getD 0 0).toInt = _
    rw [List.getD_eq_getElem?_getD, List.getElem?_set_self hpos, Option.getD_some,
      Int32.toInt_ofInt_of_le (by omega) (by omega)]
  · unfold data
    simp only
    rw [if_pos hlength, if_pos hlength]

/-- A buffer that reads rows of an alias does not return more values than are counted. -/
theorem Yields.length_le {rows : List (List Int32)} (h : buf.Yields rows)
    (hlength : buf.remainingData.length ≠ 0) (hdata : 0 < buf.numData) (hrows : rows ≠ []) :
    buf.remainingData.position + rows.length * buf.numData ≤ buf.remainingData.length := by
  induction rows generalizing buf with
  | nil => exact absurd rfl hrows
  | cons row rows ih =>
      obtain ⟨hnext, -, hrest⟩ := h
      have hposition : buf.remainingData.position ≠ buf.remainingData.length := by
        intro hend
        rw [nextData_ended hlength hend] at hnext
        cases hnext
      obtain ⟨hfull, hremaining, hcount, -⟩ := nextData_read hlength hposition
      rw [hnext] at hfull
      obtain ⟨hle, hmoved, hsame⟩ := add_le_of_fill (beq_iff_eq.mp hfull.symm) (.inr hdata)
      rw [← hremaining] at hmoved hsame
      by_cases hnil : rows = []
      · subst hnil
        simpa using hle
      · have hrest' := ih hrest (by rw [hsame]; exact hlength) (hcount ▸ hdata) hnil
        rw [hmoved, hsame, hcount] at hrest'
        rw [List.length_cons, Nat.cast_succ, Int.add_mul]
        omega

/-- The rows of an alias are read one after another. -/
theorem yields_alias {rows : List (List Int32)} {rest : List UInt8} {length position : Int}
    {begin_ : Nat} (hdata : 0 < buf.numData) (hrows : ∀ row ∈ rows, row.length = buf.numData)
    (hlength : length ≠ 0) (hend : position + rows.length * buf.numData = length)
    (h : buf.remainingData =
      ⟨length, position, rows.flatMap (·.flatMap writeField) ++ rest, begin_⟩) :
    buf.Yields rows := by
  have hlength' : buf.remainingData.length ≠ 0 := by
    rw [h]
    exact hlength
  induction rows generalizing buf position with
  | nil =>
      have hended : buf.remainingData.position = buf.remainingData.length := by
        rw [h]
        simpa using hend
      exact congrArg Prod.fst (nextData_ended hlength' hended)
  | cons row rows ih =>
      have hrow := hrows row List.mem_cons_self
      have hmul : 0 ≤ (rows.length : Int) * buf.numData := by positivity
      rw [List.length_cons, Nat.cast_succ, Int.add_mul] at hend
      have hfill : buf.remainingData.fill buf.numData = (row, ⟨length, position + buf.numData,
          rows.flatMap (·.flatMap writeField) ++ rest, begin_⟩) := by
        rw [h, List.flatMap_cons, List.append_assoc, ← hrow]
        exact fill_flatMap row (by omega)
      obtain ⟨hnext, hremaining, hcount, hbuffer⟩ := nextData_read hlength' (by rw [h]; simp only; omega)
      rw [hfill] at hnext hremaining hbuffer
      simp only at hnext hremaining hbuffer
      refine ⟨hnext.trans (beq_iff_eq.mpr hrow), ?_, ?_⟩
      · unfold data
        rw [hremaining, if_neg hlength, hbuffer, hcount, ← hrow]
        exact List.take_left
      · refine ih (hcount ▸ hdata) (fun r hr => ?_) ?_ hremaining ?_
        · rw [hcount]
          exact hrows r (List.mem_cons_of_mem _ hr)
        · rw [hcount]
          omega
        · rw [hremaining]
          exact hlength

theorem yields_stored {rows : List (List Int32)} (hlength : buf.remainingData.length = 0) :
    buf.Yields rows ↔ (rows.length : Int) = max buf.rowsLeft 0 ∧ ∀ row ∈ rows, row = buf.data := by
  induction rows generalizing buf with
  | nil =>
      have hnext := (nextData_stored hlength).1
      show buf.nextData.1 = false ↔ _
      rw [← Bool.not_eq_true, hnext]
      simp only [List.length_nil, Nat.cast_zero, List.not_mem_nil, false_imp_iff, implies_true,
        and_true]
      omega
  | cons row rows ih =>
      obtain ⟨hnext, hleft, hremaining, hdata⟩ := nextData_stored hlength
      show buf.nextData.1 = true ∧ buf.nextData.2.data = row ∧ buf.nextData.2.Yields rows ↔ _
      rw [hnext, ih (by rw [hremaining]; exact hlength), hdata]
      simp only [List.mem_cons, forall_eq_or_imp, List.length_cons, Nat.cast_succ]
      constructor
      · rintro ⟨hle, rfl, hcount, hall⟩
        rw [hleft hle] at hcount
        exact ⟨by omega, rfl, hall⟩
      · rintro ⟨hcount, rfl, hall⟩
        have hle : 1 ≤ buf.rowsLeft := by omega
        rw [hleft hle]
        exact ⟨hle, rfl, by omega, hall⟩

/-! ## Filling the buffer -/

theorem fillFromStorage_singular {ptr : EntryPtr} {entryData : List UInt8} {values : List Int32}
    {t : IntListTraversal} (hptr : EntryPtr.isAlias ptr = false)
    (hfill : (rawWithLimit entryData (EntryPtr.dicPtr ptr) (buf.numFeatures + buf.numData : Nat)).fill
      (buf.numFeatures + buf.numData) = (values, t))
    (hlength : values.length = buf.numFeatures + buf.numData) :
    ∃ filled, buf.fillFromStorage ptr entryData = some (true, filled) ∧
      filled.features = values.take buf.numFeatures ∧ filled.remainingData.length = 0 ∧
      filled.rowsLeft = 1 ∧ filled.data = values.drop buf.numFeatures := by
  have hcounts := buf.counts_le
  unfold fillFromStorage
  simp only [hptr, Bool.false_eq_true, ↓reduceIte, hfill]
  rw [dif_pos (by omega), if_neg (by omega)]
  refine ⟨_, rfl, ?_, rfl, ?_, ?_⟩
  · show (values ++ buf.featureBuffer.drop values.length).take buf.numFeatures = _
    rw [List.take_append_of_le_length (by omega)]
  · show ((buf.dataBuffer.set 0 1).getD 0 0).toInt = 1
    have hpos : 0 < buf.dataBuffer.length := by
      rw [buf.dataBuffer_length]
      decide
    rw [List.getD_eq_getElem?_getD, List.getElem?_set_self hpos]
    rfl
  · show ((values ++ buf.featureBuffer.drop values.length).drop buf.numFeatures).take buf.numData = _
    rw [List.drop_append_of_le_length (by omega), List.take_append_of_le_length
      (by rw [List.length_drop]; omega), List.take_of_length_le (by rw [List.length_drop]; omega)]

theorem fillFromStorage_alias {ptr : EntryPtr} {entryData : List UInt8} {features : List Int32}
    {numAlias : Int32} {t : IntListTraversal} (hptr : EntryPtr.isAlias ptr = true)
    (hfill : (rawWithLimit entryData (EntryPtr.dicPtr ptr) (buf.numFeatures + 1 : Nat)).fill
      (buf.numFeatures + 1) = (features ++ [numAlias], t))
    (hlength : features.length = buf.numFeatures) :
    if buf.numFeatures < JPP_MAX_DIC_FIELDS then
      ∃ filled, buf.fillFromStorage ptr entryData = some (true, filled) ∧
        filled.features = features ∧ filled.numData = buf.numData ∧
        filled.rowsLeft = buf.rowsLeft ∧
        filled.remainingData = rawWithLimit entryData (EntryPtr.dicPtr ptr + t.numReadBytes)
          (UInt32.ofNat buf.numData * numAlias.toUInt32).toInt32.toInt ∧
        (filled.featureBuffer.drop filled.numFeatures).take filled.numData =
          (numAlias :: buf.featureBuffer.drop (buf.numFeatures + 1)).take buf.numData
    else buf.fillFromStorage ptr entryData = none := by
  have hvalues : (features ++ [numAlias]).length = buf.numFeatures + 1 := by
    rw [List.length_append, hlength, List.length_singleton]
  unfold fillFromStorage
  simp only [hptr, ↓reduceIte, hfill]
  split
  next hlt =>
    rw [dif_pos (by omega), if_neg (by omega)]
    have hget : (features ++ [numAlias] ++
        buf.featureBuffer.drop (features ++ [numAlias]).length).getD buf.numFeatures 0 = numAlias := by
      rw [List.getD_eq_getElem?_getD, List.append_assoc, List.getElem?_append_right (by omega), hlength,
        Nat.sub_self]
      rfl
    refine ⟨_, rfl, ?_, rfl, rfl, ?_, ?_⟩
    · show (features ++ [numAlias] ++
        buf.featureBuffer.drop (features ++ [numAlias]).length).take buf.numFeatures = features
      rw [List.append_assoc, List.take_append_of_le_length (by omega), List.take_of_length_le (by omega)]
    · show rawWithLimit _ _ (UInt32.ofNat buf.numData * ((features ++ [numAlias] ++
        buf.featureBuffer.drop (features ++ [numAlias]).length).getD buf.numFeatures
          0).toUInt32).toInt32.toInt = _
      rw [hget]
    · show ((features ++ [numAlias] ++ buf.featureBuffer.drop
        (features ++ [numAlias]).length).drop buf.numFeatures).take buf.numData = _
      rw [List.append_assoc, List.drop_append_of_le_length (by omega),
        List.drop_of_length_le (by omega), hvalues]
      rfl
  next hge => rw [dif_neg (by omega)]

end DicEntryBuffer

/-! ## The entry -/

theorem toInt_of_lt {k : Nat} (h : k < 2 ^ 31) :
    (UInt64.ofNat k).toUInt32.toInt32.toInt = k := by
  have hnat : (UInt64.ofNat k).toUInt32.toNat = k := by
    rw [UInt64.toNat_toUInt32, UInt64.toNat_ofNat']
    omega
  show (UInt64.ofNat k).toUInt32.toBitVec.toInt = k
  rw [BitVec.toInt_eq_toNat_cond]
  simp only [UInt32.toNat_toBitVec, hnat]
  rw [if_pos (by omega)]

theorem isAlias_even (k : Nat) : EntryPtr.isAlias ((k * 2 : Nat) : Int) = false := by
  have heven (i : Int) (h : i = k * 2) : ¬(0 ≤ i ∧ i % 2 = 1) := by omega
  exact decide_eq_false (heven _ (by rw [Nat.cast_mul]; rfl))

theorem isAlias_odd (k : Nat) : EntryPtr.isAlias ((k * 2 + 1 : Nat) : Int) = true := by
  have hodd (i : Int) (h : i = k * 2 + 1) : 0 ≤ i ∧ i % 2 = 1 := by omega
  exact decide_eq_true (hodd _ (by rw [Nat.cast_succ, Nat.cast_mul]; rfl))

theorem dicPtr_even (k : Nat) : EntryPtr.dicPtr ((k * 2 : Nat) : Int) = k := by
  have hhalf (i : Int) (h : i = k * 2) : (i / 2).toNat = k := by omega
  exact hhalf _ (by rw [Nat.cast_mul]; rfl)

theorem dicPtr_odd (k : Nat) : EntryPtr.dicPtr ((k * 2 + 1 : Nat) : Int) = k := by
  have hhalf (i : Int) (h : i = k * 2 + 1) : (i / 2).toNat = k := by omega
  exact hhalf _ (by rw [Nat.cast_succ, Nat.cast_mul]; rfl)

namespace DicEntryData

variable {numFeatures numData : Nat} (entry : DicEntryData numFeatures numData)
  {before after : List UInt8} {buf : DicEntryBuffer}

/-- The entry is read at the pointer that has been returned, and all of it. -/
def ReadsBack (before after : List UInt8) (buf : DicEntryBuffer) : Prop :=
  ∃ ptr filled, (entry.write before).1 = some ptr ∧
    buf.fillFromStorage ptr ((entry.write before).2 ++ after) = some (true, filled) ∧
    filled.features = entry.features ∧ filled.Yields entry.data.elems

/-- What stands for a row of an alias that counts no value. -/
def staleRow (buf : DicEntryBuffer) : List Int32 :=
  (entry.data.size.toUInt32.toInt32 :: buf.featureBuffer.drop (numFeatures + 1)).take numData

theorem readsBack_singular {row : List Int32} (hrow : entry.data.elems = [row])
    (hfeatures : buf.numFeatures = numFeatures) (hdata : buf.numData = numData)
    (hptr : before.length < 2 ^ 30) : entry.ReadsBack before after buf := by
  have hlength := entry.data_length row (by rw [hrow]; exact List.mem_singleton_self row)
  have hwrite : entry.write before = (some ((before.length * 2 : Nat) : Int),
      before ++ entry.features.flatMap writeField ++ row.flatMap writeField) := by
    unfold write
    simp only [hrow]
    rw [toInt_of_lt (by omega)]
  have hvalues : (entry.features ++ row).length = buf.numFeatures + buf.numData := by
    rw [List.length_append, entry.features_length, hlength, hfeatures, hdata]
  have hbytes : (entry.write before).2 ++ after =
      before ++ ((entry.features ++ row).flatMap writeField ++ after) := by
    rw [hwrite, List.flatMap_append, List.append_assoc, List.append_assoc, List.append_assoc]
  obtain ⟨t, hfill⟩ : ∃ t, (rawWithLimit ((entry.write before).2 ++ after)
      (EntryPtr.dicPtr ((before.length * 2 : Nat) : Int)) (buf.numFeatures + buf.numData : Nat)).fill
        (buf.numFeatures + buf.numData) = (entry.features ++ row, t) := by
    unfold rawWithLimit
    rw [hbytes, dicPtr_even, List.drop_left, ← hvalues]
    exact ⟨_, fill_flatMap _ (by omega)⟩
  obtain ⟨filled, hfilled, hfeat, hlen, hleft, hrest⟩ :=
    DicEntryBuffer.fillFromStorage_singular (isAlias_even before.length) hfill hvalues
  have hsplit : buf.numFeatures = entry.features.length := hfeatures.trans entry.features_length.symm
  refine ⟨_, filled, congrArg Prod.fst hwrite, hfilled, ?_, ?_⟩
  · rw [hfeat, hsplit, List.take_left]
  · rw [hrow, DicEntryBuffer.yields_stored hlen, hleft, hrest, hsplit, List.drop_left]
    refine ⟨rfl, fun r hr => List.mem_singleton.mp hr⟩

theorem write_alias (hrows : 2 ≤ entry.data.elems.length) (hptr : before.length < 2 ^ 30) :
    entry.write before = (some ((before.length * 2 + 1 : Nat) : Int),
      before ++ (entry.features.flatMap writeField ++ (writeVarint entry.data.size ++
        entry.data.elems.flatMap (·.flatMap writeField)))) := by
  have hnat : (UInt64.ofNat (before.length * 2 + 1)).toNat = before.length * 2 + 1 := by
    rw [UInt64.toNat_ofNat']
    omega
  unfold write
  simp only
  split
  next row hrow =>
    rw [hrow, List.length_singleton] at hrows
    omega
  next =>
    rw [if_neg (by omega), toInt_of_lt (by omega)]
    simp only [List.append_assoc]

/-- The bytes of the rows of an alias stand behind the number of its rows. -/
theorem readsBack_alias (hrows : 2 ≤ entry.data.elems.length)
    (hfeatures : buf.numFeatures = numFeatures) (hdata : buf.numData = numData)
    (hptr : before.length < 2 ^ 30) :
    if numFeatures < JPP_MAX_DIC_FIELDS then
      ∃ filled : DicEntryBuffer, filled.numData = numData ∧ filled.rowsLeft = buf.rowsLeft ∧
        (∃ begin_, filled.remainingData =
          ⟨(UInt32.ofNat numData * entry.data.size.toUInt32).toInt32.toInt, 0,
            entry.data.elems.flatMap (·.flatMap writeField) ++ after, begin_⟩) ∧
        (filled.remainingData.length = 0 → filled.data = entry.staleRow buf) ∧
        (entry.ReadsBack before after buf ↔ filled.Yields entry.data.elems)
    else ¬entry.ReadsBack before after buf := by
  have hwrite := entry.write_alias hrows hptr
  have hbytes : (entry.write before).2 ++ after =
      before ++ (entry.features.flatMap writeField ++ (writeVarint entry.data.size ++
        (entry.data.elems.flatMap (·.flatMap writeField) ++ after))) := by
    rw [hwrite]
    simp only [List.append_assoc]
  have hsize : entry.data.size.toUInt32.toInt32.toUInt32 = entry.data.size.toUInt32 := by simp
  have hlength : entry.features.length = buf.numFeatures := entry.features_length.trans hfeatures.symm
  obtain ⟨t, hfill, hread⟩ : ∃ t, (rawWithLimit ((entry.write before).2 ++ after)
      (EntryPtr.dicPtr ((before.length * 2 + 1 : Nat) : Int)) (buf.numFeatures + 1 : Nat)).fill
        (buf.numFeatures + 1) = (entry.features ++ [entry.data.size.toUInt32.toInt32], t) ∧
      t.numReadBytes = (entry.features.flatMap writeField).length +
        (writeVarint entry.data.size).length := by
    unfold rawWithLimit
    rw [hbytes, dicPtr_odd, List.drop_left, ← hlength]
    refine ⟨_, fill_flatMap_size _ _ (by omega), ?_⟩
    unfold IntListTraversal.numReadBytes
    simp only [List.length_append]
    omega
  have hrest : ((entry.write before).2 ++ after).drop (EntryPtr.dicPtr
      ((before.length * 2 + 1 : Nat) : Int) + t.numReadBytes) =
        entry.data.elems.flatMap (·.flatMap writeField) ++ after := by
    rw [hbytes, dicPtr_odd, hread, List.drop_length_add_append, List.drop_length_add_append,
      List.drop_left]
  have halias := DicEntryBuffer.fillFromStorage_alias (isAlias_odd before.length) hfill hlength
  rw [hfeatures] at halias
  split
  next hlt =>
    rw [if_pos hlt] at halias
    obtain ⟨filled, hfilled, hfeat, hnum, hleft, hremaining, hstale⟩ := halias
    have hremaining' : ∃ begin_, filled.remainingData =
        ⟨(UInt32.ofNat numData * entry.data.size.toUInt32).toInt32.toInt, 0,
          entry.data.elems.flatMap (·.flatMap writeField) ++ after, begin_⟩ := by
      rw [hremaining, hdata, hsize]
      unfold rawWithLimit
      rw [hrest]
      exact ⟨_, rfl⟩
    have hdata' (hzero : filled.remainingData.length = 0) : filled.data = entry.staleRow buf := by
      unfold DicEntryBuffer.data staleRow
      rw [if_pos hzero, hstale, hdata]
    refine ⟨filled, hnum.trans hdata, hleft, hremaining', hdata', ?_, fun hyields =>
      ⟨_, filled, congrArg Prod.fst hwrite, hfilled, hfeat, hyields⟩⟩
    rintro ⟨ptr, filled', hptr', hfilled', -, hyields⟩
    rw [hwrite] at hptr'
    cases hptr'
    rw [hfilled] at hfilled'
    cases hfilled'
    exact hyields
  next hge =>
    rw [if_neg hge] at halias
    rintro ⟨ptr, filled, hptr', hfilled, -⟩
    rw [hwrite] at hptr'
    cases hptr'
    rw [halias] at hfilled
    cases hfilled

/-- The number of values is counted with 32 bits. -/
theorem toInt_mul_size (h : numData ≤ JPP_MAX_DIC_FIELDS) :
    (UInt32.ofNat numData * entry.data.size.toUInt32).toInt32.toInt =
      if 2 * (entry.data.elems.length * numData % 2 ^ 32) < 2 ^ 32 then
        ((entry.data.elems.length * numData % 2 ^ 32 : Nat) : Int)
      else ((entry.data.elems.length * numData % 2 ^ 32 : Nat) : Int) - (2 ^ 32 : Nat) := by
  show (UInt32.ofNat numData * entry.data.size.toUInt32).toBitVec.toInt = _
  have hnum : (UInt32.ofNat numData).toNat = numData := by
    rw [UInt32.toNat_ofNat', Nat.mod_eq_of_lt (by unfold JPP_MAX_DIC_FIELDS at h; omega)]
  rw [BitVec.toInt_eq_toNat_cond, UInt32.toNat_toBitVec, UInt32.toNat_mul, hnum,
    UInt64.toNat_toUInt32, StdList.toNat_size, Nat.mul_mod_mod, Nat.mul_comm numData]

/-- The features and the rows of an entry are read back, and no more rows, exactly when it is a singular
one, its values are counted and there are some of them, or the rest of an earlier entry in the buffer
happens to be the same. -/
theorem reads_back_iff (hrows : 1 ≤ entry.data.elems.length)
    (hfeatures : buf.numFeatures = numFeatures) (hdata : buf.numData = numData)
    (hptr : before.length < 2 ^ 30) :
    entry.ReadsBack before after buf ↔ entry.data.elems.length = 1 ∨
      (0 < entry.data.elems.length * numData ∧ entry.data.elems.length * numData < 2 ^ 31) ∨
      (entry.data.elems.length * numData % 2 ^ 32 = 0 ∧ numFeatures < JPP_MAX_DIC_FIELDS ∧
        buf.rowsLeft = entry.data.elems.length ∧
        ∀ row ∈ entry.data.elems, row = entry.staleRow buf) := by
  have hcounts := buf.counts_le
  by_cases hone : entry.data.elems.length = 1
  · obtain ⟨row, hrow⟩ := List.length_eq_one_iff.mp hone
    exact iff_of_true (entry.readsBack_singular hrow hfeatures hdata hptr) (.inl hone)
  have halias := @readsBack_alias numFeatures numData entry before after buf (by omega) hfeatures
    hdata hptr
  split at halias
  next hlt =>
    obtain ⟨filled, hnum, hleft, ⟨begin_, hremaining⟩, hstale, hiff⟩ := halias
    rw [hiff]
    have hcount := entry.toInt_mul_size (by omega)
    generalize (UInt32.ofNat numData * entry.data.size.toUInt32).toInt32.toInt = length
      at hremaining hcount
    by_cases hzero : entry.data.elems.length * numData % 2 ^ 32 = 0
    · -- no value is counted: the rows are taken to be stored with the features
      have hlength : filled.remainingData.length = 0 := by
        rw [hremaining]
        exact hcount.trans (by rw [hzero]; rfl)
      rw [DicEntryBuffer.yields_stored hlength, hleft, hstale hlength]
      constructor
      · rintro ⟨hcount, hall⟩
        exact .inr (.inr ⟨hzero, hlt, by omega, hall⟩)
      · rintro (h | h | ⟨-, -, hcount, hall⟩)
        · exact absurd h hone
        · omega
        · exact ⟨by omega, hall⟩
    · have hlength : filled.remainingData.length ≠ 0 := by
        rw [hremaining]
        show length ≠ 0
        split at hcount <;> omega
      have hcolumns : 0 < filled.numData := by
        rw [hnum]
        refine Nat.pos_of_ne_zero fun h => hzero ?_
        exact (congrArg (entry.data.elems.length * · % 2 ^ 32) h).trans (Nat.zero_mod _)
      constructor
      · intro hyields
        have hle := hyields.length_le hlength hcolumns (by rintro h; rw [h] at hrows; cases hrows)
        rw [hremaining, hnum] at hle
        simp only [← Nat.cast_mul] at hle
        refine .inr (.inl ?_)
        split at hcount <;> omega
      · rintro (h | ⟨-, h⟩ | ⟨h, -⟩)
        · exact absurd h hone
        · refine DicEntryBuffer.yields_alias hcolumns (fun row hmem => ?_) ?_ ?_ hremaining
          · rw [hnum]
            exact entry.data_length row hmem
          · rw [hremaining] at hlength
            exact hlength
          · rw [hnum, ← Nat.cast_mul]
            split at hcount <;> omega
        · exact absurd h hzero
  next hge =>
    refine iff_of_false halias ?_
    rintro (h | ⟨hpos, -⟩ | ⟨-, h, -⟩)
    · exact hone h
    · have hcolumns := (Nat.mul_pos_iff_of_pos_left hrows).mp hpos
      omega
    · exact hge h

end DicEntryData

/-- A buffer that has not read an entry. -/
def freshBuffer (numFeatures numData : Nat) (h : numFeatures + numData ≤ JPP_MAX_DIC_FIELDS) :
    DicEntryBuffer :=
  ⟨numFeatures, numData, List.replicate JPP_MAX_DIC_FIELDS 0, List.replicate JPP_MAX_DIC_FIELDS 0,
    ⟨0, 0, [], 0⟩, List.length_replicate, List.length_replicate, h⟩

namespace DicEntryData

def twoRows : DicEntryData 1 1 := ⟨[5], ⟨[[300], [7]], by decide⟩, rfl, by decide⟩

theorem reads_back_iff_two :
    twoRows.ReadsBack [1, 2] [9] (freshBuffer 1 1 (by decide)) :=
  Iff.mpr (reads_back_iff twoRows (by decide) rfl rfl (by decide)) (.inr (.inl (by decide)))

def noColumns : DicEntryData 1 0 := ⟨[5], ⟨[[], []], by decide⟩, rfl, by decide⟩

/-- Without a data column the two rows of an alias are lost. -/
theorem no_columns_not_readsBack :
    ¬noColumns.ReadsBack [1, 2] [9] (freshBuffer 1 0 (by decide)) := by
  have halias := @readsBack_alias 1 0 noColumns [1, 2] [9] (freshBuffer 1 0 (by decide)) (by decide) rfl rfl (by decide)
  rw [if_pos (by decide)] at halias
  obtain ⟨filled, -, hleft, ⟨begin_, hremaining⟩, -, hiff⟩ := halias
  have hlength : filled.remainingData.length = 0 := by
    rw [hremaining]
    rfl
  rw [hiff, DicEntryBuffer.yields_stored hlength, hleft]
  rintro ⟨hcount, -⟩
  exact absurd hcount (by decide)

end DicEntryData

end Jumanpp.Core.Dic
