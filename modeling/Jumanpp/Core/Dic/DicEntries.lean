import Jumanpp.Core.Analysis.LatticeTypes
import Jumanpp.Util.CodedIo

/-!
# The entries of the dictionary

An entry is a row of features and one row or several rows of data.  All entries are written into one
buffer; the lowest bit of a pointer to an entry says whether a number of rows stands between.
-/

namespace Jumanpp.Core.Dic

open Jumanpp.Util Jumanpp.Core.Analysis

/-- The default of the build. -/
def JPP_MAX_DIC_FIELDS : Nat := 16

/-! ## Writing -/

/-- `writeVarint(static_cast<u32>(f))`. -/
def writeField (f : Int32) : List UInt8 :=
  writeVarint f.toUInt32.toUInt64

/-- The rows of one entry have the lengths of the builder's features and columns. -/
structure DicEntryData (numFeatures numData : Nat) where
  features : List Int32
  data : StdList (List Int32)
  features_length : features.length = numFeatures
  data_length : ∀ row ∈ data.elems, row.length = numData

/-- The pointer, or nothing when the dictionary is too large, and the buffer. -/
def DicEntryData.write {numFeatures numData : Nat} (entry : DicEntryData numFeatures numData)
    (buf : List UInt8) : Option EntryPtr × List UInt8 :=
  let ptr := buf.length
  let buf := buf ++ entry.features.flatMap writeField
  match entry.data.elems with
  | [row] =>
      -- a singular node; the pointer is cast without a check
      (some (UInt64.ofNat (ptr * 2)).toUInt32.toInt32.toInt, buf ++ row.flatMap writeField)
  | rows =>
      let buf := buf ++ writeVarint entry.data.size ++ rows.flatMap (·.flatMap writeField)
      let resultPtr := UInt64.ofNat (ptr * 2 + 1)
      if resultPtr.toNat > 2 ^ 31 - 1 then (none, buf)
      else (some resultPtr.toUInt32.toInt32.toInt, buf)

/-! ## Reading -/

/-- `begin` is the number of bytes that the parser was made with. -/
structure IntListTraversal where
  length : Int
  position : Int
  unread : List UInt8
  begin : Nat

namespace IntListTraversal

variable (t : IntListTraversal)

def remaining : Int := t.length - t.position

/-- The number is read even when the list is at its end. -/
def readOne : Option Int32 × IntListTraversal :=
  let (value, unread) := readVarint64 t.unread
  let t' := { t with position := t.position + 1, unread := unread }
  if t.position < t.length then (value.map (·.toUInt32.toInt32), t') else (none, t')

/-- The numbers that have been read, `cnt` at most. -/
def fill : Nat → IntListTraversal → List Int32 × IntListTraversal
  | 0, t => ([], t)
  | cnt + 1, t =>
      match t.readOne with
      | (none, t) => ([], t)
      | (some value, t) =>
          let (values, t) := fill cnt t
          (value :: values, t)

theorem length_fill_le (cnt : Nat) (t : IntListTraversal) : (t.fill cnt).1.length ≤ cnt := by
  induction cnt generalizing t with
  | zero => exact Nat.le_refl 0
  | succ cnt ih =>
      rw [fill]
      split
      · exact Nat.zero_le _
      next value t' _ => exact Nat.succ_le_succ (ih t')

def numReadBytes : Nat := t.begin - t.unread.length

def clear : IntListTraversal := { t with length := 0, position := 0 }

end IntListTraversal

/-- `IntStorageReader::rawWithLimit`. -/
def rawWithLimit (data : List UInt8) (ptr : Nat) (length : Int) : IntListTraversal :=
  ⟨length, 0, data.drop ptr, (data.drop ptr).length⟩

/-- The numbers of features and of data columns fit the arrays; the builder of the dictionary checks
it. -/
structure DicEntryBuffer where
  numFeatures : Nat
  numData : Nat
  featureBuffer : List Int32
  dataBuffer : List Int32
  remainingData : IntListTraversal
  featureBuffer_length : featureBuffer.length = JPP_MAX_DIC_FIELDS
  dataBuffer_length : dataBuffer.length = JPP_MAX_DIC_FIELDS
  counts_le : numFeatures + numData ≤ JPP_MAX_DIC_FIELDS

namespace DicEntryBuffer

variable (buf : DicEntryBuffer)

def features : List Int32 := buf.featureBuffer.take buf.numFeatures

/-- `dataBuffer_[0]`: when the data is stored in features, the number of rows that are left. -/
def rowsLeft : Int := (buf.dataBuffer.getD 0 0).toInt

def data : List Int32 :=
  if buf.remainingData.length = 0 then (buf.featureBuffer.drop buf.numFeatures).take buf.numData
  else buf.dataBuffer.take buf.numData

/-- The decrement of the least number of the type is undefined in the source. -/
def nextData : Bool × DicEntryBuffer :=
  if buf.remainingData.length = 0 then
    (decide (0 ≤ buf.rowsLeft - 1),
      { buf with
        dataBuffer := buf.dataBuffer.set 0 (Int32.ofInt (buf.rowsLeft - 1))
        dataBuffer_length := by rw [List.length_set, buf.dataBuffer_length] })
  else if buf.remainingData.remaining = 0 then (false, buf)
  else
    let read := buf.remainingData.fill buf.numData
    (read.1.length == buf.numData,
      { buf with
        remainingData := read.2
        dataBuffer := read.1 ++ buf.dataBuffer.drop read.1.length
        dataBuffer_length := by
          have hle : read.1.length ≤ buf.numData := buf.remainingData.length_fill_le buf.numData
          have hcounts := buf.counts_le
          rw [List.length_append, List.length_drop, buf.dataBuffer_length]
          omega })

end DicEntryBuffer

def EntryPtr.isAlias (ptr : EntryPtr) : Bool := decide (0 ≤ ptr ∧ ptr % 2 = 1)

def EntryPtr.dicPtr (ptr : EntryPtr) : Nat := (ptr / 2).toNat

namespace DicEntryBuffer

variable (buf : DicEntryBuffer)

/-- `featureBuffer_` after numbers have been stored at its beginning. -/
def storeFeatures (values : List Int32) (h : values.length ≤ JPP_MAX_DIC_FIELDS) : DicEntryBuffer :=
  { buf with
    featureBuffer := values ++ buf.featureBuffer.drop values.length
    featureBuffer_length := by
      rw [List.length_append, List.length_drop, buf.featureBuffer_length]
      omega }

/-- Nothing stands for a store behind the end of `featureBuffer_`, which is undefined. -/
def fillFromStorage (ptr : EntryPtr) (entryData : List UInt8) : Option (Bool × DicEntryBuffer) :=
  let totalCnt := if EntryPtr.isAlias ptr then buf.numFeatures + 1 else buf.numFeatures + buf.numData
  let actualData := rawWithLimit entryData (EntryPtr.dicPtr ptr) totalCnt
  let read := actualData.fill totalCnt
  if h : read.1.length ≤ JPP_MAX_DIC_FIELDS then
    let filled := buf.storeFeatures read.1 h
    if read.1.length < totalCnt then some (false, filled)
    else if EntryPtr.isAlias ptr then
      let numAlias := filled.featureBuffer.getD buf.numFeatures 0
      let dataCnt := UInt32.ofNat buf.numData * numAlias.toUInt32
      let dataPtr := EntryPtr.dicPtr ptr + read.2.numReadBytes
      some (true, { filled with
        remainingData := rawWithLimit entryData dataPtr dataCnt.toInt32.toInt })
    else
      some (true, { filled with
        remainingData := filled.remainingData.clear
        dataBuffer := filled.dataBuffer.set 0 1
        dataBuffer_length := by rw [List.length_set, filled.dataBuffer_length] })
  else none

/-- Calling `nextData` until it returns false yields exactly `rows`. -/
def Yields : DicEntryBuffer → List (List Int32) → Prop
  | buf, [] => buf.nextData.1 = false
  | buf, row :: rows =>
      buf.nextData.1 = true ∧ buf.nextData.2.data = row ∧ buf.nextData.2.Yields rows

end DicEntryBuffer

end Jumanpp.Core.Dic
