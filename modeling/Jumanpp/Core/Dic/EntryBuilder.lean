import Jumanpp.Core.Dic.ListImportReads
import Jumanpp.Lib.Grouping

/-!
# The builder of the entries

The rows of the dictionary are collected by their surface, and rows of a surface with the same values of
the grouping fields make up one entry.  The entries of a surface are written as soon as the number of its
rows has been reached.  A row that is a pattern of an unknown word is written at once and not counted, so
that the entries of its surface are left until the end.
-/

namespace Jumanpp.Core.Dic

open Jumanpp.Lib Jumanpp.Util Jumanpp.Core.Analysis

/-- What is imported from a row: the field of the index column, the integers that `computeFeatures`
leaves, and the pointers of the other fields. -/
structure CsvRow (numFeatures numData : Nat) where
  lineNumber : Int
  surface : List UInt8
  features : List Int32
  data : List Int32
  features_length : features.length = numFeatures
  data_length : data.length = numData

/-- `DicEntryData` while its rows are collected. -/
structure CollectedEntry where
  features : List Int32
  data : List (List Int32)
  order : Nat

structure DicRawEntry where
  data : FlatMap (List Int32) CollectedEntry
  count : Nat

/-- What does not change when rows are imported.  `surfaceCounter` is the storage of `addSurface` and
still has the numbers of the strings. -/
structure EntryTableContext where
  dedupIdxes : List Nat
  realSurfaceStorage : List (StdString × Int32)
  surfaceCounter : FlatMap (List UInt8) Nat

structure EntryTableBuilder where
  ignoredRows : FlatMap Int Int32
  entryDataBuffer : List UInt8
  entriesWithField : FlatMap Int32 (List Int32)
  entries : FlatMap Int32 DicRawEntry

/-- The orders that the source leaves open: of the surfaces in a hash map, and of the entries of a surface
that `std::sort` compares as equal. -/
structure TableOrder where
  surfaces : MapOrder Int32 DicRawEntry
  reorder : FlatMap (List Int32) CollectedEntry → List CollectedEntry
  reorder_perm : ∀ m, (reorder m).Perm (m.entries.map Prod.snd)
  reorder_sorted : ∀ m, (reorder m).Pairwise fun p1 p2 => p1.order ≤ p2.order

/-! ## The first pass -/

/-- `addSurface` for all rows. -/
def computeStats {numFeatures numData : Nat} (rows : List (CsvRow numFeatures numData)) :
    FlatMap (List UInt8) Nat :=
  rows.foldl (fun counter row => counter.update row.surface 0 (· + 1)) FlatMap.empty

/-! ## Entries -/

namespace CollectedEntry

def new : CollectedEntry := ⟨[], [], 0⟩

/-- A new entry takes the features of its first row; `order` is assigned for every row. -/
def collect {numFeatures numData : Nat} (row : CsvRow numFeatures numData) (order : Nat)
    (v : CollectedEntry) : CollectedEntry where
  features := if v.features = [] then row.features else v.features
  data := v.data ++ [row.data]
  order := order

/-- The entry as it is written; a vector does not have more rows than its size can count. -/
def complete (numFeatures numData : Nat) (v : CollectedEntry) :
    Option (DicEntryData numFeatures numData) :=
  if h : v.features.length = numFeatures ∧ (∀ row ∈ v.data, row.length = numData) ∧
      v.data.length < 2 ^ 64 then
    some ⟨v.features, ⟨v.data, h.2.2⟩, h.1, h.2.1⟩
  else none

/-- Nothing stands for the exception. -/
def write (numFeatures numData : Nat) (v : CollectedEntry) (buf : List UInt8) :
    Option (Int32 × List UInt8) := do
  let entry ← v.complete numFeatures numData
  let ptr ← (entry.write buf).1
  some (Int32.ofInt ptr, (entry.write buf).2)

end CollectedEntry

namespace DicRawEntry

def empty : DicRawEntry := ⟨FlatMap.empty, 0⟩

/-- The size is read when the key is already there. -/
def add {numFeatures numData : Nat} (dedupFeature : List Int32) (row : CsvRow numFeatures numData)
    (obj : DicRawEntry) : DicRawEntry where
  data :=
    let order := (obj.data.update dedupFeature .new id).size
    obj.data.update dedupFeature .new (.collect row order)
  count := obj.count + 1

end DicRawEntry

namespace EntryTableContext

variable {numFeatures numData : Nat} (ctx : EntryTableContext)

/-- `gather`; the indices are those of features. -/
def gather (row : CsvRow numFeatures numData) : List Int32 :=
  ctx.dedupIdxes.map fun idx => row.features.getD idx 0

def surfaceOf (row : CsvRow numFeatures numData) : Int32 :=
  valueAt ctx.realSurfaceStorage row.surface

/-- `surfaceCounter_.valueOf(csv.field(surfaceIdx_))`. -/
def countOf (row : CsvRow numFeatures numData) : Int :=
  ((ctx.surfaceCounter.find row.surface).map Int.ofNat).getD (-1)

end EntryTableContext

/-! ## The second pass -/

namespace EntryTableBuilder

variable (numFeatures numData : Nat)

/-- The ignored rows have no pointer yet. -/
def initial (lines : FlatMap Int Int32) : EntryTableBuilder :=
  ⟨lines, [], FlatMap.empty, FlatMap.empty⟩

/-- `p->write(bldr)` and `trieBuilder.addEntry(surf, ptr)`. -/
def writeEntry (surf : Int32) (bldr : EntryTableBuilder) (p : CollectedEntry) :
    Option EntryTableBuilder := do
  let written ← p.write numFeatures numData bldr.entryDataBuffer
  some { bldr with
    entryDataBuffer := written.2
    entriesWithField := bldr.entriesWithField.update surf [] (· ++ [written.1]) }

/-- The loop over the sorted entries of a surface. -/
def writeEntries (order : TableOrder) (surf : Int32) (obj : DicRawEntry) (bldr : EntryTableBuilder) :
    Option EntryTableBuilder :=
  (order.reorder obj.data).foldlM (writeEntry numFeatures numData surf) bldr

variable {numFeatures numData}

/-- `DicEntryBag::add`. -/
def add (ctx : EntryTableContext) (bldr : EntryTableBuilder) (row : CsvRow numFeatures numData) :
    Option (Nat × EntryTableBuilder) :=
  if row.lineNumber ∈ bldr.ignoredRows.keys then do
    -- just write it
    let d := CollectedEntry.new.collect row 0
    let written ← d.write numFeatures numData bldr.entryDataBuffer
    some (0, { bldr with
      entryDataBuffer := written.2
      ignoredRows := bldr.ignoredRows.update row.lineNumber 0 fun _ => written.1 })
  else
    let obj := (((bldr.entries.find (ctx.surfaceOf row)).getD .empty).add (ctx.gather row) row)
    some (obj.count, { bldr with
      entries := bldr.entries.update (ctx.surfaceOf row) .empty (.add (ctx.gather row) row) })

/-- `DicEntryBag::write`; the surface has just been added. -/
def write (order : TableOrder) (ctx : EntryTableContext) (bldr : EntryTableBuilder)
    (row : CsvRow numFeatures numData) : Option (Nat × EntryTableBuilder) := do
  let obj ← bldr.entries.find (ctx.surfaceOf row)
  let bldr ← bldr.writeEntries numFeatures numData order (ctx.surfaceOf row) obj
  some (obj.count, { bldr with entries := bldr.entries.erase (ctx.surfaceOf row) })

/-- The entries that have been counted come with the builder. -/
def importOneLine (order : TableOrder) (ctx : EntryTableContext) (s : Nat × EntryTableBuilder)
    (row : CsvRow numFeatures numData) : Option (Nat × EntryTableBuilder) := do
  let (cnt, bldr) ← s.2.add ctx row
  if (cnt : Int) = ctx.countOf row then do
    let (written, bldr) ← bldr.write order ctx row
    some (s.1 + written, bldr)
  else some (s.1, bldr)

variable (numFeatures numData)

/-- What has not reached the number of its rows. -/
def writeRest (order : TableOrder) (bldr : EntryTableBuilder) : Option EntryTableBuilder := do
  let bldr ← (order.surfaces.order bldr.entries).foldlM
    (fun bldr it => bldr.writeEntries numFeatures numData order it.1 it.2) bldr
  some { bldr with entries := FlatMap.empty }

variable {numFeatures numData}

def importActualData (order : TableOrder) (ctx : EntryTableContext) (bldr : EntryTableBuilder)
    (rows : List (CsvRow numFeatures numData)) : Option (Nat × EntryTableBuilder) := do
  let (entryCnt, bldr) ← rows.foldlM (importOneLine order ctx) (0, bldr)
  let bldr ← bldr.writeRest numFeatures numData order
  some (entryCnt, bldr)

end EntryTableBuilder

/-! ## The index -/

/-- `entryPtrBuffer` and what the double array is built from. -/
structure TrieContents where
  entryPtrBuffer : List UInt8
  keys : List (StdString × Int32)

/-- The turn of the loop for one string of the index column. -/
def TrieContents.addKey (entriesWithField : FlatMap Int32 (List Int32)) (trie : TrieContents)
    (v : StdString × Int32) : TrieContents :=
  match entriesWithField.find v.2 with
  | some entries =>
      ⟨writePtrsAsDeltas entries trie.entryPtrBuffer,
        trie.keys ++ [(v.1, Int32.ofNat trie.entryPtrBuffer.length)]⟩
  | none => trie

/-- `DicTrieBuilder::buildTrie` over the strings in some order. -/
def buildTrie (entriesWithField : FlatMap Int32 (List Int32)) (strings : List (StdString × Int32)) :
    TrieContents :=
  strings.foldl (TrieContents.addKey entriesWithField) ⟨[], []⟩

end Jumanpp.Core.Dic
