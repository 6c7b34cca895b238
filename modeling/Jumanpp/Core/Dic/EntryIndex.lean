import Jumanpp.Core.Dic.EntryTable

/-!
# Looking the entries up

A string of the index column is a key of the double array if and only if it is the surface of a row.  The
list at its value leads to the entries of its groups, and each entry is read back with all its rows.
-/

namespace Jumanpp.Core.Dic

open Jumanpp.Lib Jumanpp.Util Jumanpp.Core.Analysis

variable {numFeatures numData : Nat}

/-! ## Reading an entry -/

theorem length_le_flatMap_writeField (values : List Int32) :
    values.length ≤ (values.flatMap writeField).length := by
  induction values with
  | nil => exact Nat.le_refl 0
  | cons v values ih =>
      have hpos : 0 < (writeField v).length := List.length_pos_iff.mpr (writeVarint_ne_nil _)
      rw [List.flatMap_cons, List.length_append, List.length_cons]
      omega

theorem mul_le_flatMap_rows {rows : List (List Int32)} (h : ∀ row ∈ rows, row.length = numData) :
    rows.length * numData ≤ (rows.flatMap (·.flatMap writeField)).length := by
  induction rows with
  | nil =>
      rw [List.length_nil, Nat.zero_mul]
      exact Nat.zero_le _
  | cons row rows ih =>
      have hrow := length_le_flatMap_writeField row
      have hrest := ih fun r hr => h r (List.mem_cons_of_mem _ hr)
      rw [h row List.mem_cons_self] at hrow
      rw [List.flatMap_cons, List.length_append, List.length_cons, Nat.succ_mul]
      omega

/-- Every value takes a byte of the buffer. -/
theorem DicEntryData.mul_le_write (entry : DicEntryData numFeatures numData)
    (before : List UInt8) : before.length + entry.data.elems.length * numData ≤
      (entry.write before).2.length := by
  have hrows := mul_le_flatMap_rows entry.data_length
  unfold DicEntryData.write
  simp only
  split
  next row hrow =>
    rw [hrow] at hrows ⊢
    simp only [List.flatMap_cons, List.flatMap_nil, List.append_nil, List.length_append] at hrows ⊢
    omega
  next =>
    split_ifs
    · simp only [List.length_append]
      omega
    · simp only [List.length_append]
      omega

theorem DicEntryData.readsBack_of_lt {entry : DicEntryData numFeatures numData}
    {before after : List UInt8} {buf : DicEntryBuffer} (hrows : 1 ≤ entry.data.elems.length)
    (hcolumns : 0 < numData) (hfeatures : buf.numFeatures = numFeatures)
    (hdata : buf.numData = numData) (hsize : (entry.write before).2.length < 2 ^ 30) :
    entry.ReadsBack before after buf := by
  have hcounts := buf.counts_le
  have hbytes := entry.mul_le_write before
  by_cases hone : entry.data.elems.length = 1
  · obtain ⟨row, hrow⟩ := List.length_eq_one_iff.mp hone
    exact entry.readsBack_singular hrow hfeatures hdata (by omega)
  have halias := @readsBack_alias numFeatures numData entry before after buf (by omega) hfeatures
    hdata (by omega)
  rw [if_pos (by omega)] at halias
  obtain ⟨filled, hnum, -, ⟨begin_, hremaining⟩, -, hiff⟩ := halias
  have hvalues : 0 < entry.data.elems.length * numData := Nat.mul_pos hrows hcolumns
  have hcount := entry.toInt_mul_size (by omega)
  rw [Nat.mod_eq_of_lt (by omega), if_pos (by omega)] at hcount
  rw [hcount] at hremaining
  refine hiff.mpr (DicEntryBuffer.yields_alias (by omega) (fun row hrow => ?_) ?_ ?_ hremaining)
  · rw [hnum]
    exact entry.data_length row hrow
  · omega
  · rw [hnum, zero_add, Nat.cast_mul]

/-- Whoever follows the pointer gets the features of the first row of the group, and then the data of
all rows of the group and of no other row. -/
def ReadsGroup (entryData : List UInt8) (ptr : Int32) (group : List (CsvRow numFeatures numData)) :
    Prop :=
  ∀ buf : DicEntryBuffer, buf.numFeatures = numFeatures → buf.numData = numData →
    ∃ filled, buf.fillFromStorage ptr.toInt entryData = some (true, filled) ∧
      group.head?.map CsvRow.features = some filled.features ∧
      filled.Yields (group.map CsvRow.data)

theorem StoredAs.readsGroup {entryData : List UInt8} {ptr : Int32} {v : CollectedEntry}
    {group : List (CsvRow numFeatures numData)}
    (h : StoredAs numFeatures numData entryData ptr v) (hv : Collects v group)
    (hcolumns : 0 < numData) (hsize : entryData.length < 2 ^ 30) :
    ReadsGroup entryData ptr group := by
  intro buf hfeatures hdata
  obtain ⟨entry, hentry, before, after, hptr, rfl⟩ := h
  unfold CollectedEntry.complete at hentry
  split at hentry
  next hcomplete =>
    cases hentry
    have hrows : 1 ≤ v.data.length := by
      obtain ⟨first, hfirst, -⟩ := Option.map_eq_some_iff.mp hv.1
      rw [hv.2, List.length_map]
      exact List.length_pos_of_mem (List.mem_of_head? hfirst)
    rw [List.length_append] at hsize
    have hwritten := Nat.lt_of_le_of_lt (Nat.le_add_right _ _) hsize
    obtain ⟨ptr', filled, hptr', hfilled, hfirst, hyields⟩ :=
      @DicEntryData.readsBack_of_lt numFeatures numData _ before after buf hrows hcolumns hfeatures
        hdata hwritten
    rw [hptr] at hptr'
    cases hptr'
    rw [hv.1, ← hv.2]
    exact ⟨filled, hfilled, congrArg some hfirst.symm, hyields⟩
  next => cases hentry

/-! ## The lists of pointers -/

theorem length_le_writePtrsAsDeltas (values : List Int32) (buffer : List UInt8) :
    buffer.length + values.length ≤ (writePtrsAsDeltas values buffer).length := by
  have hbytes : ∀ l : List Int32, l.length ≤
      (l.flatMap fun v => writeVarint v.toInt64.toUInt64).length := by
    intro l
    induction l with
    | nil => exact Nat.le_refl 0
    | cons v l ih =>
        have hpos := List.length_pos_iff.mpr (writeVarint_ne_nil v.toInt64.toUInt64)
        rw [List.flatMap_cons, List.length_append, List.length_cons]
        omega
  have hall := hbytes (deltaLoop (Int32.ofNat (sorted values).length - 1).toInt.toNat (sorted values))
  rw [length_deltaLoop, length_sorted] at hall
  unfold writePtrsAsDeltas
  simp only [List.length_append, length_sorted]
  omega

namespace TrieContents

variable {entriesWithField : FlatMap Int32 (List Int32)} {trie : TrieContents}
  {strings : List (StdString × Int32)}

theorem prefix_addKey (v : StdString × Int32) :
    trie.entryPtrBuffer <+: (trie.addKey entriesWithField v).entryPtrBuffer := by
  unfold addKey
  split
  · exact List.prefix_append _ _
  · exact List.prefix_rfl

theorem prefix_foldl (strings : List (StdString × Int32)) (trie : TrieContents) :
    trie.entryPtrBuffer <+: (strings.foldl (addKey entriesWithField) trie).entryPtrBuffer := by
  induction strings generalizing trie with
  | nil => exact List.prefix_rfl
  | cons v strings ih => exact (prefix_addKey v).trans (ih _)

/-- A string is a key when it has entries; its value is where its list begins. -/
theorem mem_keys_foldl {sp : StdString} {value : Int32} (hsp : ∀ v ∈ strings, v.1 ≠ sp) :
    (sp, value) ∈ (strings.foldl (addKey entriesWithField) trie).keys ↔ (sp, value) ∈ trie.keys := by
  induction strings generalizing trie with
  | nil => exact Iff.rfl
  | cons v strings ih =>
      rw [List.foldl_cons, ih fun w hw => hsp w (List.mem_cons_of_mem _ hw)]
      unfold addKey
      split
      · have hne := hsp v List.mem_cons_self
        rw [List.mem_append, List.mem_singleton]
        refine or_iff_left fun heq => hne (congrArg Prod.fst heq).symm
      · exact Iff.rfl

/-- The turn of one string among those of other strings. -/
theorem buildTrie_spec (hnodup : (strings.map Prod.fst).Nodup) {sp : StdString} {ptr : Int32}
    (hmem : (sp, ptr) ∈ strings)
    (hsize : (buildTrie entriesWithField strings).entryPtrBuffer.length < 2 ^ 31) :
    (entriesWithField.find ptr = none →
      ∀ value, (sp, value) ∉ (buildTrie entriesWithField strings).keys) ∧
    ∀ entries, entriesWithField.find ptr = some entries → entries ≠ [] → ∃ start,
      (∀ value, (sp, value) ∈ (buildTrie entriesWithField strings).keys ↔ value = start) ∧
      DecodesTo (buildTrie entriesWithField strings).entryPtrBuffer start (sorted entries) := by
  obtain ⟨before, after, rfl⟩ := List.append_of_mem hmem
  rw [List.map_append, List.map_cons, List.nodup_middle, List.nodup_cons, List.mem_append] at hnodup
  obtain ⟨hother, -⟩ := hnodup
  have hbefore : ∀ v ∈ before, v.1 ≠ sp :=
    fun v hv heq => hother (.inl (List.mem_map.mpr ⟨v, hv, heq⟩))
  have hafter : ∀ v ∈ after, v.1 ≠ sp :=
    fun v hv heq => hother (.inr (List.mem_map.mpr ⟨v, hv, heq⟩))
  unfold buildTrie at hsize ⊢
  rw [List.foldl_append, List.foldl_cons] at hsize ⊢
  have hfirst : ∀ value, (sp, value) ∉
      (before.foldl (addKey entriesWithField) ⟨[], []⟩).keys := by
    intro value
    rw [mem_keys_foldl hbefore]
    exact List.not_mem_nil
  generalize before.foldl (addKey entriesWithField) ⟨[], []⟩ = first at hsize hfirst ⊢
  constructor
  · intro hnone value
    rw [mem_keys_foldl hafter]
    simp only [addKey, hnone]
    exact hfirst value
  · intro entries hentries hne
    obtain ⟨later, hlater⟩ := @prefix_foldl entriesWithField after
      (first.addKey entriesWithField (sp, ptr))
    have hturn : first.addKey entriesWithField (sp, ptr) =
        ⟨writePtrsAsDeltas entries first.entryPtrBuffer,
          first.keys ++ [(sp, Int32.ofNat first.entryPtrBuffer.length)]⟩ := by
      simp only [addKey, hentries]
    refine ⟨Int32.ofNat first.entryPtrBuffer.length, fun value => ?_, ?_⟩
    · rw [mem_keys_foldl hafter, hturn, List.mem_append, List.mem_singleton, Prod.mk.injEq]
      simp [hfirst value]
    · have hlength := length_le_writePtrsAsDeltas entries first.entryPtrBuffer
      rw [← hlater, hturn] at hsize ⊢
      simp only [List.length_append] at hsize
      exact decodesTo_writePtrsAsDeltas entries _ later (by omega) (by omega)
        (List.length_pos_iff.mpr hne)

end TrieContents

/-! ## The dictionary -/

section Dictionary

variable {ctx : EntryTableContext} {storage : StringStorage} {forSort : List (StdString × Int32)}

/-- The pointer of a stored string is that of no other string, and not that of an unknown one. -/
theorem surfaceOf_iff (hsorted : storage.Sorted forSort) (hfits : storage.Fits forSort)
    (hstorage : ctx.realSurfaceStorage = (storage.makeStorage forSort).1) {e : StdString × Int32}
    (he : e ∈ ctx.realSurfaceStorage) (row : CsvRow numFeatures numData) :
    ctx.surfaceOf row = e.2 ↔ row.surface = e.1.elems := by
  have hkeys : (ctx.realSurfaceStorage.map (·.1.elems)).Nodup := by
    rw [hstorage]
    exact (StringStorage.keys_makeStorage hsorted).nodup_iff.mpr storage.mapping_nodup
  have hvalues : (ctx.realSurfaceStorage.map (·.2)).Nodup := by
    rw [hstorage]
    exact hfits.nodup_values
  unfold EntryTableContext.surfaceOf
  by_cases hknown : row.surface ∈ ctx.realSurfaceStorage.map (·.1.elems)
  · obtain ⟨entry, hentry, hstring, hvalue⟩ := exists_entry hknown
    rw [← hvalue, ← hstring]
    constructor
    · intro heq
      rw [List.inj_on_of_nodup_map hvalues hentry he heq]
    · intro heq
      rw [List.inj_on_of_nodup_map hkeys hentry he heq]
  · have hvalue : valueAt ctx.realSurfaceStorage row.surface = -1 := by
      rw [valueAt, not_not.mp (mt find_ne_none_iff.mp hknown), Option.getD_none]
    have hptr : e.2 ≠ -1 := by
      rw [hstorage, StringStorage.stored_eq] at he
      obtain ⟨position, hposition, rfl⟩ := List.mem_map.mp he
      intro heq
      have htoInt := toInt_pointerOf (hfits position hposition)
      have hneg : ((position.1 >>> storage.alignmentPower : Nat) : Int) = -1 :=
        htoInt.symm.trans (congrArg Int32.toInt heq)
      have hnonneg := Int.natCast_nonneg (position.1 >>> storage.alignmentPower)
      rw [hneg] at hnonneg
      exact absurd hnonneg (by decide)
    rw [hvalue]
    constructor
    · intro heq
      exact absurd heq.symm hptr
    · intro heq
      exact absurd (heq ▸ List.mem_map_of_mem he) hknown

variable {order : TableOrder} {lines : FlatMap Int Int32} {rows : List (CsvRow numFeatures numData)}
  {cnt : Nat} {bldr : EntryTableBuilder} {strings : List (StdString × Int32)}

/-- The rows with a surface, but for those that are patterns of unknown words. -/
def wordRows (lines : FlatMap Int Int32) (rows : List (CsvRow numFeatures numData))
    (surface : List UInt8) : List (CsvRow numFeatures numData) :=
  rows.filter fun row => decide (row.lineNumber ∉ lines.keys ∧ row.surface = surface)

/-- What is found under a string: nothing when no row has it, else one list, which leads to each group of
its rows once. -/
def Found (ctx : EntryTableContext) (lines : FlatMap Int Int32)
    (rows : List (CsvRow numFeatures numData)) (entryData : List UInt8) (trie : TrieContents)
    (sp : StdString) : Prop :=
  (wordRows lines rows sp.elems = [] ∧ ∀ value, (sp, value) ∉ trie.keys) ∨
    ∃ start, (∀ value, (sp, value) ∈ trie.keys ↔ value = start) ∧
      ∃ listed : List (Int32 × List Int32 × List (CsvRow numFeatures numData)),
        DecodesTo trie.entryPtrBuffer start (listed.map Prod.fst) ∧
        IsGrouping ctx.gather (wordRows lines rows sp.elems) (listed.map Prod.snd) ∧
        ∀ place ∈ listed, ReadsGroup entryData place.1 place.2.2

/-- The pointer that a pattern of unknown words gets leads to its row alone, which no string has. -/
theorem patterns_found (hlines : (rows.map CsvRow.lineNumber).Nodup)
    (h : EntryTableBuilder.importActualData order ctx (.initial lines) rows = some (cnt, bldr))
    (hcolumns : 0 < numData) (hdata : bldr.entryDataBuffer.length < 2 ^ 30)
    {row : CsvRow numFeatures numData} (hrow : row ∈ rows) (hline : row.lineNumber ∈ lines.keys) :
    ∃ ptr, bldr.ignoredRows.find row.lineNumber = some ptr ∧
      ReadsGroup bldr.entryDataBuffer ptr [row] := by
  obtain ⟨ptr, hptr, hstored⟩ :=
    (EntryTableBuilder.written_importActualData hlines h).2 row hrow hline
  exact ⟨ptr, hptr, hstored.readsGroup (collects_new row 0) hcolumns hdata⟩

end Dictionary

/-! ## A dictionary of four rows -/

theorem pairwise_order (l : List CollectedEntry) :
    (l.insertionSort fun p1 p2 => p1.order ≤ p2.order).Pairwise fun p1 p2 => p1.order ≤ p2.order := by
  have : Std.Total fun p1 p2 : CollectedEntry => p1.order ≤ p2.order := ⟨fun _ _ => Nat.le_total _ _⟩
  have : IsTrans CollectedEntry fun p1 p2 => p1.order ≤ p2.order := ⟨fun _ _ _ => Nat.le_trans⟩
  exact List.pairwise_insertionSort _ l

def TableOrder.insertion : TableOrder where
  surfaces := .inserted _ _
  reorder m := (m.entries.map Prod.snd).insertionSort fun p1 p2 => p1.order ≤ p2.order
  reorder_perm _ := List.perm_insertionSort _ _
  reorder_sorted _ := pairwise_order _

def smallRow (lineNumber : Int) (surface : List UInt8) (feature data : Int32) : CsvRow 1 1 :=
  ⟨lineNumber, surface, [feature], [data], rfl, rfl⟩

/-- The last row is a pattern of an unknown word. -/
def fourRows : List (CsvRow 1 1) :=
  [smallRow 1 [0x63] 5 7, smallRow 2 [0x61, 0x62] 6 300, smallRow 3 [0x63] 5 8,
    smallRow 4 [0x63] 9 9]

def fourthLine : FlatMap Int Int32 := ⟨[(4, 0)], List.nodup_singleton _⟩

def fourRowsContext : EntryTableContext where
  dedupIdxes := [0]
  realSurfaceStorage := ((twoStrings 0).makeStorage (twoStrings 0).mapping.reverse).1
  surfaceCounter := computeStats fourRows

theorem sizes_fourRows : ((EntryTableBuilder.importActualData .insertion fourRowsContext
    (.initial fourthLine) fourRows).map fun r => (r.2.entryDataBuffer.length,
      (buildTrie r.2.entriesWithField fourRowsContext.realSurfaceStorage).entryPtrBuffer.length)) =
    some (9, 4) := by decide +kernel

theorem patterns_found_four :
    ∃ cnt bldr ptr, EntryTableBuilder.importActualData .insertion fourRowsContext
        (.initial fourthLine) fourRows = some (cnt, bldr) ∧
      bldr.ignoredRows.find 4 = some ptr ∧
      ReadsGroup bldr.entryDataBuffer ptr [smallRow 4 [0x63] 9 9] := by
  obtain ⟨⟨cnt, bldr⟩, himport, hsizes⟩ := Option.map_eq_some_iff.mp sizes_fourRows
  have hdata : bldr.entryDataBuffer.length = 9 := (Prod.mk.inj hsizes).1
  have hrow : smallRow 4 [0x63] 9 9 ∈ fourRows :=
    .tail _ (.tail _ (.tail _ List.mem_cons_self))
  obtain ⟨ptr, hptr, hreads⟩ :=
    patterns_found (by decide) himport (by decide) (by omega) hrow (by decide)
  exact ⟨cnt, bldr, ptr, himport, hptr, hreads⟩

end Jumanpp.Core.Dic
