import Jumanpp.Jumandic.MdicFormat

/-!
# Reading the printed dictionary

The printed rows are those of the distinct entries when no entry occurs twice, and each row comes back
when its line breaks are quoted.
-/

namespace Jumanpp.Jumandic.Output

open Jumanpp.Lib Jumanpp.Util.Csv Jumanpp.Core.Analysis Jumanpp.Core.Analysis.Output

/-! ## The last field -/

theorem endsInReturn_concat (values : List (List Byte)) (data : List Byte) :
    EndsInReturn (values ++ [data]) ↔ Bare data ∧ data.getLast? = some carriageReturn := by
  induction values with
  | nil => rfl
  | cons first values ih =>
      cases values with
      | nil => rfl
      | cons second values => exact ih

theorem trimLast_concat (values : List (List Byte)) (data : List Byte) :
    trimLast (values ++ [data]) =
      values ++ [if Bare data ∧ data.getLast? = some carriageReturn then data.dropLast else data] := by
  induction values with
  | nil => rfl
  | cons first values ih =>
      cases values with
      | nil => rfl
      | cons second values => exact congrArg (first :: ·) ih

namespace DicRow

variable (row : DicRow)

theorem values_line : row.line.values = row.strings ++ [listText row.features] := rfl

/-- The list of the row is printed with a carriage return at its end. -/
def EndsInReturn : Prop :=
  Bare (listText row.features) ∧ (listText row.features).getLast? = some carriageReturn

/-- The surface is printed with a carriage return in front. -/
def StartsInReturn : Prop :=
  Bare row.surface ∧ row.surface.head? = some carriageReturn

/-- Nothing is printed behind the last separator of the list. -/
def EndsBlank : Prop :=
  ∃ item ∈ row.features.getLast?, item.Blank

/-- The strings are the row's, and the items of the list are the row's in some order. -/
def Decodes (csv : List (List Byte)) (row : DicRow) : Prop :=
  ∃ list, csv = row.strings ++ [list] ∧ (parseItems list).Perm (row.features.map KVItem.pair)

/-- The strings as they stand behind a line feed or not. -/
def stringsBehind (skip : Bool) : List (List Byte) :=
  (row.line.behind skip).first :: row.strings.tail

theorem values_behind (skip : Bool) :
    (row.line.behind skip).values = row.stringsBehind skip ++ [listText row.features] := by
  cases skip with
  | false => rfl
  | true => rfl

end DicRow

/-! ## What is lost -/

/-- The bytes of an item and its separator. -/
def itemWeight (item : List Byte × Option (List Byte)) : Nat :=
  item.1.length + (item.2.map fun value => value.length + 1).getD 0 + 1

def itemsWeight (items : List (List Byte × Option (List Byte))) : Nat :=
  (items.map itemWeight).sum

def csvWeight (csv : List (List Byte)) : Nat :=
  (csv.dropLast.map List.length).sum + itemsWeight (parseItems (csv.getLastD []))

def DicRow.weight (row : DicRow) : Nat :=
  (row.strings.map List.length).sum + itemsWeight (row.features.map KVItem.pair)

theorem DicRow.Decodes.weight {csv : List (List Byte)} {row : DicRow} (h : row.Decodes csv) :
    csvWeight csv = row.weight := by
  obtain ⟨list, rfl, hperm⟩ := h
  unfold csvWeight DicRow.weight itemsWeight
  rw [List.dropLast_concat, List.getLastD_concat, (hperm.map itemWeight).sum_eq]

theorem itemWeight_parseItem (entry : List Byte) :
    itemWeight (parseItem entry) = entry.length + 1 := by
  unfold parseItem
  cases hsplit : splitFirst [colon] entry with
  | none => rfl
  | some parts =>
      obtain ⟨key, value⟩ := parts
      have hlength := congrArg List.length (append_of_splitFirst hsplit)
      rw [List.length_append, List.length_append, List.length_singleton] at hlength
      show key.length + (value.length + 1) + 1 = entry.length + 1
      omega

theorem itemsWeight_parseItems_le (text : List Byte) :
    itemsWeight (parseItems text) ≤ text.length + 1 := by
  unfold parseItems itemsWeight
  induction hn : text.length using Nat.strong_induction_on generalizing text with
  | h n ih =>
      cases hsplit : splitFirst [space] text with
      | none =>
          by_cases htext : text = []
          · rw [htext, pieces_nil]
            exact Nat.zero_le _
          · rw [pieces_of_splitFirst_none htext hsplit, List.map_singleton, List.map_singleton,
              List.sum_singleton, itemWeight_parseItem, hn]
      | some parts =>
          obtain ⟨before, after⟩ := parts
          have hlength := congrArg List.length (append_of_splitFirst hsplit)
          rw [List.length_append, List.length_append, List.length_singleton] at hlength
          have hafter := ih after.length (by omega) after rfl
          rw [pieces_of_splitFirst (by simp) hsplit, List.map_cons, List.map_cons, List.sum_cons,
            itemWeight_parseItem]
          omega

theorem length_print (item : KVItem) : (item.print id).length + 1 = itemWeight item.pair := by
  rw [← itemWeight_parseItem, parseItem_print]

theorem itemsWeight_pairs {items : List KVItem} (h : items ≠ []) :
    itemsWeight (items.map KVItem.pair) = (listText items).length + 1 := by
  unfold listText itemsWeight
  fun_induction printItems id items with
  | case1 => exact absurd rfl h
  | case2 item => rw [length_print]; rfl
  | case3 item next items ih =>
      have hrest := ih (List.cons_ne_nil _ _)
      have hitem := length_print item
      rw [List.map_cons, List.map_cons, List.sum_cons, hrest, List.length_append, List.length_cons]
      omega

/-- The list that is read has the weight of the list that is printed, unless it ends in a carriage
return or in a blank item. -/
theorem itemsWeight_read (items : List KVItem) {returns : Prop} [Decidable returns]
    (hreturns : returns → (listText items).getLast? = some carriageReturn) :
    itemsWeight (parseItems (if returns then (listText items).dropLast else listText items)) ≤
      itemsWeight (items.map KVItem.pair) ∧
    (itemsWeight (parseItems (if returns then (listText items).dropLast else listText items)) =
      itemsWeight (items.map KVItem.pair) → ¬returns ∧ ¬∃ item ∈ items.getLast?, item.Blank) := by
  by_cases hreturn : returns
  · have hlast := hreturns hreturn
    have htext : listText items ≠ [] := fun h => by
      rw [h] at hlast
      cases hlast
    have hitems : items ≠ [] := fun h => by
      rw [h] at htext
      exact htext rfl
    have hlt := itemsWeight_parseItems_le (listText items).dropLast
    have hpos := List.length_pos_of_ne_nil htext
    rw [List.length_dropLast] at hlt
    rw [if_pos hreturn, itemsWeight_pairs hitems]
    exact ⟨by omega, fun h => by omega⟩
  · rw [if_neg hreturn, parseItems_listText]
    split
    next hblank =>
      obtain ⟨item, hitem, -⟩ := hblank
      have hsplit : items = items.dropLast ++ [item] :=
        (List.dropLast_append_getLast? item hitem).symm
      have hsum : itemsWeight (items.map KVItem.pair) =
          itemsWeight (items.dropLast.map KVItem.pair) + itemWeight item.pair := by
        conv_lhs => rw [hsplit]
        unfold itemsWeight
        rw [List.map_append, List.map_append, List.sum_append]
        rfl
      have hpos : 1 ≤ itemWeight item.pair := Nat.le_add_left 1 _
      exact ⟨by omega, fun h => by omega⟩
    next hblank =>
      refine ⟨Nat.le_refl _, fun _ => ⟨hreturn, fun ⟨item, hitem, h⟩ => hblank ?_⟩⟩
      exact ⟨item, hitem, (print_eq_nil_iff item).mpr h⟩

/-- The surface that is read is as long as the surface that is printed, unless a carriage return in front
of it has been skipped. -/
theorem length_first_behind (skip : Bool) (line : Line) :
    (line.behind skip).first.length ≤ line.first.length ∧
      ((line.behind skip).first.length = line.first.length →
        skip = true → ¬(Bare line.first ∧ line.first.head? = some carriageReturn)) := by
  cases skip with
  | false => exact ⟨Nat.le_refl _, fun _ h => by cases h⟩
  | true =>
      show line.afterLineFeed.first.length ≤ _ ∧ (line.afterLineFeed.first.length = _ → _)
      unfold Line.afterLineFeed
      by_cases hbare : Bare line.first
      · simp only [if_pos hbare]
        cases line.first with
        | nil => exact ⟨Nat.le_refl _, fun _ _ h => by cases h.2⟩
        | cons c first =>
            rw [skipCarriageReturn]
            split
            next hc =>
              rw [List.length_cons]
              exact ⟨by omega, fun h => by omega⟩
            next hc => exact ⟨Nat.le_refl _, fun _ _ h => hc (Option.some_inj.mp h.2)⟩
      · simp only [if_neg hbare]
        exact ⟨Nat.le_refl _, fun _ _ h => hbare h.1⟩

theorem csvWeight_trimLast (skip : Bool) (row : DicRow) :
    csvWeight (trimLast (row.line.behind skip).values) ≤ row.weight ∧
      (csvWeight (trimLast (row.line.behind skip).values) = row.weight →
        (skip = true → ¬row.StartsInReturn) ∧ ¬row.EndsInReturn ∧ ¬row.EndsBlank) := by
  obtain ⟨hfirst, hstarts⟩ := length_first_behind skip row.line
  obtain ⟨hlist, hends⟩ := @itemsWeight_read row.features
    (Bare (listText row.features) ∧ (listText row.features).getLast? = some carriageReturn) _ And.right
  have hstrings : (row.strings.map List.length).sum =
      row.line.first.length + (row.strings.tail.map List.length).sum := rfl
  rw [row.values_behind, trimLast_concat]
  unfold csvWeight DicRow.weight
  rw [List.dropLast_concat, List.getLastD_concat, hstrings, DicRow.stringsBehind, List.map_cons,
    List.sum_cons]
  refine ⟨by omega, fun heq => ?_⟩
  obtain ⟨hreturn, hblank⟩ := hends (by omega)
  exact ⟨hstarts (by omega), hreturn, hblank⟩

/-! ## All rows -/

/-- Nothing of a row is lost, apart from a carriage return in front of it. -/
def DicRow.Kept (row : DicRow) : Prop :=
  ¬row.EndsInReturn ∧ ¬row.EndsBlank

theorem weight_readLines (skip : Bool) (rows : List DicRow) :
    ((readLines skip (rows.map DicRow.line)).map csvWeight).sum ≤ (rows.map DicRow.weight).sum ∧
      (((readLines skip (rows.map DicRow.line)).map csvWeight).sum = (rows.map DicRow.weight).sum →
        (skip = true → ∀ row ∈ rows.head?, ¬row.StartsInReturn) ∧
          (∀ row ∈ rows.tail, ¬row.StartsInReturn) ∧ ∀ row ∈ rows, row.Kept) := by
  induction rows generalizing skip with
  | nil =>
      refine ⟨Nat.le_refl _, fun _ => ⟨fun _ row hrow => ?_, ?_, ?_⟩⟩
      · cases hrow
      · exact List.forall_mem_nil _
      · exact List.forall_mem_nil _
  | cons row rows ih =>
      obtain ⟨hle, hkept⟩ := csvWeight_trimLast skip row
      obtain ⟨hrest, hrestKept⟩ := ih (!decide (EndsInReturn (row.line.behind skip).values))
      rw [List.map_cons, readLines, List.map_cons, List.map_cons, List.sum_cons, List.sum_cons]
      refine ⟨by omega, fun heq => ?_⟩
      obtain ⟨hstarts, hends, hblank⟩ := hkept (by omega)
      obtain ⟨hhead, htail, hall⟩ := hrestKept (by omega)
      -- the line ends with a line feed alone, so that the next one stands behind a line feed
      have hfeed : (!decide (EndsInReturn (row.line.behind skip).values)) = true := by
        rw [row.values_behind, Bool.not_eq_true', decide_eq_false_iff_not, endsInReturn_concat]
        exact hends
      refine ⟨fun hskip row' hrow' => ?_, ?_, List.forall_mem_cons.mpr ⟨⟨hends, hblank⟩, hall⟩⟩
      · rw [List.head?_cons, Option.mem_some_iff] at hrow'
        exact hrow' ▸ hstarts hskip
      · rw [List.tail_cons]
        cases rows with
        | nil => exact List.forall_mem_nil _
        | cons second rows => exact List.forall_mem_cons.mpr ⟨hhead hfeed second rfl, htail⟩

/-- Rows of which nothing is lost are read as they are printed. -/
theorem readLines_kept {skip : Bool} {rows : List DicRow}
    (hhead : skip = true → ∀ row ∈ rows.head?, ¬row.StartsInReturn)
    (htail : ∀ row ∈ rows.tail, ¬row.StartsInReturn) (hkept : ∀ row ∈ rows, row.Kept) :
    readLines skip (rows.map DicRow.line) = rows.map fun row => row.line.values := by
  induction rows generalizing skip with
  | nil => rfl
  | cons row rows ih =>
      have hbehind : row.line.behind skip = row.line := by
        cases skip with
        | false => rfl
        | true =>
            have hstarts := hhead rfl row rfl
            show row.line.afterLineFeed = row.line
            unfold Line.afterLineFeed
            by_cases hbare : Bare row.line.first
            · have hskip : skipCarriageReturn row.line.first = row.line.first :=
                skipCarriageReturn_of_head fun h => hstarts ⟨hbare, h⟩
              rw [if_pos hbare, hskip]
            · rw [if_neg hbare]
      obtain ⟨hends, -⟩ := hkept row List.mem_cons_self
      have hrest := @ih (!decide (EndsInReturn (row.line.behind skip).values))
        (fun _ second hsecond => htail second (List.mem_of_mem_head? hsecond))
        (fun second hsecond => htail second (List.mem_of_mem_tail hsecond))
        (fun second hsecond => hkept second (List.mem_cons_of_mem row hsecond))
      have htrim : trimLast row.line.values = row.line.values := by
        rw [row.values_line, trimLast_concat]
        exact congrArg (fun data => row.strings ++ [data]) (if_neg hends)
      rw [List.map_cons, readLines, hrest, hbehind, htrim]
      rfl

theorem decodes_values {row : DicRow} (h : ¬row.EndsBlank) : row.Decodes row.line.values := by
  refine ⟨listText row.features, row.values_line, ?_⟩
  rw [parseItems_listText, if_neg fun ⟨item, hitem, hblank⟩ =>
    h ⟨item, hitem, (print_eq_nil_iff item).mp hblank⟩]

/-! ## The whole text -/

/-- The text is read to its end, and what is read are the rows of the distinct entries among the nodes,
each of them once. -/
def ContainsOnce (rowsOf : EntryPtr → List DicRow) (nodes : List EntryPtr) (text : List Byte) : Prop :=
  ∃ (csv : List (List (List Byte))) (entries : List EntryPtr) (rows : List DicRow),
    ReadsAll (Dialect.rfc4180.reader text) csv ∧ entries.Nodup ∧
      (∀ ptr, ptr ∈ entries ↔ ptr ∈ dicNodes nodes) ∧ rows.Perm (entries.flatMap rowsOf) ∧
      List.Forall₂ DicRow.Decodes csv rows

/-- No entry with rows occurs twice, and the reader takes nothing in a field for the end of a line. -/
structure Faithful (rowsOf : EntryPtr → List DicRow) (nodes : List EntryPtr) : Prop where
  once : ((dicNodes nodes).filter fun ptr => rowsOf ptr ≠ []).Nodup
  whole : ∀ row ∈ (dicNodes nodes).flatMap rowsOf, ∀ data ∈ row.line.values, Whole data
  kept : ∀ row ∈ (dicNodes nodes).flatMap rowsOf, row.Kept
  starts : ∀ row ∈ ((dicNodes nodes).flatMap rowsOf).tail, ¬row.StartsInReturn

section Once

variable {rowsOf : EntryPtr → List DicRow} {ptrs entries : List EntryPtr}

theorem flatMap_filter_rows (ptrs : List EntryPtr) :
    (ptrs.filter fun ptr => rowsOf ptr ≠ []).flatMap rowsOf = ptrs.flatMap rowsOf := by
  induction ptrs with
  | nil => rfl
  | cons ptr ptrs ih =>
      by_cases hrows : rowsOf ptr = []
      · rw [List.filter_cons_of_neg (by simpa using hrows), ih, List.flatMap_cons, hrows,
          List.nil_append]
      · rw [List.filter_cons_of_pos (by simpa using hrows), List.flatMap_cons, List.flatMap_cons, ih]

/-- The rows of the entries are among the rows that are printed, and when there are as many of them, no
entry with rows has been printed twice. -/
theorem rows_of_entries (hnodup : entries.Nodup) (hmem : ∀ ptr, ptr ∈ entries ↔ ptr ∈ ptrs) :
    (entries.flatMap rowsOf).length ≤ (ptrs.flatMap rowsOf).length ∧
      ((entries.flatMap rowsOf).length = (ptrs.flatMap rowsOf).length ↔
        (ptrs.filter fun ptr => rowsOf ptr ≠ []).Nodup) ∧
      ((ptrs.filter fun ptr => rowsOf ptr ≠ []).Nodup →
        (ptrs.flatMap rowsOf).Perm (entries.flatMap rowsOf)) := by
  have hsubset : (entries.filter fun ptr => rowsOf ptr ≠ []) ⊆
      ptrs.filter fun ptr => rowsOf ptr ≠ [] := by
    intro ptr hptr
    rw [List.mem_filter] at hptr ⊢
    exact ⟨(hmem ptr).mp hptr.1, hptr.2⟩
  obtain ⟨same, hsame, hsublist⟩ := (hnodup.filter _).subperm hsubset
  obtain ⟨others, hsplit⟩ := hsublist.exists_perm_append
  have hothers := hsplit.trans (hsame.append_right others)
  have hperm := hothers.flatMap_right rowsOf
  rw [List.flatMap_append, flatMap_filter_rows, flatMap_filter_rows] at hperm
  have hlength := hperm.length_eq
  rw [List.length_append] at hlength
  have hnodup_iff : (ptrs.filter fun ptr => rowsOf ptr ≠ []).Nodup → others = [] := by
    intro h
    have hboth := (hothers.nodup_iff.mp h)
    refine List.eq_nil_iff_forall_not_mem.mpr fun ptr hptr => ?_
    have hfilter := hothers.symm.subset (List.mem_append_right _ hptr)
    rw [List.mem_filter] at hfilter
    have hentry : ptr ∈ entries.filter fun ptr => rowsOf ptr ≠ [] :=
      List.mem_filter.mpr ⟨(hmem ptr).mpr hfilter.1, hfilter.2⟩
    exact (List.nodup_append.mp hboth).2.2 ptr hentry ptr hptr rfl
  refine ⟨by omega, ⟨fun heq => ?_, fun h => ?_⟩, fun h => ?_⟩
  · have hnone : others.flatMap rowsOf = [] := List.length_eq_zero_iff.mp (by omega)
    have hothers_nil : others = [] := by
      refine List.eq_nil_iff_forall_not_mem.mpr fun ptr hptr => ?_
      have hfilter := hothers.symm.subset (List.mem_append_right _ hptr)
      have hrows : rowsOf ptr ≠ [] := by simpa using (List.mem_filter.mp hfilter).2
      exact hrows (List.flatMap_eq_nil_iff.mp hnone ptr hptr)
    rw [hothers_nil, List.append_nil] at hothers
    exact hothers.nodup_iff.mpr (hnodup.filter _)
  · rw [hnodup_iff h, List.flatMap_nil, List.length_nil] at hlength
    omega
  · rw [hnodup_iff h, List.flatMap_nil, List.append_nil] at hperm
    exact hperm

end Once

theorem DicRow.decodes_all {csv : List (List (List Byte))} {rows : List DicRow}
    (h : List.Forall₂ DicRow.Decodes csv rows) :
    (∀ values ∈ csv, values.length = 11 + 1) ∧ csv.map csvWeight = rows.map DicRow.weight := by
  induction h with
  | nil => exact ⟨List.forall_mem_nil _, rfl⟩
  | cons hrow _ ih =>
      obtain ⟨hlength, hweight⟩ := ih
      refine ⟨List.forall_mem_cons.mpr ⟨?_, hlength⟩, ?_⟩
      · obtain ⟨list, rfl, -⟩ := hrow
        rfl
      · rw [List.map_cons, List.map_cons, hrow.weight, hweight]

theorem length_readLines (skip : Bool) (lines : List Line) :
    (readLines skip lines).length = lines.length := by
  induction lines generalizing skip with
  | nil => rfl
  | cons line lines ih => exact congrArg Nat.succ (ih _)

theorem linesText_rows (rows : List DicRow) :
    rows.flatMap DicRow.text = linesText (rows.map DicRow.line) := by
  unfold linesText
  rw [List.flatMap_map]
  exact List.flatMap_congr fun row _ => row.text_eq

theorem containsOnce_iff (rowsOf : EntryPtr → List DicRow) (nodes : List EntryPtr) :
    ContainsOnce rowsOf nodes (((dicNodes nodes).flatMap rowsOf).flatMap DicRow.text) ↔
      Faithful rowsOf nodes := by
  have hspeaks (text : List Byte) : (Dialect.rfc4180.reader text).Speaks .rfc4180 := ⟨rfl, rfl⟩
  rw [linesText_rows]
  generalize hprinted : (dicNodes nodes).flatMap rowsOf = printed
  constructor
  · rintro ⟨csv, entries, rows, hreads, hnodup, hmem, hperm, hdecodes⟩
    obtain ⟨-, honce, hrows⟩ := @rows_of_entries rowsOf (dicNodes nodes) entries hnodup hmem
    rw [hprinted] at honce hrows
    -- every line that is read has as many fields as a row
    obtain ⟨hcsv, hweights⟩ := DicRow.decodes_all hdecodes
    have hothers : ∀ line ∈ printed.map DicRow.line, line.others.length = 11 := by
      intro line hline
      obtain ⟨row, -, rfl⟩ := List.mem_map.mp hline
      rfl
    obtain ⟨hwhole, hread⟩ :=
      @whole_of_readsAll _ (hspeaks _) false _ _ 11 (by decide) hothers hcsv rfl hreads
    have hlength : (entries.flatMap rowsOf).length = printed.length := by
      rw [← hperm.length_eq, ← hdecodes.length_eq, hread, length_readLines, List.length_map]
    have honce' := honce.mp hlength
    have hsum : (csv.map csvWeight).sum = (printed.map DicRow.weight).sum := by
      rw [hweights, (hperm.map DicRow.weight).sum_eq, ((hrows honce').map DicRow.weight).sum_eq]
    rw [hread] at hsum
    obtain ⟨-, hstarts, hkept⟩ := (weight_readLines false printed).2 hsum
    have hwhole' : ∀ row ∈ printed, ∀ data ∈ row.line.values, Whole data := fun row hrow =>
      hwhole row.line (List.mem_map_of_mem hrow)
    subst hprinted
    exact ⟨honce', hwhole', hkept, hstarts⟩
  · rintro ⟨honce, hwhole, hkept, hstarts⟩
    rw [hprinted] at hwhole hkept hstarts
    obtain ⟨-, -, hrows⟩ := @rows_of_entries rowsOf (dicNodes nodes) (dicNodes nodes).dedup
      (List.nodup_dedup _) fun ptr => List.mem_dedup
    rw [hprinted] at hrows
    have hread := @readLines_kept false printed (fun h => by cases h) hstarts hkept
    refine ⟨_, (dicNodes nodes).dedup, printed, @readsAll_readLines _ (hspeaks _) false _ ?_ rfl,
      List.nodup_dedup _, fun ptr => List.mem_dedup, hrows honce, ?_⟩
    · intro line hline
      obtain ⟨row, hrow, rfl⟩ := List.mem_map.mp hline
      exact hwhole row hrow
    · rw [hread, List.forall₂_map_left_iff, List.forall₂_same]
      exact fun row hrow => decodes_values (hkept row hrow).2

/-- The printed dictionary, read back, holds the rows of each entry once exactly when no entry with rows
has two nodes and no line break or overlong field stops the reader. -/
theorem format_containsOnce_iff {mgr : OutputManager} {f : JumandicFields} {w : NodeWalker}
    {rowsOf : EntryPtr → List DicRow} {lattice : List (List EntryPtr)} (hkept : mgr.Kept w)
    (hnodes : ∀ ptr ∈ dicNodes (innerNodes lattice), Stored mgr ptr ∧ Shows mgr f ptr (rowsOf ptr)) :
    ∃ text w', format mgr f lattice w = some (text, w') ∧ mgr.Kept w' ∧
      (ContainsOnce rowsOf (innerNodes lattice) text ↔ Faithful rowsOf (innerNodes lattice)) := by
  obtain ⟨w', hformat, hkept'⟩ := formatNodes_eq hkept hnodes
  exact ⟨_, w', hformat, hkept', containsOnce_iff rowsOf (innerNodes lattice)⟩

/-! ## An entry with two nodes -/

/-- A dictionary of one entry with one row, at pointer 0. -/
def oneEntry : OutputManager where
  numFeatures := 1
  numData := 1
  entryData := [0, 0]
  extraNodes := []
  counts_le := Nat.le_of_ble_eq_true rfl

/-- All strings are `a`. -/
def oneString : StringField := ⟨0, [1, 97], 0⟩

def oneFields : JumandicFields where
  surface := oneString
  pos := oneString
  subpos := oneString
  conjType := oneString
  conjForm := oneString
  baseform := oneString
  reading := oneString
  canonicForm := oneString
  features := ⟨-1, fun _ => []⟩

def oneRow : DicRow := ⟨[97], [97], [97], [97], [97], [97], [97], [97], []⟩

theorem stored_oneEntry : Stored oneEntry 0 ∧ Shows oneEntry oneFields 0 [oneRow] := by
  refine ⟨⟨by decide, ⟨by decide, by decide⟩, by decide⟩,
    OutputManager.zeroWalker, _, [[0]], rfl, rfl, ⟨rfl, rfl, rfl⟩, rfl⟩

theorem format_containsOnce_iff_one :
    ∃ text w', format oneEntry oneFields [[], [], [0], []] OutputManager.zeroWalker = some (text, w') ∧
      ContainsOnce (fun _ => [oneRow]) [0] text := by
  have hkept : oneEntry.Kept OutputManager.zeroWalker := .inl rfl
  obtain ⟨text, w', hformat, -, hiff⟩ :=
    @format_containsOnce_iff oneEntry oneFields OutputManager.zeroWalker (fun _ => [oneRow])
      [[], [], [0], []] hkept (by
        intro ptr hptr
        have hzero : ptr = 0 := by simpa [innerNodes, dicNodes] using hptr
        exact hzero ▸ stored_oneEntry)
  have hbare : ∀ data ∈ oneRow.line.values, Bare data ∧ lineFeed ∉ data := by decide
  have hwhole : ∀ data ∈ oneRow.line.values, Whole data := by
    intro data hdata
    unfold Whole
    rw [if_pos (hbare data hdata).1]
    exact (hbare data hdata).2
  refine ⟨text, w', hformat, hiff.mpr ⟨by decide, ?_, ?_, ?_⟩⟩
  · exact List.forall_mem_singleton.mpr hwhole
  · refine List.forall_mem_singleton.mpr ⟨fun h => ?_, fun ⟨item, hitem, _⟩ => ?_⟩
    · cases h.2
    · cases hitem
  · exact List.forall_mem_nil _

/-- The row of an entry that two nodes have is printed twice. -/
theorem two_nodes_not_once :
    ∃ text w', format oneEntry oneFields [[], [], [0], [0], []] OutputManager.zeroWalker =
        some (text, w') ∧ ¬ContainsOnce (fun _ => [oneRow]) [0, 0] text := by
  have hkept : oneEntry.Kept OutputManager.zeroWalker := .inl rfl
  have hnodes : ∀ ptr ∈ dicNodes [0, 0],
      Stored oneEntry ptr ∧ Shows oneEntry oneFields ptr [oneRow] := by
    intro ptr hptr
    have hzero : ptr = 0 := by simpa [dicNodes] using hptr
    exact hzero ▸ stored_oneEntry
  obtain ⟨w', hformat, -⟩ :=
    @formatNodes_eq oneEntry oneFields OutputManager.zeroWalker (fun _ => [oneRow]) [0, 0] hkept hnodes
  refine ⟨_, w', hformat, fun h => ?_⟩
  have hfaithful := (containsOnce_iff (fun _ => [oneRow]) [0, 0]).mp h
  exact absurd hfaithful.once (by decide)

end Jumanpp.Jumandic.Output
