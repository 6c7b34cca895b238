import Jumanpp.Core.Analysis.OutputManager
import Jumanpp.Core.Dic.StringStorage
import Jumanpp.Jumandic.MdicReading

/-!
# The dictionary of a lattice

`MdicFormat` prints the rows of the dictionary entries that occur in a lattice.  The set of the entries
that have been displayed is cleared and asked, but nothing is ever put into it.
-/

namespace Jumanpp.Jumandic.Output

open Jumanpp.Lib Jumanpp.Util.Csv Jumanpp.Core.Analysis Jumanpp.Core.Analysis.Output Jumanpp.Core.Dic

/-! ## The fields of a row -/

/-- `'0'`. -/
def zero : Byte := 48

/-- `"----READ_ERROR!!!----"`. -/
def readError : List Byte :=
  [45, 45, 45, 45, 82, 69, 65, 68, 95, 69, 82, 82, 79, 82, 33, 33, 33, 45, 45, 45, 45]

/-- `NodeWalker::valueOf`: the features are counted from 0 up, the data columns from -1 down. -/
def valueOf (index : Int) (features data : List Int32) : Int32 :=
  if 0 ≤ index then features.getD index.toNat 0 else data.getD (-index - 1).toNat 0

structure StringField where
  index : Int
  data : List UInt8
  alignPower : Nat

/-- A negative value stands for the surface of an unknown word; an entry of the dictionary has no extra
node, and asking for it is undefined. -/
def StringField.get (field : StringField) (features data : List Int32) : Option (List Byte) :=
  let value := valueOf field.index features data
  if value < 0 then none
  else some (((readAt field.data field.alignPower value).map fun sp => sp.elems).getD readError)

/-- The items that are stored at a pointer. -/
structure KVListField where
  index : Int
  items : Int32 → List KVItem

def KVListField.get (field : KVListField) (features data : List Int32) : List KVItem :=
  let ptr := valueOf field.index features data
  field.items (if ptr = -1 then 0 else ptr)

/-- What is read of a row. -/
structure DicRow where
  surface : List Byte
  pos : List Byte
  subpos : List Byte
  conjForm : List Byte
  conjType : List Byte
  baseform : List Byte
  reading : List Byte
  canonicForm : List Byte
  features : List KVItem

structure JumandicFields where
  surface : StringField
  pos : StringField
  subpos : StringField
  conjType : StringField
  conjForm : StringField
  baseform : StringField
  reading : StringField
  canonicForm : StringField
  features : KVListField

def JumandicFields.row (f : JumandicFields) (features data : List Int32) : Option DicRow := do
  let surface ← f.surface.get features data
  let pos ← f.pos.get features data
  let subpos ← f.subpos.get features data
  let conjForm ← f.conjForm.get features data
  let conjType ← f.conjType.get features data
  let baseform ← f.baseform.get features data
  let reading ← f.reading.get features data
  let canonicForm ← f.canonicForm.get features data
  some ⟨surface, pos, subpos, conjForm, conjType, baseform, reading, canonicForm,
    f.features.get features data⟩

namespace DicRow

variable (row : DicRow)

def text : List Byte :=
  printMaybeQuoted row.surface ++ [comma, zero, comma, zero, comma, zero, comma] ++
    (printMaybeQuoted row.pos ++ [comma] ++ (printMaybeQuoted row.subpos ++ [comma] ++
      (printMaybeQuoted row.conjForm ++ [comma] ++ (printMaybeQuoted row.conjType ++ [comma] ++
        (printMaybeQuoted row.baseform ++ [comma] ++ (printMaybeQuoted row.reading ++ [comma] ++
          (printMaybeQuoted row.canonicForm ++ [comma] ++
            (printMaybeQuoteStringList row.features ++ [lineFeed]))))))))

/-- The fields before the list. -/
def strings : List (List Byte) :=
  [row.surface, [zero], [zero], [zero], row.pos, row.subpos, row.conjForm, row.conjType, row.baseform,
    row.reading, row.canonicForm]

def line : Line :=
  ⟨row.surface, row.strings.tail ++ [listText row.features]⟩

theorem text_eq : row.text = row.line.text ++ [lineFeed] := by
  have hzero : printMaybeQuoted [zero] = [zero] := by
    rw [printMaybeQuoted_eq, if_pos (by decide)]
  unfold text line strings Line.text
  rw [printMaybeQuoteStringList_eq]
  simp [hzero]

end DicRow

/-! ## The format -/

/-- A bound for the number of rows that a walker still has, and one step more. -/
def steps (w : NodeWalker) : Nat :=
  if w.buffer.remainingData.length = 0 then w.buffer.rowsLeft.toNat + 1
  else (w.buffer.remainingData.length - w.buffer.remainingData.position).toNat + 1

/-- The loop `while (walker.next())`. -/
def printRows (f : JumandicFields) : Nat → NodeWalker → Option (List Byte × NodeWalker)
  | 0, w => some ([], w)
  | steps + 1, w =>
      if w.next.1 then do
        let row ← f.row w.next.2.buffer.features w.next.2.buffer.data
        let (text, w) ← printRows f steps w.next.2
        some (row.text ++ text, w)
      else some ([], w.next.2)

section

variable (mgr : OutputManager) (f : JumandicFields)

/-- Nothing stands for what is undefined, and for the status that a node has not been found. -/
def formatNode (nodeRawPtr : EntryPtr) (w : NodeWalker) : Option (List Byte × NodeWalker) := do
  let (found, w) ← mgr.locate nodeRawPtr w
  if found then printRows f (steps w) w else none

/-- The nodes in the order of the loops; the set of the displayed entries stays what it is. -/
def formatNodes (displayed : List EntryPtr) :
    List EntryPtr → NodeWalker → Option (List Byte × NodeWalker)
  | [], w => some ([], w)
  | eptr :: nodes, w =>
      if 0 ≤ eptr ∧ eptr ∉ displayed then do
        let (text, w) ← formatNode mgr f eptr w
        let (more, w) ← formatNodes displayed nodes w
        some (text ++ more, w)
      else formatNodes displayed nodes w

/-- The nodes between the first two boundaries and the last one. -/
def innerNodes (lattice : List (List EntryPtr)) : List EntryPtr :=
  (lattice.drop 2).dropLast.flatten

/-- `MdicFormat::format`: the printed text and the walker. -/
def format (lattice : List (List EntryPtr)) (w : NodeWalker) : Option (List Byte × NodeWalker) :=
  formatNodes mgr f [] (innerNodes lattice) w

end

/-! ## The rows of an entry -/

variable {mgr : OutputManager} {f : JumandicFields} {w w' : NodeWalker} {ptr : EntryPtr}
  {rows : List DicRow}

theorem length_le_steps {raw : List (List Int32)} (hkept : mgr.Kept w) (h : w.buffer.Yields raw) :
    raw.length < steps w := by
  unfold steps
  by_cases hlength : w.buffer.remainingData.length = 0
  · rw [if_pos hlength]
    have hraw := ((DicEntryBuffer.yields_stored hlength).mp h).1
    omega
  · rw [if_neg hlength]
    obtain ⟨hdata, hpos⟩ := hkept.resolve_left hlength
    rw [← hdata] at hpos
    by_cases hnil : raw = []
    · rw [hnil]
      exact Nat.succ_pos _
    · have hle := h.length_le hlength hpos hnil
      have hmul : (raw.length : Int) ≤ raw.length * w.buffer.numData := by
        exact_mod_cast Nat.le_mul_of_pos_right raw.length hpos
      omega

theorem features_next : w.next.2.buffer.features = w.buffer.features := by
  unfold NodeWalker.next DicEntryBuffer.features DicEntryBuffer.nextData
  simp only
  split
  next => rfl
  next =>
    split
    next => rfl
    next => rfl

/-- The text of the rows that a walker yields. -/
theorem printRows_eq {raw : List (List Int32)} {steps : Nat} (hkept : mgr.Kept w)
    (h : w.buffer.Yields raw) (hsteps : raw.length < steps)
    (hrows : raw.mapM (f.row w.buffer.features) = some rows) :
    ∃ w', printRows f steps w = some (rows.flatMap DicRow.text, w') ∧ mgr.Kept w' := by
  induction raw generalizing w rows steps with
  | nil =>
      obtain ⟨steps, rfl⟩ := Nat.exists_eq_succ_of_ne_zero (Nat.ne_of_gt hsteps)
      have hend : w.next.1 = false := h
      cases hrows
      refine ⟨w.next.2, ?_, hkept.next⟩
      rw [printRows, hend]
      rfl
  | cons values raw ih =>
      obtain ⟨steps, rfl⟩ := Nat.exists_eq_succ_of_ne_zero (Nat.ne_zero_of_lt hsteps)
      obtain ⟨hnext, hvalues, hrest⟩ := h
      rw [List.mapM_cons] at hrows
      obtain ⟨row, hrow, hrows⟩ := Option.bind_eq_some_iff.mp hrows
      obtain ⟨rows', hrows', heq⟩ := Option.bind_eq_some_iff.mp hrows
      cases heq
      have hnext' : w.next.1 = true := hnext
      have hrow' : f.row w.next.2.buffer.features w.next.2.buffer.data = some row := by
        rw [features_next]
        show f.row _ w.buffer.nextData.2.data = some row
        rw [hvalues, hrow]
      obtain ⟨w', hprint, hkept'⟩ := ih hkept.next hrest (Nat.lt_of_succ_lt_succ hsteps)
        (by rw [features_next]; exact hrows')
      refine ⟨w', ?_, hkept'⟩
      rw [printRows, hnext', if_pos rfl, hrow', Option.bind_eq_bind, Option.bind_some, hprint]
      rfl

variable (mgr f) in
/-- The rows that a walker shows which has not been used before. -/
def Shows (ptr : EntryPtr) (rows : List DicRow) : Prop :=
  ∃ fresh w' raw, fresh.Fresh ∧ mgr.locate ptr fresh = some (true, w') ∧ w'.buffer.Yields raw ∧
    raw.mapM (f.row w'.buffer.features) = some rows

variable (mgr) in
/-- An entry of the dictionary; the values of an alias are counted. -/
def Stored (ptr : EntryPtr) : Prop :=
  0 ≤ ptr ∧ DicEntryBuffer.Readable mgr.numFeatures mgr.numData ptr mgr.entryData ∧
    (EntryPtr.isAlias ptr = true →
      DicEntryBuffer.aliasValues mgr.numFeatures mgr.numData ptr mgr.entryData ≠ 0)

/-- Each walker shows the rows, whatever it has shown before. -/
theorem formatNode_eq (hkept : mgr.Kept w) (hstored : Stored mgr ptr) (hrows : Shows mgr f ptr rows) :
    ∃ w', formatNode mgr f ptr w = some (rows.flatMap DicRow.text, w') ∧ mgr.Kept w' := by
  obtain ⟨hdic, hread, hvalues⟩ := hstored
  obtain ⟨fresh, w₂, raw, hfresh, hlocate₂, hyields₂, hraw⟩ := hrows
  have hptr : mgr.storedPtr ptr = some ptr := if_neg (Int.not_lt.mpr hdic)
  have hsame := (@OutputManager.locatesSame_stored_iff mgr w fresh ptr ptr hptr hread).mpr
    (fun halias hzero => absurd hzero (hvalues halias))
  obtain ⟨w₁, w₂', hlocate₁, hlocate₂', -, hfeatures, raw', hyields₁, hyields₂'⟩ := hsame
  cases hlocate₂.symm.trans hlocate₂'
  cases hyields₂.unique hyields₂'
  have hkept₁ := hkept.locate hlocate₁
  obtain ⟨w', hprint, hkept'⟩ := printRows_eq hkept₁ hyields₁ (length_le_steps hkept₁ hyields₁)
    (by rw [hfeatures]; exact hraw)
  refine ⟨w', ?_, hkept'⟩
  unfold formatNode
  rw [hlocate₁]
  exact hprint

/-- The entries of the dictionary among the nodes, as often as they occur. -/
def dicNodes (nodes : List EntryPtr) : List EntryPtr :=
  nodes.filter fun eptr => 0 ≤ eptr

theorem formatNodes_eq {rowsOf : EntryPtr → List DicRow} {nodes : List EntryPtr}
    (hkept : mgr.Kept w)
    (hnodes : ∀ ptr ∈ dicNodes nodes, Stored mgr ptr ∧ Shows mgr f ptr (rowsOf ptr)) :
    ∃ w', formatNodes mgr f [] nodes w =
      some (((dicNodes nodes).flatMap rowsOf).flatMap DicRow.text, w') ∧ mgr.Kept w' := by
  induction nodes generalizing w with
  | nil => exact ⟨w, rfl, hkept⟩
  | cons eptr nodes ih =>
      rw [formatNodes]
      unfold dicNodes at hnodes ⊢
      by_cases hdic : 0 ≤ eptr
      · rw [List.filter_cons_of_pos (by simpa using hdic)] at hnodes ⊢
        obtain ⟨hstored, hshows⟩ := hnodes eptr List.mem_cons_self
        obtain ⟨w₁, hnode, hkept₁⟩ := formatNode_eq hkept hstored hshows
        obtain ⟨w', hrest, hkept'⟩ := ih hkept₁ fun ptr hptr => hnodes ptr (List.mem_cons_of_mem _ hptr)
        refine ⟨w', ?_, hkept'⟩
        rw [if_pos ⟨hdic, List.not_mem_nil⟩, hnode, Option.bind_eq_bind, Option.bind_some]
        simp only
        rw [hrest, List.flatMap_cons, List.flatMap_append]
        rfl
      · rw [List.filter_cons_of_neg (by simpa using hdic)] at hnodes ⊢
        rw [if_neg fun h => hdic h.1]
        exact ih hkept hnodes

end Jumanpp.Jumandic.Output
