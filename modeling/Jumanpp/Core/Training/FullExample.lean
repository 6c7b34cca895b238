import Jumanpp.Lib.FlatMap
import Jumanpp.Lib.Loops
import Jumanpp.Util.Characters
import Jumanpp.Util.CsvReader

/-!
# Annotated examples

Each word of an annotated example is a row of a table.  A training field of the word becomes the position of
its string in the dictionary, or, when the dictionary does not have the string, a negative number that
leads to a list of such strings.
-/

namespace Jumanpp.Core.Training

open Jumanpp.Lib Jumanpp.Util

/-! ## Training fields -/

/-- What `readStr2IdMap` makes of the strings of a column, which stand at their positions. -/
def readStr2IdMap (emptyValue : List UInt8) (strings : List (List UInt8 × Nat)) :
    FlatMap (List UInt8) Int :=
  let s2i := if emptyValue ≠ [] then FlatMap.empty.update emptyValue 0 fun _ => 0 else FlatMap.empty
  strings.foldl (fun s2i e => s2i.update e.1 0 fun _ => (e.2 : Int)) s2i

/-- No string is at a negative position. -/
def Positions (m : FlatMap (List UInt8) Int) : Prop := ∀ s v, m.find s = some v → 0 ≤ v

theorem Positions.update {m : FlatMap (List UInt8) Int} (h : Positions m) (k : List UInt8) {v : Int}
    (hv : 0 ≤ v) : Positions (m.update k 0 fun _ => v) := by
  intro s w hw
  by_cases hs : s = k
  · rw [hs, FlatMap.find_update_self, Option.some.injEq] at hw
    omega
  · rw [FlatMap.find_update_ne m hs] at hw
    exact h s w hw

theorem positions_empty : Positions FlatMap.empty := by
  intro s v h
  cases h

theorem positions_readStr2IdMap (emptyValue : List UInt8) (strings : List (List UInt8 × Nat)) :
    Positions (readStr2IdMap emptyValue strings) := by
  have hloop : ∀ m, Positions m →
      Positions (strings.foldl (fun s2i e => s2i.update e.1 0 fun _ => (e.2 : Int)) m) := by
    induction strings with
    | nil => exact fun m hm => hm
    | cons e strings ih => exact fun m hm => ih _ (hm.update e.1 (Int.natCast_nonneg e.2))
  unfold readStr2IdMap
  apply hloop
  split_ifs
  · exact positions_empty.update emptyValue (Int.le_refl 0)
  · exact positions_empty

structure TrainingExampleField where
  str2int : FlatMap (List UInt8) Int
  exampleFieldIdx : Nat
  positions : Positions str2int

/-- The fields are read from the columns with their own numbers. -/
structure TrainFieldsIndex where
  fields : List TrainingExampleField
  surfaceFieldIdx : Nat
  column : ∀ i (f : TrainingExampleField), fields[i]? = some f → f.exampleFieldIdx = i
  surface_lt : surfaceFieldIdx < fields.length

/-! ## Examples -/

structure ExampleNode where
  surface : List UInt8
  data : List Int
  position : Nat
  length : Nat
  deriving DecidableEq

structure FullyAnnotatedExample where
  surface_ : List UInt8
  strings_ : List (List UInt8)
  data_ : List Int
  lengths_ : List Nat
  comment_ : List UInt8

namespace FullyAnnotatedExample

/-- A row of the table `data_`. -/
def row (ex : FullyAnnotatedExample) (idx : Nat) : List Int :=
  let rowSize := ex.data_.length / ex.lengths_.length
  (ex.data_.drop (idx * rowSize)).take rowSize

/-- The loop over the entries of a row. -/
def negativeEntry (examRow : List Int) : Int :=
  examRow.foldl (fun negIdx exEntry => if exEntry < 0 then exEntry else negIdx) 0

/-- `none` when something outside of a list is read. -/
def nodeAt (ex : FullyAnnotatedExample) (idx : Nat) : Option ExampleNode := do
  let length ← ex.lengths_[idx]?
  let codeptPos := (ex.lengths_.take idx).sum
  let examRow := ex.row idx
  let negIdx := negativeEntry examRow
  let sp ← (if negIdx < 0 then ex.strings_[(~~~negIdx).toNat]? else some [])
  some ⟨sp, examRow, codeptPos, length⟩

end FullyAnnotatedExample

/-! ## Reading -/

inductive ReadStop
  | outOfRange
  | notText
  | tooFewFields
  | importFailed
  | noWord
  deriving DecidableEq

/-- The default page of the buffer that strings are copied to. -/
def stringPage : Nat := 1 <<< 20

/-- A row of a table as it was read. -/
structure CsvRow where
  fields : List (List UInt8)
  rowHadQuoted : Bool

/-- One turn of the loop over the training fields. -/
def readField (csv : CsvRow) (result : FullyAnnotatedExample) (fldInfo : TrainingExampleField) :
    Except ReadStop FullyAnnotatedExample :=
  match csv.fields[fldInfo.exampleFieldIdx]? with
  | none => .error .outOfRange
  | some fld =>
      match fldInfo.str2int.find fld with
      | none =>
          if csv.rowHadQuoted ∧ stringPage < fld.length then .error .importFailed
          else
            let item : Int := result.strings_.length
            .ok { result with
              strings_ := result.strings_ ++ [fld]
              data_ := result.data_ ++ [~~~item] }
      | some position => .ok { result with data_ := result.data_ ++ [position] }

def readSingleExampleFragment (tio : TrainFieldsIndex) (csv : CsvRow)
    (result : FullyAnnotatedExample) : Except ReadStop FullyAnnotatedExample :=
  match csv.fields[tio.surfaceFieldIdx]? with
  | none => .error .outOfRange
  | some surfFld =>
      match preprocessRawData surfFld with
      | none => .error .notText
      | some codepts =>
          if csv.fields.length < tio.fields.length then .error .tooFewFields
          else tio.fields.foldlM (readField csv) { result with
            surface_ := result.surface_ ++ surfFld
            lengths_ := result.lengths_ ++ [codepts.length] }

/-- The rows of the file from the current one on, with the texts of their lines. -/
abbrev CsvLines := List (CsvRow × List UInt8)

def eos : List UInt8 := [69, 79, 83]

/-- Whether the end of the file was reached, and the lines after the example. -/
def readFullExampleCsv (tio : TrainFieldsIndex) :
    CsvLines → FullyAnnotatedExample → Except ReadStop (FullyAnnotatedExample × Bool × CsvLines)
  | [], result => .ok (result, true, [])
  | (csv, line) :: lines, result =>
      if csv.fields = [[]] ∨ csv.fields = [eos] then .ok (result, false, lines)
      else if [35, 32].isPrefixOf line then
        readFullExampleCsv tio lines { result with comment_ := line.dropLast }
      else do
        let result ← readSingleExampleFragment tio csv result
        readFullExampleCsv tio lines result

/-- The loop over the words of a line; the strings are copied when the line had quoted fields. -/
def readWords (tio : TrainFieldsIndex) (tokenSep fieldSep : UInt8) (rowHadQuoted : Bool) :
    List (List UInt8) → FullyAnnotatedExample → Except ReadStop FullyAnnotatedExample
  | [], result => .ok result
  | content :: contents, result =>
      if content = [35] then
        .ok { result with comment_ := result.comment_ ++ [tokenSep].intercalate contents }
      else
        let (found, csv2) := (Csv.CsvReader.initFromMemory fieldSep 34 content).nextLine
        if found then do
          let result ← readSingleExampleFragment tio ⟨csv2.fields, rowHadQuoted⟩ result
          readWords tio tokenSep fieldSep rowHadQuoted contents result
        else .error .noWord

def readFullExampleDblCsv (tio : TrainFieldsIndex) (tokenSep fieldSep : UInt8) :
    CsvLines → FullyAnnotatedExample → Except ReadStop (FullyAnnotatedExample × Bool × CsvLines)
  | [], result => .ok (result, true, [])
  | (csv, _) :: lines, result => do
      let result ← readWords tio tokenSep fieldSep csv.rowHadQuoted csv.fields result
      .ok (result, false, lines)

inductive DataReaderMode
  | SimpleCsv
  | DoubleCsv (tokenSep fieldSep : UInt8)

def readFullExample (tio : TrainFieldsIndex) (mode : DataReaderMode) (lines : CsvLines)
    (result : FullyAnnotatedExample) : Except ReadStop (FullyAnnotatedExample × Bool × CsvLines) :=
  let result := { result with data_ := [], lengths_ := [] }
  match mode with
  | .SimpleCsv => readFullExampleCsv tio lines result
  | .DoubleCsv tokenSep fieldSep => readFullExampleDblCsv tio tokenSep fieldSep lines result

/-- The words of an example, each read after those before it; comments are set between them. -/
inductive ReadsWords (tio : TrainFieldsIndex) :
    List CsvRow → FullyAnnotatedExample → FullyAnnotatedExample → Prop
  | done (ex : FullyAnnotatedExample) : ReadsWords tio [] ex ex
  | comment {words : List CsvRow} {ex ex' : FullyAnnotatedExample} (comment_ : List UInt8)
      (h : ReadsWords tio words { ex with comment_ } ex') : ReadsWords tio words ex ex'
  | word {csv : CsvRow} {words : List CsvRow} {ex ex₁ ex' : FullyAnnotatedExample}
      (hword : readSingleExampleFragment tio csv ex = .ok ex₁) (h : ReadsWords tio words ex₁ ex') :
      ReadsWords tio (csv :: words) ex ex'

theorem readsWords_of_csv {tio : TrainFieldsIndex} {lines lines' : CsvLines}
    {ex ex' : FullyAnnotatedExample} {finished : Bool}
    (h : readFullExampleCsv tio lines ex = .ok (ex', finished, lines')) :
    ∃ words, ReadsWords tio words ex ex' := by
  induction lines generalizing ex with
  | nil =>
      cases h
      exact ⟨[], .done _⟩
  | cons head lines ih =>
      obtain ⟨csv, line⟩ := head
      unfold readFullExampleCsv at h
      split_ifs at h with heos hcomment
      · cases h
        exact ⟨[], .done _⟩
      · obtain ⟨words, hwords⟩ := ih h
        exact ⟨words, .comment _ hwords⟩
      · obtain ⟨ex₁, hword, hrest⟩ := bind_ok h
        obtain ⟨words, hwords⟩ := ih hrest
        exact ⟨csv :: words, .word hword hwords⟩

theorem readsWords_of_words {tio : TrainFieldsIndex} {tokenSep fieldSep : UInt8} {quoted : Bool}
    {contents : List (List UInt8)} {ex ex' : FullyAnnotatedExample}
    (h : readWords tio tokenSep fieldSep quoted contents ex = .ok ex') :
    ∃ words, ReadsWords tio words ex ex' := by
  induction contents generalizing ex with
  | nil =>
      cases h
      exact ⟨[], .done _⟩
  | cons content contents ih =>
      unfold readWords at h
      by_cases hcomment : content = [35]
      · rw [if_pos hcomment] at h
        cases h
        exact ⟨[], .comment _ (.done _)⟩
      · rw [if_neg hcomment] at h
        dsimp only at h
        split_ifs at h with hfound
        obtain ⟨ex₁, hword, hrest⟩ := bind_ok h
        obtain ⟨words, hwords⟩ := ih hrest
        exact ⟨_ :: words, .word hword hwords⟩

/-- Whatever the mode, an example is read word by word into one without nodes. -/
theorem readsWords_of_readFullExample {tio : TrainFieldsIndex} {mode : DataReaderMode}
    {lines lines' : CsvLines} {ex ex' : FullyAnnotatedExample} {finished : Bool}
    (h : readFullExample tio mode lines ex = .ok (ex', finished, lines')) :
    ∃ words, ReadsWords tio words { ex with data_ := [], lengths_ := [] } ex' := by
  cases mode with
  | SimpleCsv => exact readsWords_of_csv h
  | DoubleCsv tokenSep fieldSep =>
      cases lines with
      | nil =>
          cases h
          exact ⟨[], .done _⟩
      | cons head lines =>
          obtain ⟨ex₁, hwords, hok⟩ := bind_ok h
          cases hok
          exact readsWords_of_words hwords

/-! ## What is stored -/

/-- The entry of a field whose string is `text`. -/
inductive Entry (strings : List (List UInt8)) (f : TrainingExampleField) (text : List UInt8) : Int → Prop
  | known {position : Int} (h : f.str2int.find text = some position) : Entry strings f text position
  | unknown {item : Nat} (h : f.str2int.find text = none) (hitem : strings[item]? = some text) :
      Entry strings f text (~~~(item : Int))

def RowEntry (strings : List (List UInt8)) (csv : CsvRow) (f : TrainingExampleField) (v : Int) : Prop :=
  ∃ text, csv.fields[f.exampleFieldIdx]? = some text ∧ Entry strings f text v

theorem getElem?_append_of_eq_some {α : Type} {l : List α} {i : Nat} {x : α} (h : l[i]? = some x)
    (more : List α) : (l ++ more)[i]? = some x := by
  obtain ⟨hi, -⟩ := List.getElem?_eq_some_iff.mp h
  rw [List.getElem?_append_left hi, h]

theorem RowEntry.append {strings : List (List UInt8)} {csv : CsvRow} {f : TrainingExampleField}
    {v : Int} (h : RowEntry strings csv f v) (more : List (List UInt8)) :
    RowEntry (strings ++ more) csv f v := by
  obtain ⟨text, htext, hentry⟩ := h
  refine ⟨text, htext, ?_⟩
  cases hentry with
  | known h => exact .known h
  | unknown h hitem => exact .unknown h (getElem?_append_of_eq_some hitem more)

/-- What reading one field does. -/
theorem readField_cases {csv : CsvRow} {ex ex' : FullyAnnotatedExample} {f : TrainingExampleField}
    (h : readField csv ex f = .ok ex') :
    ∃ v more, ex' = { ex with strings_ := ex.strings_ ++ more, data_ := ex.data_ ++ [v] } ∧
      RowEntry (ex.strings_ ++ more) csv f v := by
  unfold readField at h
  cases hfld : csv.fields[f.exampleFieldIdx]? with
  | none =>
      rw [hfld] at h
      cases h
  | some fld =>
      rw [hfld] at h
      cases hfind : f.str2int.find fld with
      | none =>
          simp only [hfind] at h
          split_ifs at h with himport
          cases h
          refine ⟨_, [fld], rfl, fld, hfld, .unknown hfind ?_⟩
          exact List.getElem?_concat_length
      | some position =>
          simp only [hfind] at h
          cases h
          refine ⟨position, [], ?_, fld, hfld, .known hfind⟩
          rw [List.append_nil]

theorem readFields_cases {csv : CsvRow} {fields : List TrainingExampleField}
    {ex ex' : FullyAnnotatedExample} (h : fields.foldlM (readField csv) ex = .ok ex') :
    ∃ row more, ex' = { ex with strings_ := ex.strings_ ++ more, data_ := ex.data_ ++ row } ∧
      List.Forall₂ (RowEntry (ex.strings_ ++ more) csv) fields row := by
  induction fields generalizing ex with
  | nil =>
      cases h
      refine ⟨[], [], ?_, .nil⟩
      rw [List.append_nil, List.append_nil]
  | cons f fields ih =>
      rw [List.foldlM_cons] at h
      obtain ⟨ex₁, hfield, hrest⟩ := bind_ok h
      obtain ⟨v, more, rfl, hentry⟩ := readField_cases hfield
      obtain ⟨row, more', rfl, hrow⟩ := ih hrest
      refine ⟨v :: row, more ++ more', ?_, ?_⟩
      · simp only [List.append_assoc, List.singleton_append]
      · rw [← List.append_assoc]
        exact .cons (hentry.append more') hrow

/-- The text of a field of a word. -/
def CsvRow.text (csv : CsvRow) (f : TrainingExampleField) : List UInt8 :=
  csv.fields.getD f.exampleFieldIdx []

/-- The string of the surface field. -/
def CsvRow.surface (tio : TrainFieldsIndex) (csv : CsvRow) : List UInt8 :=
  csv.fields.getD tio.surfaceFieldIdx []

/-- The example has a row, a length and the strings of each word. -/
structure HoldsWords (tio : TrainFieldsIndex) (words : List CsvRow) (ex : FullyAnnotatedExample) :
    Prop where
  rows : ∃ rows, ex.data_ = rows.flatten ∧
    List.Forall₂ (fun csv row => List.Forall₂ (RowEntry ex.strings_ csv) tio.fields row) words rows
  lengths : List.Forall₂ (fun csv length => ∃ codepts,
    preprocessRawData (csv.surface tio) = some codepts ∧ codepts.length = length) words ex.lengths_

theorem HoldsWords.fragment {tio : TrainFieldsIndex} {words : List CsvRow} {csv : CsvRow}
    {ex ex' : FullyAnnotatedExample} (h : HoldsWords tio words ex)
    (hword : readSingleExampleFragment tio csv ex = .ok ex') :
    HoldsWords tio (words ++ [csv]) ex' := by
  unfold readSingleExampleFragment at hword
  cases hsurface : csv.fields[tio.surfaceFieldIdx]? with
  | none =>
      rw [hsurface] at hword
      cases hword
  | some surfFld =>
      rw [hsurface] at hword
      cases hcodepts : preprocessRawData surfFld with
      | none =>
          simp only [hcodepts] at hword
          cases hword
      | some codepts =>
          simp only [hcodepts] at hword
          split_ifs at hword with hfew
          obtain ⟨row, more, rfl, hrow⟩ := readFields_cases hword
          obtain ⟨rows, hdata, hrows⟩ := h.rows
          refine ⟨⟨rows ++ [row], ?_, ?_⟩, ?_⟩
          · rw [List.flatten_append, List.flatten_singleton]
            show ex.data_ ++ row = _
            rw [hdata]
          · refine List.rel_append ?_ (.cons hrow .nil)
            exact hrows.imp fun _ _ hold => hold.imp fun _ _ hentry => hentry.append more
          · refine List.rel_append h.lengths (.cons ⟨codepts, ?_, rfl⟩ .nil)
            rw [CsvRow.surface, List.getD_eq_getElem?_getD, hsurface]
            exact hcodepts

theorem holdsWords_of_reads {tio : TrainFieldsIndex} {words before : List CsvRow}
    {ex ex' : FullyAnnotatedExample} (h : ReadsWords tio words ex ex')
    (hold : HoldsWords tio before ex) : HoldsWords tio (before ++ words) ex' := by
  induction h generalizing before with
  | done ex =>
      rw [List.append_nil]
      exact hold
  | comment comment_ _ ih => exact ih ⟨hold.rows, hold.lengths⟩
  | @word csv words _ _ _ hword _ ih =>
      rw [show before ++ csv :: words = before ++ [csv] ++ words by simp]
      exact ih (hold.fragment hword)

theorem holdsWords_cleared (tio : TrainFieldsIndex) (ex : FullyAnnotatedExample) :
    HoldsWords tio [] { ex with data_ := [], lengths_ := [] } :=
  ⟨⟨[], rfl, .nil⟩, .nil⟩

/-! ## What is found -/

/-- The string of the last training field that the dictionary does not have. -/
def lastUnknown (tio : TrainFieldsIndex) (csv : CsvRow) : Option (List UInt8) :=
  ((tio.fields.filter fun f => (f.str2int.find (csv.text f)).isNone).map csv.text).getLast?

/-- The string that a negative entry leads to. -/
def surfaceOf (strings : List (List UInt8)) (negIdx : Int) : Option (List UInt8) :=
  if negIdx < 0 then strings[(~~~negIdx).toNat]? else some []

theorem surfaceOf_not {strings : List (List UInt8)} {item : Nat} {text : List UInt8}
    (h : strings[item]? = some text) : surfaceOf strings (~~~(item : Int)) = some text := by
  have hneg : ~~~(item : Int) = Int.negSucc item := rfl
  rw [hneg, surfaceOf, if_pos (Int.negSucc_lt_zero item)]
  exact h

/-- Each entry that is negative takes the place of those before it. -/
theorem surfaceOf_negativeEntry {strings : List (List UInt8)} {csv : CsvRow}
    {fields : List TrainingExampleField} {row : List Int}
    (h : List.Forall₂ (RowEntry strings csv) fields row) (negIdx : Int) :
    surfaceOf strings
        (row.foldl (fun negIdx exEntry => if exEntry < 0 then exEntry else negIdx) negIdx) =
      match ((fields.filter fun f => (f.str2int.find (csv.text f)).isNone).map csv.text).getLast? with
      | some text => some text
      | none => surfaceOf strings negIdx := by
  induction h generalizing negIdx with
  | nil => rfl
  | @cons f v fields row hentry _ ih =>
      obtain ⟨text, htext, hv⟩ := hentry
      have hcsv : csv.text f = text := by
        rw [CsvRow.text, List.getD_eq_getElem?_getD, htext]
        rfl
      rw [List.foldl_cons, ih, List.filter_cons, hcsv]
      cases hv with
      | known hfind =>
          have hnonneg : ¬ v < 0 := Int.not_lt.mpr (f.positions text v hfind)
          rw [if_neg hnonneg, hfind]
          rfl
      | @unknown item hfind hitem =>
          have hneg : ~~~(item : Int) < 0 := Int.negSucc_lt_zero item
          rw [if_pos hneg, hfind]
          simp only [Option.isNone_none, if_true, List.map_cons, List.getLast?_cons, hcsv]
          cases ((fields.filter fun f => (f.str2int.find (csv.text f)).isNone).map csv.text).getLast? with
          | none => exact surfaceOf_not hitem
          | some last => rfl

theorem drop_take_flatten {rows : List (List Int)} {n i : Nat} {row : List Int}
    (h : ∀ r ∈ rows, r.length = n) (hi : rows[i]? = some row) :
    (rows.flatten.drop (i * n)).take n = row := by
  induction rows generalizing i with
  | nil => cases hi
  | cons r rows ih =>
      have hr : r.length = n := h r (List.mem_cons_self ..)
      cases i with
      | zero =>
          cases hi
          rw [Nat.zero_mul, List.drop_zero, List.flatten_cons, List.take_left' hr]
      | succ i =>
          rw [List.flatten_cons, Nat.succ_mul, Nat.add_comm, ← List.drop_drop, List.drop_left' hr]
          exact ih (fun r' hr' => h r' (List.mem_cons_of_mem _ hr')) hi

theorem length_flatten_of_forall {rows : List (List Int)} {n : Nat} (h : ∀ r ∈ rows, r.length = n) :
    rows.flatten.length = rows.length * n := by
  induction rows with
  | nil => simp
  | cons r rows ih =>
      rw [List.flatten_cons, List.length_append, h r (List.mem_cons_self ..),
        ih fun r' hr' => h r' (List.mem_cons_of_mem _ hr'), List.length_cons, Nat.succ_mul, Nat.add_comm]

namespace HoldsWords

variable {tio : TrainFieldsIndex} {words : List CsvRow} {ex : FullyAnnotatedExample}
  (h : HoldsWords tio words ex)

include h

/-- The row of a word is what was stored for it. -/
theorem row_entries {i : Nat} {csv : CsvRow} (hi : words[i]? = some csv) :
    List.Forall₂ (RowEntry ex.strings_ csv) tio.fields (ex.row i) := by
  obtain ⟨rows, hdata, hrows⟩ := h.rows
  obtain ⟨hlt, hword⟩ := List.getElem?_eq_some_iff.mp hi
  have hlen : words.length = rows.length := hrows.length_eq
  have hlengths : ex.lengths_.length = rows.length := h.lengths.length_eq.symm.trans hlen
  have hwidth : ∀ r ∈ rows, r.length = tio.fields.length := by
    intro r hr
    obtain ⟨j, hj, rfl⟩ := List.getElem_of_mem hr
    exact ((List.forall₂_iff_get.mp hrows).2 j (by omega) hj).length_eq.symm
  have hrow := (List.forall₂_iff_get.mp hrows).2 i hlt (by omega)
  have hsize : ex.data_.length / ex.lengths_.length = tio.fields.length := by
    rw [hdata, length_flatten_of_forall hwidth, hlengths]
    exact Nat.mul_div_cancel_left _ (by omega)
  have hget : rows[i]? = some rows[i] := List.getElem?_eq_getElem (by omega)
  rw [FullyAnnotatedExample.row, hsize, hdata, drop_take_flatten hwidth hget]
  subst hword
  exact hrow

/-- The node of a word: its surface is the last string that was not in the dictionary. -/
theorem nodeAt_eq {i : Nat} {csv : CsvRow} (hi : words[i]? = some csv) :
    ∃ codepts, preprocessRawData (csv.surface tio) = some codepts ∧
      ex.nodeAt i = some {
        surface := (lastUnknown tio csv).getD []
        data := ex.row i
        position := (ex.lengths_.take i).sum
        length := codepts.length } := by
  obtain ⟨hlt, hword⟩ := List.getElem?_eq_some_iff.mp hi
  have hlen : words.length = ex.lengths_.length := h.lengths.length_eq
  obtain ⟨codepts, hcodepts, hlength⟩ := (List.forall₂_iff_get.mp h.lengths).2 i hlt (by omega)
  have hsurface := surfaceOf_negativeEntry (h.row_entries hi) 0
  have hget : ex.lengths_[i]? = some codepts.length := by
    rw [List.getElem?_eq_getElem (by omega)]
    exact congrArg some hlength.symm
  refine ⟨codepts, hword ▸ hcodepts, ?_⟩
  rw [FullyAnnotatedExample.nodeAt, hget]
  show (surfaceOf ex.strings_ (FullyAnnotatedExample.negativeEntry (ex.row i))).bind _ = _
  rw [FullyAnnotatedExample.negativeEntry, hsurface]
  unfold lastUnknown
  cases ((tio.fields.filter fun f => (f.str2int.find (csv.text f)).isNone).map csv.text).getLast? with
  | none => rfl
  | some text => rfl

end HoldsWords

/-- The surface of a node is the string of the surface field just when no later field has taken its
place. -/
theorem nodeAt_surface_iff {tio : TrainFieldsIndex} {words : List CsvRow}
    {ex ex' : FullyAnnotatedExample}
    (h : ReadsWords tio words { ex with data_ := [], lengths_ := [] } ex') {i : Nat} {csv : CsvRow}
    (hi : words[i]? = some csv) :
    (∃ node, ex'.nodeAt i = some node ∧ node.surface = csv.surface tio) ↔
      lastUnknown tio csv = some (csv.surface tio) ∨
        lastUnknown tio csv = none ∧ csv.surface tio = [] := by
  obtain ⟨codepts, -, hnode⟩ := (holdsWords_of_reads h (holdsWords_cleared tio ex)).nodeAt_eq hi
  rw [hnode]
  constructor
  · rintro ⟨node, hsome, hsurface⟩
    cases hsome
    cases hlast : lastUnknown tio csv with
    | none =>
        rw [hlast] at hsurface
        exact .inr ⟨rfl, hsurface.symm⟩
    | some text =>
        rw [hlast] at hsurface
        exact .inl (congrArg some hsurface)
  · rintro (hlast | ⟨hlast, hempty⟩)
    · exact ⟨_, rfl, by rw [hlast]; rfl⟩
    · exact ⟨_, rfl, by rw [hlast, hempty]; rfl⟩

def twoFields : List TrainingExampleField :=
  [⟨FlatMap.empty, 0, positions_empty⟩, ⟨FlatMap.empty, 1, positions_empty⟩]

theorem column_twoFields (i : Nat) (f : TrainingExampleField) (h : twoFields[i]? = some f) :
    f.exampleFieldIdx = i := by
  obtain rfl | rfl | i := i
  · cases h
    rfl
  · cases h
    rfl
  · cases h

/-- Two string fields whose dictionaries are empty, the surface being the first. -/
def surfaceThenReading : TrainFieldsIndex := ⟨twoFields, 0, column_twoFields, Nat.zero_lt_two⟩

def noExample : FullyAnnotatedExample := ⟨[], [], [], [], []⟩

theorem readsWords_ab :
    ReadsWords surfaceThenReading [⟨[[97], [98]], false⟩] { noExample with data_ := [], lengths_ := [] }
      ⟨[97], [[97], [98]], [-1, -2], [1], []⟩ :=
  .word rfl (.done _)

theorem nodeAt_surface_iff_ab :
    (∃ node, FullyAnnotatedExample.nodeAt ⟨[97], [[97], [98]], [-1, -2], [1], []⟩ 0 = some node ∧
        node.surface = CsvRow.surface surfaceThenReading ⟨[[97], [98]], false⟩) ↔
      lastUnknown surfaceThenReading ⟨[[97], [98]], false⟩ =
          some (CsvRow.surface surfaceThenReading ⟨[[97], [98]], false⟩) ∨
        lastUnknown surfaceThenReading ⟨[[97], [98]], false⟩ = none ∧
          CsvRow.surface surfaceThenReading ⟨[[97], [98]], false⟩ = [] :=
  nodeAt_surface_iff readsWords_ab rfl

/-- The reading is returned as the surface. -/
theorem nodeAt_surface_reading :
    ¬ ∀ (tio : TrainFieldsIndex) (words : List CsvRow) (ex ex' : FullyAnnotatedExample),
        ReadsWords tio words { ex with data_ := [], lengths_ := [] } ex' →
        ∀ i csv, words[i]? = some csv →
          ∃ node, ex'.nodeAt i = some node ∧ node.surface = csv.surface tio := by
  intro h
  obtain ⟨node, hnode, hsurface⟩ := h _ _ _ _ readsWords_ab 0 _ rfl
  have hb : node.surface = [98] := by
    have heq : FullyAnnotatedExample.nodeAt ⟨[97], [[97], [98]], [-1, -2], [1], []⟩ 0 =
        some ⟨[98], [-1, -2], 0, 1⟩ := by decide
    rw [heq, Option.some.injEq] at hnode
    rw [← hnode]
  rw [hb] at hsurface
  exact absurd hsurface (by decide)

end Jumanpp.Core.Training
