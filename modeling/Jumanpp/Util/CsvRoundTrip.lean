import Jumanpp.Util.CsvReader
import Mathlib.Data.List.Basic

/-!
# Reading back a written CSV document

A `Document` is a sequence of rows together with the way each field and each row end is written.
`Document.readable_iff` says for exactly which documents the reader gives the rows back.
-/

namespace Jumanpp.Util.Csv

structure Dialect where
  separator : Byte
  quote : Byte
  separator_ne_quote : separator ≠ quote
  separator_ne_lineFeed : separator ≠ lineFeed
  separator_ne_carriageReturn : separator ≠ carriageReturn
  quote_ne_lineFeed : quote ≠ lineFeed
  quote_ne_carriageReturn : quote ≠ carriageReturn

/-- The default arguments of the constructor of `CsvReader`. -/
def Dialect.rfc4180 : Dialect where
  separator := 44
  quote := 34
  separator_ne_quote := by decide
  separator_ne_lineFeed := by decide
  separator_ne_carriageReturn := by decide
  quote_ne_lineFeed := by decide
  quote_ne_carriageReturn := by decide

/-- Bytes that may stand in an unquoted field. -/
def Dialect.Plain (d : Dialect) (b : Byte) : Prop :=
  b ≠ d.separator ∧ b ≠ d.quote ∧ b ≠ carriageReturn ∧ b ≠ lineFeed

instance (d : Dialect) : DecidablePred d.Plain := fun b =>
  inferInstanceAs (Decidable (b ≠ d.separator ∧ b ≠ d.quote ∧ b ≠ carriageReturn ∧ b ≠ lineFeed))

inductive Field (d : Dialect)
  | bare (value : List Byte) (plain : ∀ b ∈ value, d.Plain b)
  | quoted (value : List Byte)

/-- Doubles every quote. -/
def escape (quote : Byte) (value : List Byte) : List Byte :=
  value.flatMap fun b => if b = quote then [quote, quote] else [b]

variable {d : Dialect}

def Field.value : Field d → List Byte
  | .bare value _ => value
  | .quoted value => value

def Field.text : Field d → List Byte
  | .bare value _ => value
  | .quoted value => d.quote :: escape d.quote value ++ [d.quote]

structure Row (d : Dialect) where
  first : Field d
  others : List (Field d)

def Row.fields (row : Row d) : List (Field d) :=
  row.first :: row.others

def Row.lastField (row : Row d) : Field d :=
  row.fields.getLast (by simp [Row.fields])

def Row.values (row : Row d) : List (List Byte) :=
  row.fields.map Field.value

/-- The fields after the first one, each with the separator before it. -/
def othersText (others : List (Field d)) : List Byte :=
  others.flatMap fun field => d.separator :: field.text

def Row.text (row : Row d) : List Byte :=
  row.first.text ++ othersText row.others

inductive Eol
  | lf
  | crlf

def Eol.text : Eol → List Byte
  | .lf => [lineFeed]
  | .crlf => [carriageReturn, lineFeed]

/-- The text of rows with their ends, and of a last row without one. -/
def rowsText (last : Option (Row d)) : List (Row d × Eol) → List Byte
  | [] => (last.map Row.text).getD []
  | (row, eol) :: rows => row.text ++ eol.text ++ rowsText last rows

/-- No row end `\n` is followed by a `\r` that is not quoted. -/
def LineFeedsEnd (last : Option (Row d)) : List (Row d × Eol) → Prop
  | [] => True
  | (_, .crlf) :: rows => LineFeedsEnd last rows
  | (_, .lf) :: rows =>
      (rowsText last rows).head? ≠ some carriageReturn ∧ LineFeedsEnd last rows

structure Document (d : Dialect) where
  rows : List (Row d × Eol)
  /-- The last row when it has no row end. -/
  last : Option (Row d)
  last_ne_blank : ∀ row ∈ last, row.text ≠ []
  lineFeedsEnd : LineFeedsEnd last rows

def Document.text (doc : Document d) : List Byte :=
  rowsText doc.last doc.rows

def Document.values (doc : Document d) : List (List (List Byte)) :=
  doc.rows.map (·.1.values) ++ doc.last.toList.map Row.values

def Dialect.reader (d : Dialect) (data : List Byte) : CsvReader :=
  .initFromMemory d.separator d.quote data

/-- The reader has room to unescape the field: its escaped text fits a page, or its first quote is
its last byte. -/
def Field.Fits : Field d → Prop
  | .bare _ _ => True
  | .quoted value =>
      d.quote ∈ value →
        (escape d.quote value).length ≤ pageSize ∨ value.idxOf d.quote + 1 = value.length

def Row.Fits (row : Row d) : Prop :=
  ∀ field ∈ row.fields, field.Fits

/-- A last row without a row end must not end in an unquoted empty field. -/
def Document.Readable (doc : Document d) : Prop :=
  (∀ row ∈ doc.rows, row.1.Fits) ∧
    ∀ row ∈ doc.last, row.Fits ∧ row.lastField.text ≠ []

section Quotes

variable (quote : Byte)

theorem escape_cons (b : Byte) (value : List Byte) :
    escape quote (b :: value) = (if b = quote then [quote, quote] else [b]) ++ escape quote value :=
  rfl

theorem escape_of_not_mem {value : List Byte} (h : quote ∉ value) : escape quote value = value := by
  induction value with
  | nil => rfl
  | cons b value ih =>
      have hb : b ≠ quote := fun hb => h (by simp [hb])
      rw [escape_cons, if_neg hb, ih (fun hmem => h (List.mem_cons_of_mem _ hmem))]
      rfl

theorem escape_append (left right : List Byte) :
    escape quote (left ++ right) = escape quote left ++ escape quote right :=
  List.flatMap_append

/-- The quote that closes a field is the first one that is not doubled. -/
theorem handleQuote_escape (value rest : List Byte) (hrest : rest.head? ≠ some quote)
    (wasQuoted : Bool) (raw : List Byte) :
    handleQuote quote wasQuoted raw (escape quote value ++ quote :: rest) =
      some ⟨raw ++ escape quote value, wasQuoted || decide (quote ∈ value), rest⟩ := by
  induction value generalizing wasQuoted raw with
  | nil =>
      cases rest with
      | nil => simp [escape, handleQuote]
      | cons next rest =>
          have hnext : next ≠ quote := by simpa using hrest
          simp [escape, handleQuote, hnext]
  | cons b value ih =>
      rw [escape_cons]
      by_cases hb : b = quote
      · subst hb
        simp only [↓reduceIte, List.cons_append, List.nil_append, handleQuote, ih]
        simp
      · have hstep : ∀ tail : List Byte, tail ≠ [] →
            handleQuote quote wasQuoted raw (b :: tail) =
              handleQuote quote wasQuoted (raw ++ [b]) tail := by
          intro tail htail
          cases tail with
          | nil => exact absurd rfl htail
          | cons next tail => simp [handleQuote, hb]
        have hmem : (quote ∈ b :: value) ↔ quote ∈ value := by simp [Ne.symm hb]
        simp only [hb, ↓reduceIte, List.cons_append, List.nil_append]
        rw [hstep _ (by simp), ih]
        simp [hmem]

theorem skipEscapes_escape (value : List Byte) :
    skipEscapes quote (escape quote value) = some value := by
  induction value with
  | nil => rfl
  | cons b value ih =>
      rw [escape_cons]
      by_cases hb : b = quote
      · subst hb
        simp [skipEscapes, ih]
      · simp only [hb, ↓reduceIte, List.cons_append, List.nil_append]
        cases htail : escape quote value with
        | nil =>
            rw [htail] at ih
            simp only [skipEscapes, Option.some.injEq] at ih
            simp [skipEscapes, hb, ← ih]
        | cons next tail =>
            rw [htail] at ih
            simp [skipEscapes, hb, ih]

/-- `unescapeString` on the text around the first quote of a field. -/
theorem unescapeString_escape (front back : List Byte) (hfront : quote ∉ front) :
    unescapeString quote (escape quote (front ++ quote :: back)) =
      if back = [] ∨ (escape quote (front ++ quote :: back)).length ≤ pageSize then
        some (front ++ quote :: back)
      else none := by
  have htext : escape quote (front ++ quote :: back) =
      front ++ quote :: quote :: escape quote back := by
    rw [escape_append, escape_of_not_mem quote hfront, escape_cons]
    simp
  have hplain : ∀ b ∈ front, (decide (b ≠ quote)) = true := by
    intro b hb
    exact decide_eq_true fun h => hfront (h ▸ hb)
  have htake : (front ++ quote :: quote :: escape quote back).takeWhile (· ≠ quote) = front := by
    rw [List.takeWhile_append_of_pos hplain]
    simp
  have hdrop : (front ++ quote :: quote :: escape quote back).dropWhile (· ≠ quote) =
      quote :: quote :: escape quote back := by
    rw [List.dropWhile_append_of_pos hplain]
    simp
  rw [htext]
  unfold unescapeString
  simp only [htake, hdrop, prepareMemory, decide_eq_true_eq]
  cases back with
  | nil => simp [escape]
  | cons b back =>
      have hskip := skipEscapes_escape quote (b :: back)
      cases htail : escape quote (b :: back) with
      | nil =>
          rw [htail] at hskip
          simp [skipEscapes] at hskip
      | cons next tail =>
          rw [htail] at hskip
          simp [hskip]

end Quotes

/-- The reader was constructed with the characters of the dialect. -/
structure CsvReader.Speaks (r : CsvReader) (d : Dialect) : Prop where
  separator : r.separator = d.separator
  quote : r.quote = d.quote

section Fields

variable {r : CsvReader} (hr : r.Speaks d)

include hr

theorem nextLineLoop_plain (value rest field : List Byte) (shouldEmit : Bool)
    (fields : List (List Byte)) (hvalue : ∀ b ∈ value, d.Plain b) :
    r.nextLineLoop (value ++ rest) field shouldEmit fields =
      r.nextLineLoop rest (field ++ value) shouldEmit fields := by
  induction value generalizing field with
  | nil => simp
  | cons b value ih =>
      obtain ⟨hsep, hquote, hcr, hlf⟩ := hvalue b (by simp)
      rw [List.cons_append, CsvReader.nextLineLoop]
      rw [if_neg hlf, if_neg (fun h => hcr h.1), hr.separator, if_neg hsep, hr.quote,
        if_neg hquote, ih _ (fun c hc => hvalue c (List.mem_cons_of_mem _ hc))]
      simp

theorem fieldEnds_head {rest : List Byte} (hrest : r.fieldEnds rest = true) :
    rest.head? ≠ some d.quote := by
  cases rest with
  | nil => simp
  | cons next rest =>
      simp only [CsvReader.fieldEnds, hr.separator, Bool.or_eq_true, beq_iff_eq] at hrest
      simp only [List.head?_cons, ne_eq, Option.some.injEq]
      rintro rfl
      obtain (h | h) | h := hrest
      · exact d.quote_ne_lineFeed h
      · exact d.quote_ne_carriageReturn h
      · exact d.separator_ne_quote h.symm

/-- A quoted field at the field start: emitted when it can be unescaped. -/
theorem nextLineLoop_quoted (value rest : List Byte) (fields : List (List Byte))
    (hrest : r.fieldEnds rest = true) :
    r.nextLineLoop ((Field.quoted value : Field d).text ++ rest) [] true fields =
      match QuoteScan.value d.quote ⟨escape d.quote value, decide (d.quote ∈ value), rest⟩ with
      | none => r.fail fields
      | some emitted =>
          r.nextLineLoop rest (Field.quoted value : Field d).text false (fields ++ [emitted]) := by
  have hscan : handleQuote r.quote false [] (escape d.quote value ++ d.quote :: rest) =
      some ⟨escape d.quote value, decide (d.quote ∈ value), rest⟩ := by
    rw [hr.quote, handleQuote_escape _ _ _ (fieldEnds_head hr hrest)]
    simp
  have htext : (Field.quoted value : Field d).text ++ rest =
      d.quote :: (escape d.quote value ++ d.quote :: rest) := by
    simp [Field.text]
  rw [htext, CsvReader.nextLineLoop]
  rw [if_neg d.quote_ne_lineFeed, if_neg (fun h => d.quote_ne_carriageReturn h.1), hr.separator,
    if_neg d.separator_ne_quote.symm, hr.quote, if_pos rfl, if_neg (by simp)]
  rw [hr.quote] at hscan
  split
  next h => rw [h] at hscan; cases hscan
  next scan h =>
    rw [h, Option.some.injEq] at hscan
    subst hscan
    simp only [hrest, ↓reduceIte]
    rfl

omit hr in
theorem quotedValue_eq (value rest : List Byte) [Decidable (Field.quoted value : Field d).Fits] :
    QuoteScan.value d.quote ⟨escape d.quote value, decide (d.quote ∈ value), rest⟩ =
      if (Field.quoted value : Field d).Fits then some value else none := by
  unfold QuoteScan.value
  by_cases hmem : d.quote ∈ value
  · obtain ⟨front, back, hvalue, hfront⟩ := List.eq_append_cons_of_mem hmem
    have hfirst : value.idxOf d.quote + 1 = value.length ↔ back = [] := by
      rw [hvalue, List.idxOf_append_of_notMem hfront]
      simp
    have hfits : (Field.quoted value : Field d).Fits ↔
        back = [] ∨ (escape d.quote value).length ≤ pageSize := by
      simp only [Field.Fits, hmem, hfirst, forall_const]
      exact or_comm
    have hunescape := unescapeString_escape d.quote front back hfront
    rw [← hvalue] at hunescape
    simp only [hmem, decide_true, ↓reduceIte, hunescape, hfits]
  · simp [hmem, escape_of_not_mem, Field.Fits]

/-- Over a field that the reader has room for, the loop stops at the byte after the field with the
value of the field emitted, or to be emitted there. -/
theorem nextLineLoop_field (field : Field d) (rest : List Byte) (fields : List (List Byte))
    (hrest : r.fieldEnds rest = true) (hfits : field.Fits) :
    ∃ shouldEmit emitted,
      r.nextLineLoop (field.text ++ rest) [] true fields =
        r.nextLineLoop rest field.text shouldEmit emitted ∧
      emit shouldEmit emitted field.text = fields ++ [field.value] ∧
      (field.text = [] → emitted = fields) := by
  classical
  cases field with
  | bare value plain =>
      exact ⟨true, fields, nextLineLoop_plain hr value rest [] true fields plain, rfl, fun _ => rfl⟩
  | quoted value =>
      refine ⟨false, fields ++ [value], ?_, rfl, by simp [Field.text]⟩
      rw [nextLineLoop_quoted hr _ _ _ hrest, quotedValue_eq, if_pos hfits]

theorem nextLineLoop_field_fail (field : Field d) (rest : List Byte) (fields : List (List Byte))
    (hrest : r.fieldEnds rest = true) (hfits : ¬ field.Fits) :
    (r.nextLineLoop (field.text ++ rest) [] true fields).1 = false := by
  classical
  cases field with
  | bare value plain => exact absurd trivial hfits
  | quoted value =>
      rw [nextLineLoop_quoted hr _ _ _ hrest, quotedValue_eq, if_neg hfits]
      rfl

theorem nextLineLoop_separator (rest field : List Byte) (shouldEmit : Bool)
    (fields : List (List Byte)) :
    r.nextLineLoop (d.separator :: rest) field shouldEmit fields =
      r.nextLineLoop rest [] true (emit shouldEmit fields field) := by
  rw [CsvReader.nextLineLoop, if_neg d.separator_ne_lineFeed,
    if_neg (fun h => d.separator_ne_carriageReturn h.1), hr.separator, if_pos rfl]

omit hr in
theorem nextLineLoop_eol (eol : Eol) (rest field : List Byte) (shouldEmit : Bool)
    (fields : List (List Byte)) (hrest : eol = .lf → rest.head? ≠ some carriageReturn) :
    r.nextLineLoop (eol.text ++ rest) field shouldEmit fields =
      r.finish (emit shouldEmit fields field) rest := by
  cases eol with
  | lf =>
      have hskip : skipCarriageReturn rest = rest := by
        cases rest with
        | nil => rfl
        | cons ch rest =>
            have hch : ch ≠ carriageReturn := by simpa using hrest rfl
            simp [skipCarriageReturn, hch]
      change r.nextLineLoop (lineFeed :: rest) field shouldEmit fields = _
      rw [CsvReader.nextLineLoop, if_pos rfl, hskip]
  | crlf =>
      change r.nextLineLoop (carriageReturn :: lineFeed :: rest) field shouldEmit fields = _
      rw [CsvReader.nextLineLoop, if_neg (by decide), if_pos ⟨rfl, rfl⟩, List.tail_cons]

theorem fieldEnds_separator (rest : List Byte) : r.fieldEnds (d.separator :: rest) = true := by
  simp [CsvReader.fieldEnds, hr.separator]

omit hr in
theorem fieldEnds_eol (eol : Eol) (rest : List Byte) : r.fieldEnds (eol.text ++ rest) = true := by
  cases eol <;> simp [CsvReader.fieldEnds, Eol.text]

/-- The loop over the fields of a row. -/
theorem nextLineLoop_row (first : Field d) (others : List (Field d)) (rest : List Byte)
    (fields : List (List Byte)) (hrest : r.fieldEnds rest = true)
    (hfits : Row.Fits ⟨first, others⟩) :
    ∃ shouldEmit emitted,
      r.nextLineLoop (Row.text ⟨first, others⟩ ++ rest) [] true fields =
        r.nextLineLoop rest (Row.lastField ⟨first, others⟩).text shouldEmit emitted ∧
      emit shouldEmit emitted (Row.lastField ⟨first, others⟩).text =
        fields ++ Row.values ⟨first, others⟩ ∧
      ((Row.lastField ⟨first, others⟩).text = [] →
        emitted = fields ++ (Row.values ⟨first, others⟩).dropLast) := by
  induction others generalizing first fields with
  | nil =>
      have hfirst : first.Fits := hfits first (by simp [Row.fields])
      obtain ⟨shouldEmit, emitted, hloop, hemit, hempty⟩ :=
        nextLineLoop_field hr first rest fields hrest hfirst
      refine ⟨shouldEmit, emitted, ?_, hemit, ?_⟩
      · simpa [Row.text, othersText, Row.lastField, Row.fields] using hloop
      · simpa [Row.values, Row.lastField, Row.fields] using hempty
  | cons second others ih =>
      have hfirst : first.Fits := hfits first (by simp [Row.fields])
      have hothers : Row.Fits ⟨second, others⟩ :=
        fun field hfield => hfits field (List.mem_cons_of_mem _ hfield)
      have htext : Row.text ⟨first, second :: others⟩ ++ rest =
          first.text ++ d.separator :: (Row.text ⟨second, others⟩ ++ rest) := by
        simp [Row.text, othersText]
      obtain ⟨shouldEmit, emitted, hloop, hemit, -⟩ :=
        nextLineLoop_field hr first _ fields
          (fieldEnds_separator hr (Row.text ⟨second, others⟩ ++ rest)) hfirst
      obtain ⟨shouldEmit', emitted', hloop', hemit', hempty'⟩ :=
        ih second (fields ++ [first.value]) hothers
      refine ⟨shouldEmit', emitted', ?_, ?_, ?_⟩
      · rw [htext, hloop, nextLineLoop_separator hr, hemit, hloop']
        rfl
      · change emit shouldEmit' emitted' (Row.lastField ⟨second, others⟩).text = _
        rw [hemit']
        simp [Row.values, Row.fields]
      · intro hlast
        rw [hempty' hlast]
        simp [Row.values, Row.fields]

theorem nextLineLoop_row_fail (first : Field d) (others : List (Field d)) (rest : List Byte)
    (fields : List (List Byte)) (hrest : r.fieldEnds rest = true)
    (hfits : ¬ Row.Fits ⟨first, others⟩) :
    (r.nextLineLoop (Row.text ⟨first, others⟩ ++ rest) [] true fields).1 = false := by
  induction others generalizing first fields with
  | nil =>
      have hfirst : ¬ first.Fits := by simpa [Row.Fits, Row.fields] using hfits
      simpa [Row.text, othersText] using nextLineLoop_field_fail hr first rest fields hrest hfirst
  | cons second others ih =>
      have hseparator := fieldEnds_separator hr (Row.text ⟨second, others⟩ ++ rest)
      have htext : Row.text ⟨first, second :: others⟩ ++ rest =
          first.text ++ d.separator :: (Row.text ⟨second, others⟩ ++ rest) := by
        simp [Row.text, othersText]
      rw [htext]
      by_cases hfirst : first.Fits
      · have hothers : ¬ Row.Fits ⟨second, others⟩ := by
          intro hothers
          refine hfits fun field hfield => ?_
          obtain rfl | hfield := List.mem_cons.mp hfield
          · exact hfirst
          · exact hothers field hfield
        obtain ⟨shouldEmit, emitted, hloop, -, -⟩ :=
          nextLineLoop_field hr first _ fields hseparator hfirst
        rw [hloop, nextLineLoop_separator hr]
        exact ih second _ hothers
      · exact nextLineLoop_field_fail hr first _ fields hseparator hfirst

end Fields

section Lines

variable {r : CsvReader} (hr : r.Speaks d)

include hr

theorem speaks_startLine : r.startLine.Speaks d :=
  ⟨hr.separator, hr.quote⟩

/-- A row with a row end is read whole, and the reader goes on after it. -/
theorem nextLine_row (row : Row d) (eol : Eol) (rest : List Byte)
    (hposition : r.position = row.text ++ eol.text ++ rest)
    (hrest : eol = .lf → rest.head? ≠ some carriageReturn) (hfits : row.Fits) :
    r.nextLine = r.startLine.finish row.values rest := by
  have hne : r.position ≠ [] := by cases eol <;> simp [hposition, Eol.text]
  obtain ⟨shouldEmit, emitted, hloop, hemit, -⟩ :=
    nextLineLoop_row (speaks_startLine hr) row.first row.others _ [] (fieldEnds_eol eol rest) hfits
  rw [CsvReader.nextLine, if_neg hne, hposition, List.append_assoc]
  refine hloop.trans ?_
  rw [nextLineLoop_eol eol rest _ _ _ hrest, hemit]
  rfl

/-- A last row without a row end is read whole, unless it ends in an unquoted empty field: there
the reader stops short and stays where it is. -/
theorem nextLine_last (row : Row d) (hposition : r.position = row.text) (hrow : row.text ≠ [])
    (hfits : row.Fits) :
    r.nextLine =
      if row.lastField.text = [] then r.startLine.finish row.values.dropLast r.position
      else r.startLine.finish row.values [] := by
  obtain ⟨shouldEmit, emitted, hloop, hemit, hempty⟩ :=
    nextLineLoop_row (speaks_startLine hr) row.first row.others [] [] rfl hfits
  have hloop' : r.startLine.nextLineLoop row.text [] true [] =
      r.startLine.nextLineLoop [] row.lastField.text shouldEmit emitted := by
    simpa using hloop
  rw [CsvReader.nextLine, hposition, if_neg hrow, hloop', CsvReader.nextLineLoop]
  split
  next hlast =>
    rw [hempty hlast, ← hposition]
    rfl
  next hlast =>
    rw [hemit]
    rfl

theorem nextLine_fail (row : Row d) (rest : List Byte)
    (hposition : r.position = row.text ++ rest) (hrest : r.fieldEnds rest = true)
    (hfits : ¬ row.Fits) : r.nextLine.1 = false := by
  rw [CsvReader.nextLine]
  split
  · rfl
  · rw [hposition]
    exact nextLineLoop_row_fail (speaks_startLine hr) row.first row.others rest [] hrest hfits

end Lines

theorem row_values_ne_nil (row : Row d) : row.values ≠ [] := by
  simp [Row.values, Row.fields]

/-- Rows with row ends and a last row without one, from wherever the reader has got to. -/
theorem yields_rows {r : CsvReader} (hr : r.Speaks d) (last : Option (Row d))
    (hblank : ∀ row ∈ last, row.text ≠ []) (rows : List (Row d × Eol))
    (hends : LineFeedsEnd last rows) (hposition : r.position = rowsText last rows) :
    r.Yields (rows.map (·.1.values) ++ last.toList.map Row.values) ↔
      (∀ row ∈ rows, row.1.Fits) ∧ ∀ row ∈ last, row.Fits ∧ row.lastField.text ≠ [] := by
  induction rows generalizing r with
  | nil =>
      cases last with
      | none =>
          have hnil : r.position = [] := hposition
          simp [CsvReader.Yields, CsvReader.nextLine, hnil]
      | some row =>
          have htext : r.position = row.text := hposition
          have hrow := hblank row rfl
          simp only [List.map_nil, Option.toList_some, List.map_cons, List.nil_append,
            CsvReader.Yields, List.not_mem_nil, false_implies, implies_true, true_and,
            Option.mem_some_iff, forall_eq']
          by_cases hfits : row.Fits
          · rw [nextLine_last hr row htext hrow hfits]
            split
            next hlast =>
              have hne : row.values.dropLast ≠ row.values := by
                intro h
                have hlength := congrArg List.length h
                have hpos := List.length_pos_iff.mpr (row_values_ne_nil row)
                rw [List.length_dropLast] at hlength
                omega
              simp [CsvReader.finish, hlast, hne]
            next hlast =>
              simp [CsvReader.finish, hlast, hfits, row_values_ne_nil, CsvReader.nextLine]
          · have hfail := nextLine_fail hr row [] (by simpa using htext) rfl hfits
            simp [hfail, hfits]
  | cons head rows ih =>
      obtain ⟨row, eol⟩ := head
      have htext : r.position = row.text ++ eol.text ++ rowsText last rows := hposition
      have hrest : eol = .lf → (rowsText last rows).head? ≠ some carriageReturn := by
        rintro rfl
        exact hends.1
      have hends' : LineFeedsEnd last rows := by
        cases eol
        · exact hends.2
        · exact hends
      simp only [List.map_cons, List.cons_append, CsvReader.Yields, List.forall_mem_cons]
      by_cases hfits : row.Fits
      · have hnext := nextLine_row hr row eol (rowsText last rows) htext hrest hfits
        have hspeaks : (r.startLine.finish row.values (rowsText last rows)).2.Speaks d :=
          ⟨hr.separator, hr.quote⟩
        have hrows := ih hspeaks hends' rfl
        rw [hnext, hrows]
        simp [CsvReader.finish, hfits, row_values_ne_nil]
      · have hfail := nextLine_fail hr row (eol.text ++ rowsText last rows)
          (by simpa using htext) (fieldEnds_eol eol _) hfits
        simp [hfail, hfits]

/-- The reader gives back exactly the rows of a document if and only if the document is readable:
every quoted field can be unescaped, and the data does not end in an unquoted empty field. -/
theorem Document.yields_iff_readable (doc : Document d) :
    (d.reader doc.text).Yields doc.values ↔ doc.Readable :=
  yields_rows ⟨rfl, rfl⟩ doc.last doc.last_ne_blank doc.rows doc.lineFeedsEnd rfl

/-- The data `a,`: one row of the fields `a` and the empty string, without a row end. -/
def trailingEmptyField : Document .rfc4180 where
  rows := []
  last := some ⟨.bare [97] (List.forall_mem_singleton.mpr (by decide)), [.bare [] (by simp)]⟩
  last_ne_blank := by simp [Row.text, Field.text]
  lineFeedsEnd := trivial

/-- The reader answers with the row `a` alone, and does so on every further call. -/
theorem trailingEmptyField_not_yielded :
    trailingEmptyField.text = [97, 44] ∧
      ¬ (Dialect.rfc4180.reader trailingEmptyField.text).Yields trailingEmptyField.values := by
  refine ⟨rfl, ?_⟩
  have hnext : (Dialect.rfc4180.reader [97, 44]).nextLine.2.fields = [[97]] := by
    simp [CsvReader.nextLine, CsvReader.nextLineLoop, Dialect.reader, Dialect.rfc4180,
      CsvReader.initFromMemory, CsvReader.startLine, CsvReader.finish, emit, lineFeed,
      carriageReturn]
  intro h
  have hrow : (Dialect.rfc4180.reader [97, 44]).nextLine.2.fields = [[97], []] := h.2.1
  rw [hnext] at hrow
  cases hrow

end Jumanpp.Util.Csv
