import Jumanpp.Jumandic.MdicPrinting

/-!
# Reading printed lines

The reader gets back all fields of a line when it does not stop within one of them.  A carriage return at
the end of a line and one at the beginning of a line are taken for parts of the line ends.
-/

namespace Jumanpp.Jumandic.Output

open Jumanpp.Lib Jumanpp.Util.Csv

/-! ## One field -/

/-- The reader does not stop within the printed field. -/
def Whole (data : List Byte) : Prop :=
  if Bare data then lineFeed ∉ data else (Field.quoted data : Field .rfc4180).Fits

section Fields

variable {r : CsvReader} (hr : r.Speaks .rfc4180)

include hr

/-- A carriage return within a field is read, unless a line feed follows it. -/
theorem nextLineLoop_bare (data rest field : List Byte) (shouldEmit : Bool)
    (fields : List (List Byte)) (hbare : Bare data) (hlf : lineFeed ∉ data)
    (hend : data.getLast? = some carriageReturn → rest.head? ≠ some lineFeed) :
    r.nextLineLoop (data ++ rest) field shouldEmit fields =
      r.nextLineLoop rest (field ++ data) shouldEmit fields := by
  induction data generalizing field with
  | nil => rw [List.nil_append, List.append_nil]
  | cons c data ih =>
      obtain ⟨hcomma, hquote⟩ := hbare
      simp only [List.mem_cons, not_or] at hcomma hquote hlf
      have hcr : ¬(c = carriageReturn ∧ (data ++ rest).head? = some lineFeed) := by
        rintro ⟨rfl, hhead⟩
        cases data with
        | nil => exact hend rfl hhead
        | cons next data =>
            rw [List.cons_append, List.head?_cons, Option.some_inj] at hhead
            exact hlf.2 (hhead ▸ List.mem_cons_self)
      have hend' : data.getLast? = some carriageReturn → rest.head? ≠ some lineFeed := by
        intro h
        apply hend
        rw [List.getLast?_cons, h]
        rfl
      have hseparator : r.separator = comma := hr.separator
      have hquotation : r.quote = doubleQuote := hr.quote
      rw [List.cons_append, CsvReader.nextLineLoop, if_neg (Ne.symm hlf.1), if_neg hcr, hseparator,
        if_neg (Ne.symm hcomma.1), hquotation, if_neg (Ne.symm hquote.1),
        ih (field ++ [c]) ⟨hcomma.2, hquote.2⟩ hlf.2 hend', List.append_assoc]
      rfl

/-- A field after which the reader goes on with the rest. -/
theorem nextLineLoop_whole (data rest : List Byte) (fields : List (List Byte)) (hwhole : Whole data)
    (hends : r.fieldEnds rest = true)
    (hend : Bare data → data.getLast? = some carriageReturn → rest.head? ≠ some lineFeed) :
    ∃ shouldEmit emitted,
      r.nextLineLoop (printMaybeQuoted data ++ rest) [] true fields =
        r.nextLineLoop rest (printMaybeQuoted data) shouldEmit emitted ∧
      emit shouldEmit emitted (printMaybeQuoted data) = fields ++ [data] := by
  unfold Whole at hwhole
  rw [printMaybeQuoted_eq]
  split at hwhole
  next hbare =>
    rw [if_pos hbare]
    refine ⟨true, fields, ?_, rfl⟩
    rw [nextLineLoop_bare hr data rest [] true fields hbare hwhole (hend hbare)]
    rfl
  next hbare =>
    rw [if_neg hbare]
    obtain ⟨shouldEmit, emitted, hloop, hemit, -⟩ :=
      nextLineLoop_field hr (Field.quoted data) rest fields hends hwhole
    exact ⟨shouldEmit, emitted, hloop, hemit⟩

/-- The carriage return in front of the end of a line is not part of the field. -/
theorem nextLineLoop_crlf (data rest : List Byte) (fields : List (List Byte)) (hbare : Bare data)
    (hlf : lineFeed ∉ data) (hcr : data.getLast? = some carriageReturn) :
    r.nextLineLoop (data ++ lineFeed :: rest) [] true fields =
      r.finish (fields ++ [data.dropLast]) rest := by
  obtain ⟨front, rfl⟩ : ∃ front, data = front ++ [carriageReturn] :=
    List.getLast?_eq_some_iff.mp hcr
  rw [List.mem_append, not_or] at hlf
  have hfront := ((bare_append front [carriageReturn]).mp hbare).1
  rw [List.append_assoc, nextLineLoop_bare hr front _ [] true fields hfront hlf.1
    (fun _ => by simp [lineFeed, carriageReturn]), List.dropLast_concat]
  exact nextLineLoop_eol .crlf rest front true fields (fun h => by cases h)

/-- A line feed within a bare field ends the line; the reader goes on within the field. -/
theorem nextLineLoop_broken (data rest : List Byte) (fields : List (List Byte)) (hbare : Bare data)
    (hlf : lineFeed ∈ data) (hrest : rest.head? ≠ some carriageReturn) :
    ∃ field more, Bare more ∧
      r.nextLineLoop (data ++ rest) [] true fields = r.finish (fields ++ [field]) (more ++ rest) := by
  obtain ⟨front, back, hdata, hfront⟩ := List.eq_append_cons_of_mem hlf
  rw [hdata] at hbare ⊢
  obtain ⟨hbare₁, hbare₂⟩ := (bare_append front (lineFeed :: back)).mp hbare
  have hback : Bare back := (bare_cons (by decide) back).mp hbare₂
  rw [List.append_assoc, List.cons_append]
  by_cases hcr : front.getLast? = some carriageReturn
  · exact ⟨front.dropLast, back, hback, nextLineLoop_crlf hr front (back ++ rest) fields hbare₁ hfront hcr⟩
  · rw [nextLineLoop_bare hr front _ [] true fields hbare₁ hfront (fun h => absurd h hcr)]
    cases back with
    | nil =>
        refine ⟨front, [], hback, ?_⟩
        exact nextLineLoop_eol .lf rest front true fields (fun _ => hrest)
    | cons c back =>
        by_cases hc : c = carriageReturn
        · refine ⟨front, back, (bare_cons (hc ▸ by decide) back).mp hback, ?_⟩
          rw [CsvReader.nextLineLoop, if_pos rfl, List.cons_append, skipCarriageReturn, if_pos hc]
          rfl
        · refine ⟨front, c :: back, hback, ?_⟩
          rw [CsvReader.nextLineLoop, if_pos rfl, List.cons_append, skipCarriageReturn, if_neg hc]
          rfl

end Fields

/-! ## One line -/

/-- The fields of a line, of which the first one is always there. -/
structure Line where
  first : List Byte
  others : List (List Byte)

namespace Line

variable (line : Line)

def values : List (List Byte) := line.first :: line.others

def text : List Byte :=
  printMaybeQuoted line.first ++ line.others.flatMap fun data => comma :: printMaybeQuoted data

/-- The line after a line feed: a carriage return in front of it is taken for a part of that line end. -/
def afterLineFeed : Line :=
  { line with first := if Bare line.first then skipCarriageReturn line.first else line.first }

end Line

/-- The last field is printed with a carriage return at its end. -/
def EndsInReturn : List (List Byte) → Prop
  | [] => False
  | [data] => Bare data ∧ data.getLast? = some carriageReturn
  | _ :: next :: values => EndsInReturn (next :: values)

instance decidableEndsInReturn : (values : List (List Byte)) → Decidable (EndsInReturn values)
  | [] => inferInstanceAs (Decidable False)
  | [data] => inferInstanceAs (Decidable (Bare data ∧ data.getLast? = some carriageReturn))
  | _ :: next :: values => decidableEndsInReturn (next :: values)

/-- The fields as they are read. -/
def trimLast : List (List Byte) → List (List Byte)
  | [] => []
  | [data] => [if Bare data ∧ data.getLast? = some carriageReturn then data.dropLast else data]
  | data :: next :: values => data :: trimLast (next :: values)

section Lines

variable {r : CsvReader} (hr : r.Speaks .rfc4180)

include hr

theorem nextLineLoop_line (first : List Byte) (others : List (List Byte)) (rest : List Byte)
    (fields : List (List Byte)) (hwhole : ∀ data ∈ first :: others, Whole data) :
    r.nextLineLoop (Line.text ⟨first, others⟩ ++ lineFeed :: rest) [] true fields =
      r.finish (fields ++ trimLast (first :: others))
        (if EndsInReturn (first :: others) then rest else skipCarriageReturn rest) := by
  induction others generalizing first fields with
  | nil =>
      have hfirst := hwhole first List.mem_cons_self
      have htext : Line.text ⟨first, []⟩ = printMaybeQuoted first := List.append_nil _
      rw [htext]
      unfold EndsInReturn trimLast
      by_cases hcr : Bare first ∧ first.getLast? = some carriageReturn
      · rw [if_pos hcr, if_pos hcr, printMaybeQuoted_eq, if_pos hcr.1]
        unfold Whole at hfirst
        rw [if_pos hcr.1] at hfirst
        exact nextLineLoop_crlf hr first rest fields hcr.1 hfirst hcr.2
      · obtain ⟨shouldEmit, emitted, hloop, hemit⟩ :=
          nextLineLoop_whole hr first (lineFeed :: rest) fields hfirst rfl
            (fun hbare hlast => absurd ⟨hbare, hlast⟩ hcr)
        rw [if_neg hcr, if_neg hcr, hloop, CsvReader.nextLineLoop, if_pos rfl, hemit]
  | cons second others ih =>
      have hseparator := @fieldEnds_separator .rfc4180 r hr
        (printMaybeQuoted second ++ others.flatMap (fun data => comma :: printMaybeQuoted data) ++
          lineFeed :: rest)
      obtain ⟨shouldEmit, emitted, hloop, hemit⟩ :=
        nextLineLoop_whole hr first _ fields (hwhole first List.mem_cons_self) hseparator
          (fun _ _ h => by cases h)
      have htext : Line.text ⟨first, second :: others⟩ ++ lineFeed :: rest =
          printMaybeQuoted first ++ comma :: (Line.text ⟨second, others⟩ ++ lineFeed :: rest) := by
        simp [Line.text]
      have hnext := ih second (fields ++ [first])
        (fun data hdata => hwhole data (List.mem_cons_of_mem first hdata))
      rw [htext]
      refine hloop.trans ((nextLineLoop_separator hr _ _ shouldEmit emitted).trans ?_)
      rw [hemit]
      refine hnext.trans ?_
      rw [List.append_assoc]
      rfl

theorem nextLineLoop_unfit {data : List Byte} (hwhole : ¬Whole data) (hbare : ¬Bare data)
    (rest : List Byte) (fields : List (List Byte)) (hends : r.fieldEnds rest = true) :
    (r.nextLineLoop (printMaybeQuoted data ++ rest) [] true fields).1 = false := by
  unfold Whole at hwhole
  rw [if_neg hbare] at hwhole
  rw [printMaybeQuoted_eq, if_neg hbare]
  exact nextLineLoop_field_fail hr (Field.quoted data) rest fields hends hwhole

theorem nextLineLoop_not_whole {data : List Byte} (hwhole : ¬Whole data) (hbare : Bare data)
    (rest : List Byte) (fields : List (List Byte)) (hrest : rest.head? ≠ some carriageReturn) :
    ∃ field more, Bare more ∧ r.nextLineLoop (printMaybeQuoted data ++ rest) [] true fields =
      r.finish (fields ++ [field]) (more ++ rest) := by
  unfold Whole at hwhole
  rw [if_pos hbare] at hwhole
  rw [printMaybeQuoted_eq, if_pos hbare]
  exact nextLineLoop_broken hr data rest fields hbare (not_not.mp hwhole) hrest

/-- When the reader returns as many fields as a line has, it has not stopped within one of them, or it
has stopped within the last one. -/
theorem whole_of_nextLineLoop (first : List Byte) (others : List (List Byte)) (rest : List Byte)
    (fields : List (List Byte)) {result : Bool × CsvReader}
    (hloop : r.nextLineLoop (Line.text ⟨first, others⟩ ++ lineFeed :: rest) [] true fields = result)
    (hnext : result.1 = true)
    (hcount : result.2.fields.length = fields.length + others.length + 1) :
    (∀ data ∈ first :: others, Whole data) ∨
      ∃ more, Bare more ∧ result.2.position = more ++ lineFeed :: rest := by
  induction others generalizing first fields with
  | nil =>
      have htext : Line.text ⟨first, []⟩ = printMaybeQuoted first := List.append_nil _
      rw [htext] at hloop
      by_cases hwhole : Whole first
      · exact .inl fun data hdata => List.mem_singleton.mp hdata ▸ hwhole
      by_cases hbare : Bare first
      · obtain ⟨field, more, hmore, hstop⟩ := nextLineLoop_not_whole hr hwhole hbare
          (lineFeed :: rest) fields (by simp [lineFeed, carriageReturn])
        refine .inr ⟨more, hmore, ?_⟩
        rw [← hloop, hstop]
        rfl
      · rw [← hloop, nextLineLoop_unfit hr hwhole hbare (lineFeed :: rest) fields rfl] at hnext
        cases hnext
  | cons second others ih =>
      have htext : Line.text ⟨first, second :: others⟩ ++ lineFeed :: rest =
          printMaybeQuoted first ++ comma :: (Line.text ⟨second, others⟩ ++ lineFeed :: rest) := by
        simp [Line.text]
      have hseparator : r.fieldEnds (comma :: (Line.text ⟨second, others⟩ ++ lineFeed :: rest)) = true :=
        @fieldEnds_separator .rfc4180 r hr _
      rw [htext] at hloop
      by_cases hwhole : Whole first
      · obtain ⟨shouldEmit, emitted, hfirst, hemit⟩ :=
          nextLineLoop_whole hr first _ fields hwhole hseparator (by simp [comma, lineFeed])
        have hothers := (hfirst.trans (nextLineLoop_separator hr _ _ shouldEmit emitted)).symm.trans hloop
        rw [hemit] at hothers
        have hcount' : result.2.fields.length = (fields ++ [first]).length + others.length + 1 := by
          rw [hcount, List.length_append, List.length_cons, List.length_singleton]
          omega
        refine (ih second (fields ++ [first]) hothers hcount').imp_left fun h data hdata => ?_
        rcases List.mem_cons.mp hdata with rfl | hdata
        · exact hwhole
        · exact h data hdata
      by_cases hbare : Bare first
      · obtain ⟨field, more, hmore, hstop⟩ := nextLineLoop_not_whole hr hwhole hbare
          (comma :: (Line.text ⟨second, others⟩ ++ lineFeed :: rest)) fields
          (by simp [comma, carriageReturn])
        rw [← hloop, hstop] at hcount
        simp [CsvReader.finish] at hcount
      · rw [← hloop, nextLineLoop_unfit hr hwhole hbare _ fields hseparator] at hnext
        cases hnext

/-- Behind a line feed within a bare field there is one more field in the line. -/
theorem length_nextLine_bare {more rest : List Byte} (hbare : Bare more)
    (hposition : r.position = more ++ lineFeed :: rest) : r.nextLine.2.fields.length = 1 := by
  have hspeaks := speaks_startLine hr
  have hne : r.position ≠ [] := by
    rw [hposition]
    simp
  rw [CsvReader.nextLine, if_neg hne, hposition]
  by_cases hlf : lineFeed ∈ more
  · obtain ⟨field, more', -, hstop⟩ := nextLineLoop_broken hspeaks more (lineFeed :: rest) [] hbare hlf
      (by simp [lineFeed, carriageReturn])
    rw [hstop]
    rfl
  by_cases hcr : more.getLast? = some carriageReturn
  · rw [nextLineLoop_crlf hspeaks more rest [] hbare hlf hcr]
    rfl
  · rw [nextLineLoop_bare hspeaks more _ [] true [] hbare hlf (fun h => absurd h hcr),
      CsvReader.nextLineLoop, if_pos rfl]
    rfl

end Lines

/-! ## All lines -/

def linesText (lines : List Line) : List Byte :=
  lines.flatMap fun line => line.text ++ [lineFeed]

/-- The line as it stands before the reader, behind a line feed or not. -/
def Line.behind (skip : Bool) (line : Line) : Line :=
  if skip then line.afterLineFeed else line

/-- The text of lines, behind a line feed or not. -/
def textBehind (skip : Bool) (lines : List Line) : List Byte :=
  if skip then skipCarriageReturn (linesText lines) else linesText lines

/-- What the reader makes of lines in which it does not stop. -/
def readLines (skip : Bool) : List Line → List (List (List Byte))
  | [] => []
  | line :: lines =>
      trimLast (line.behind skip).values ::
        readLines (!decide (EndsInReturn (line.behind skip).values)) lines

/-- `nextLine` returns the rows one after another, and nothing is left then. -/
def ReadsAll : CsvReader → List (List (List Byte)) → Prop
  | r, [] => r.position = []
  | r, row :: rows => r.nextLine.1 = true ∧ r.nextLine.2.fields = row ∧ ReadsAll r.nextLine.2 rows

theorem skipCarriageReturn_of_head {text : List Byte} (h : text.head? ≠ some carriageReturn) :
    skipCarriageReturn text = text := by
  cases text with
  | nil => rfl
  | cons c text => exact if_neg fun hc => h (congrArg some hc)

theorem bare_skipCarriageReturn {data : List Byte} (h : Bare data) :
    Bare (skipCarriageReturn data) := by
  cases data with
  | nil => exact h
  | cons c data =>
      rw [skipCarriageReturn]
      split
      next hc => exact (bare_cons (by rw [hc]; decide) data).mp h
      next => exact h

/-- The carriage return is skipped in the field in front. -/
theorem skipCarriageReturn_line (line : Line) (rest : List Byte) :
    skipCarriageReturn (line.text ++ lineFeed :: rest) =
      line.afterLineFeed.text ++ lineFeed :: rest := by
  obtain ⟨first, others⟩ := line
  unfold Line.afterLineFeed Line.text
  by_cases hbare : Bare first
  · simp only [if_pos hbare]
    have hprint : printMaybeQuoted first = first := by rw [printMaybeQuoted_eq, if_pos hbare]
    have hskip : printMaybeQuoted (skipCarriageReturn first) = skipCarriageReturn first := by
      rw [printMaybeQuoted_eq, if_pos (bare_skipCarriageReturn hbare)]
    rw [hprint, hskip]
    cases first with
    | nil =>
        apply skipCarriageReturn_of_head
        cases others with
        | nil => exact fun h => by cases h
        | cons second others => exact fun h => by cases h
    | cons c first =>
        rw [List.cons_append, List.cons_append, skipCarriageReturn, skipCarriageReturn]
        split <;> rfl
  · simp only [if_neg hbare]
    apply skipCarriageReturn_of_head
    rw [printMaybeQuoted_eq, if_neg hbare]
    exact fun h => by cases h

theorem textBehind_cons (skip : Bool) (line : Line) (lines : List Line) :
    textBehind skip (line :: lines) = (line.behind skip).text ++ lineFeed :: linesText lines := by
  have htext : linesText (line :: lines) = line.text ++ lineFeed :: linesText lines := by
    simp [linesText]
  unfold textBehind Line.behind
  rw [htext]
  cases skip with
  | false => rfl
  | true => exact skipCarriageReturn_line line (linesText lines)

theorem whole_behind (skip : Bool) (line : Line) :
    (∀ data ∈ (line.behind skip).values, Whole data) ↔ ∀ data ∈ line.values, Whole data := by
  have hfirst : Whole line.afterLineFeed.first ↔ Whole line.first := by
    unfold Line.afterLineFeed
    by_cases hbare : Bare line.first
    · simp only [if_pos hbare]
      unfold Whole
      rw [if_pos hbare, if_pos (bare_skipCarriageReturn hbare)]
      cases line.first with
      | nil => rfl
      | cons c first =>
          rw [skipCarriageReturn]
          split
          next hc => simp [hc, lineFeed, carriageReturn]
          next => rfl
    · simp only [if_neg hbare]
  cases skip with
  | false => rfl
  | true =>
      show (∀ data ∈ line.afterLineFeed.first :: line.others, Whole data) ↔
        ∀ data ∈ line.first :: line.others, Whole data
      rw [List.forall_mem_cons, List.forall_mem_cons, hfirst]

section Lines

variable {r : CsvReader} (hr : r.Speaks .rfc4180) {skip : Bool} {lines : List Line}

include hr

theorem speaks_nextLine : r.nextLine.2.Speaks .rfc4180 := by
  have hloop (rest field : List Byte) (shouldEmit : Bool) (fields : List (List Byte)) :
      (r.startLine.nextLineLoop rest field shouldEmit fields).2.Speaks .rfc4180 := by
    have hstart := speaks_startLine hr
    fun_induction CsvReader.nextLineLoop r.startLine rest field shouldEmit fields with
    | case5 | case9 | case11 => assumption
    | _ => exact ⟨hr.separator, hr.quote⟩
  rw [CsvReader.nextLine]
  split
  · exact hr
  · exact hloop _ _ _ _

theorem nextLine_line {line : Line} (hwhole : ∀ data ∈ line.values, Whole data)
    (hposition : r.position = textBehind skip (line :: lines)) :
    r.nextLine = r.startLine.finish (trimLast (line.behind skip).values)
      (textBehind (!decide (EndsInReturn (line.behind skip).values)) lines) := by
  have hne : r.position ≠ [] := by
    rw [hposition, textBehind_cons]
    simp
  have hloop := nextLineLoop_line (speaks_startLine hr) (line.behind skip).first
    (line.behind skip).others (linesText lines) [] ((whole_behind skip line).mpr hwhole)
  rw [CsvReader.nextLine, if_neg hne, hposition, textBehind_cons]
  refine hloop.trans ?_
  unfold textBehind
  by_cases hreturn : EndsInReturn (line.behind skip).values
  · rw [decide_eq_true hreturn]
    exact congrArg _ (if_pos hreturn)
  · rw [decide_eq_false hreturn]
    exact congrArg _ (if_neg hreturn)

theorem readsAll_readLines (hwhole : ∀ line ∈ lines, ∀ data ∈ line.values, Whole data)
    (hposition : r.position = textBehind skip lines) : ReadsAll r (readLines skip lines) := by
  induction lines generalizing r skip with
  | nil =>
      cases skip with
      | false => exact hposition
      | true => exact hposition
  | cons line lines ih =>
      have hnext := nextLine_line hr (hwhole line List.mem_cons_self) hposition
      have htrim : trimLast (line.behind skip).values ≠ [] := by
        unfold Line.values
        cases (line.behind skip).others with
        | nil => exact List.cons_ne_nil _ _
        | cons second others => exact List.cons_ne_nil _ _
      refine ⟨?_, ?_, ?_⟩
      · rw [hnext]
        simpa [CsvReader.finish] using htrim
      · rw [hnext]
        rfl
      · rw [hnext]
        refine ih ?_ (fun l hl => hwhole l (List.mem_cons_of_mem line hl)) rfl
        exact ⟨hr.separator, hr.quote⟩

/-- When the reader returns only lines of full length, it has not stopped in any of them. -/
theorem whole_of_readsAll {csv : List (List (List Byte))} {n : Nat} (hn : 0 < n)
    (hothers : ∀ line ∈ lines, line.others.length = n) (hcsv : ∀ row ∈ csv, row.length = n + 1)
    (hposition : r.position = textBehind skip lines) (h : ReadsAll r csv) :
    (∀ line ∈ lines, ∀ data ∈ line.values, Whole data) ∧ csv = readLines skip lines := by
  induction lines generalizing r skip csv with
  | nil =>
      refine ⟨fun line hline => absurd hline List.not_mem_nil, ?_⟩
      have hnil : r.position = [] := by
        rw [hposition]
        cases skip <;> rfl
      cases csv with
      | nil => rfl
      | cons row csv =>
          have hnext := h.1
          rw [CsvReader.nextLine, if_pos hnil] at hnext
          cases hnext
  | cons line lines ih =>
      have hne : r.position ≠ [] := by
        rw [hposition, textBehind_cons]
        simp
      cases csv with
      | nil => exact absurd h hne
      | cons row csv =>
          obtain ⟨hnext, hrow, hrest⟩ := h
          have hlength := hcsv row List.mem_cons_self
          have hline := hothers line List.mem_cons_self
          have hbehind : (line.behind skip).others.length = n := by
            cases skip with
            | false => exact hline
            | true => exact hline
          have hloop : r.startLine.nextLineLoop ((line.behind skip).text ++ lineFeed ::
              linesText lines) [] true [] = r.nextLine := by
            rw [CsvReader.nextLine, if_neg hne, hposition, textBehind_cons]
          have hcount : r.nextLine.2.fields.length =
              ([] : List (List Byte)).length + (line.behind skip).others.length + 1 := by
            rw [hrow, hlength, hbehind, List.length_nil, Nat.zero_add]
          rcases whole_of_nextLineLoop (speaks_startLine hr) (line.behind skip).first
            (line.behind skip).others (linesText lines) [] hloop hnext hcount with hwhole | hstopped
          · have hwhole' := (whole_behind skip line).mp hwhole
            have hstep := nextLine_line hr hwhole' hposition
            obtain ⟨hlines, hcsv'⟩ := ih (speaks_nextLine hr)
              (fun l hl => hothers l (List.mem_cons_of_mem line hl))
              (fun row' hrow' => hcsv row' (List.mem_cons_of_mem row hrow')) (by rw [hstep]; rfl) hrest
            refine ⟨List.forall_mem_cons.mpr ⟨hwhole', hlines⟩, ?_⟩
            rw [readLines, ← hcsv', ← hrow, hstep]
            rfl
          · -- the next line of the reader is the rest of the last field
            obtain ⟨more, hmore, hleft⟩ := hstopped
            have hone := length_nextLine_bare (speaks_nextLine hr) hmore hleft
            cases csv with
            | nil =>
                have hnil : r.nextLine.2.position = [] := hrest
                rw [hleft] at hnil
                simp at hnil
            | cons row' csv =>
                have hlength' := hcsv row' (List.mem_cons_of_mem row List.mem_cons_self)
                rw [hrest.2.1] at hone
                omega

end Lines

end Jumanpp.Jumandic.Output
