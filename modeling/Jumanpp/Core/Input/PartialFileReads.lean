import Mathlib
import Jumanpp.Core.Input.PartialFile

/-!
# What is stored of a file

All examples of a well-formed file that an empty line ends are stored, and each of them checks the nodes
of a lattice as its lines say.
-/

namespace Jumanpp.Core.Input

open Jumanpp.Lib Jumanpp.Util Jumanpp.Util.Csv

variable {r : PartialExampleReader}

/-! ## Comments -/

theorem isComment_begins {first : UInt8} (rest : List UInt8) :
    isComment (numberSign :: blank :: first :: rest) = true := by
  simp [isComment]

theorem isComment_plain {text ending : List UInt8} (hne : text ≠ [])
    (hdata : ¬ [numberSign, blank] <+: text) (hending : ending.head? ≠ some blank) :
    isComment (text ++ ending) = false := by
  cases text with
  | nil => exact absurd rfl hne
  | cons c text =>
      by_cases hc : c = numberSign
      · subst hc
        have hsecond : (text ++ ending)[0]? ≠ some blank := by
          cases text with
          | nil =>
              rw [List.nil_append, ← List.head?_eq_getElem?]
              exact hending
          | cons d text =>
              intro hd
              have heq : d = blank := by simpa using hd
              exact hdata ⟨text, by rw [heq]; rfl⟩
        simp only [isComment, List.cons_append, List.getElem?_cons_succ, hsecond, decide_false,
          Bool.and_false]
      · simp [isComment, hc]

theorem isComment_tab (rest : List UInt8) : isComment (9 :: rest) = false := by
  simp [isComment, numberSign]

theorem isComment_eol (eol : Eol) : isComment eol.text = false := by
  cases eol with
  | lf => rfl
  | crlf => rfl

/-! ## Rows of lines -/

theorem dropWhile_ne_nil_of_readTag {fldData : List UInt8} {tag : TagConstraint}
    (h : r.readTag fldData = .ok tag) : fldData ≠ [] := by
  rintro rfl
  cases h

theorem readTags_nonempty {tags : List (List UInt8)} {constraints : List TagConstraint}
    (h : r.readTags tags = .ok constraints) : ∀ t ∈ tags, t ≠ [] := by
  induction tags generalizing constraints with
  | nil => simp
  | cons fldData rest ih =>
      unfold PartialExampleReader.readTags at h
      cases htag : r.readTag fldData with
      | error e =>
          rw [htag] at h
          cases h
      | ok tag =>
          rw [htag] at h
          cases hrest : r.readTags rest with
          | error e =>
              rw [hrest] at h
              cases h
          | ok tags => exact List.forall_mem_cons.mpr ⟨dropWhile_ne_nil_of_readTag htag, ih hrest⟩

namespace PexLine

variable (line : PexLine r)

theorem fits_row : line.row.Fits := by
  cases line with
  | comment row fits _ _ _ _ => exact fits
  | plain text _ _ _ _ =>
      intro field hfield
      rw [List.mem_singleton.mp hfield]
      trivial
  | word surface _ _ _ tags _ _ =>
      intro field hfield
      rcases List.mem_cons.mp hfield with rfl | hfield
      · trivial
      · rcases List.mem_cons.mp hfield with rfl | hfield
        · trivial
        · obtain ⟨t, -, rfl⟩ := List.mem_map.mp hfield
          trivial

/-- A line begins with a byte that is no row end. -/
theorem head_row : ∃ first rest, line.row.text = first :: rest ∧ first ≠ carriageReturn := by
  cases line with
  | comment row fits closed first rest begins => exact ⟨numberSign, _, begins, by decide⟩
  | plain text nonempty data codepts isText =>
      have htext : (⟨text.field, []⟩ : Csv.Row pexDialect).text = text.bytes := List.append_nil _
      obtain ⟨first, rest, hbytes⟩ := List.exists_cons_of_ne_nil nonempty
      refine ⟨first, rest, htext.trans hbytes, ?_⟩
      exact (text.plain first (by rw [hbytes]; exact List.mem_cons_self)).2.2.1
  | word surface nonempty codepts isText tags constraints read =>
      exact ⟨9, _, rfl, by decide⟩

theorem lastField_row : line.row.lastField.text ≠ [] := by
  cases line with
  | comment row fits closed _ _ _ => exact closed
  | plain text nonempty _ _ _ => exact nonempty
  | word surface nonempty codepts isText tags constraints read =>
      have hall := readTags_nonempty read
      have hmem := List.getLast_mem (List.cons_ne_nil surface.field (tags.map PlainText.field))
      show ((surface.field :: tags.map PlainText.field).getLast _).text ≠ []
      rcases List.mem_cons.mp hmem with hsurface | htag
      · rw [hsurface]
        exact nonempty
      · obtain ⟨t, ht, heq⟩ := List.mem_map.mp htag
        rw [← heq]
        exact hall _ (List.mem_map_of_mem ht)

end PexLine

/-! ## One line -/

section Line

variable {s : ReadState} {segments : List Segment}

/-- Noting the number of the first line changes no list. -/
theorem ReadState.Holds.first (h : s.Holds segments) (lineNumber : Nat) :
    (if s.firstLine then
      { s with result := { s.result with line := lineNumber }, firstLine := false } else s).Holds
      segments := by
  split
  · exact ⟨h.surface, h.boundaries, h.noBreak, h.nodes, h.boundary⟩
  · exact h

theorem readLine_line (line : PexLine r) (h : s.Holds segments) {ending : List UInt8}
    (hending : ending.head? ≠ some blank) {csv : CsvReader} (hfields : csv.fields = line.row.values) :
    ∃ s', r.readLine (line.row.text ++ ending) csv s = .ok (false, s') ∧
      s'.Holds (segments ++ line.segment.toList) := by
  have hfirst := h.first csv.lineNumber
  unfold PartialExampleReader.readLine
  generalize (if s.firstLine then
    { s with result := { s.result with line := csv.lineNumber }, firstLine := false } else s) = s₁
    at hfirst ⊢
  cases line with
  | comment row fits closed first rest begins =>
      have hcomment : isComment (row.text ++ ending) = true := by
        rw [begins]
        exact isComment_begins (rest ++ ending)
      refine ⟨_, if_pos hcomment, ?_⟩
      have hnone : segments ++ (none : Option Segment).toList = segments := List.append_nil _
      show ReadState.Holds _ (segments ++ (none : Option Segment).toList)
      rw [hnone]
      exact ⟨hfirst.surface, hfirst.boundaries, hfirst.noBreak, hfirst.nodes, hfirst.boundary⟩
  | plain text nonempty data codepts isText =>
      have htext : (⟨text.field, []⟩ : Csv.Row pexDialect).text = text.bytes := List.append_nil _
      have hcomment : isComment ((⟨text.field, []⟩ : Csv.Row pexDialect).text ++ ending) = false := by
        rw [htext]
        exact isComment_plain nonempty data hending
      have hvalues : csv.fields = [text.bytes] := hfields
      refine ⟨PartialExampleReader.pushBoundary (codepts.foldl r.readCodept s₁), ?_,
        hfirst.readPlain codepts⟩
      show (if isComment ((⟨text.field, []⟩ : Csv.Row pexDialect).text ++ ending) then _ else _) = _
      rw [hcomment, if_neg Bool.false_ne_true, hvalues]
      simp only [if_neg nonempty, isText]
  | word surface nonempty codepts isText tags constraints read =>
      have hvalues : csv.fields = [] :: surface.bytes :: tags.map PlainText.bytes := by
        rw [hfields]
        show [] :: surface.bytes :: (tags.map PlainText.field).map Field.value = _
        rw [List.map_map]
        rfl
      refine ⟨_, ?_, hfirst.readNode (length_pos_of_preprocess isText nonempty) constraints⟩
      show (if isComment (9 :: (_ ++ ending)) then _ else _) = _
      rw [isComment_tab, if_neg Bool.false_ne_true, hvalues]
      simp only [ne_eq, not_true_eq_false, if_false, isText, read]

/-- The empty line takes the end of the last segment away. -/
theorem readLine_blank (h : s.Holds segments) (eol : Eol) {csv : CsvReader}
    (hfields : csv.fields = [[]]) :
    ∃ s', r.readLine eol.text csv s = .ok (true, s') ∧ s'.result.Reads segments := by
  have hfirst := h.first csv.lineNumber
  unfold PartialExampleReader.readLine
  generalize (if s.firstLine then
    { s with result := { s.result with line := csv.lineNumber }, firstLine := false } else s) = s₁
    at hfirst ⊢
  refine ⟨{ s₁ with result := { s₁.result with boundaries := s₁.result.boundaries.dropLast } }, ?_, ?_⟩
  · rw [isComment_eol, if_neg Bool.false_ne_true, hfields]
    rfl
  · exact ⟨hfirst.surface, .inl (congrArg List.dropLast hfirst.boundaries), hfirst.noBreak,
      hfirst.nodes⟩

end Line

/-! ## The lines of an example -/

theorem wholeLineOf_append {before after : CsvReader} {front : List UInt8}
    (h : before.position = front ++ after.position) : wholeLineOf before after = front := by
  unfold wholeLineOf
  rw [h, List.length_append, Nat.add_sub_cancel, List.take_left']
  rfl

/-- What comes after a line feed that is a row end. -/
def NoReturn (eol : Eol) (rest : List UInt8) : Prop :=
  eol = .lf → rest.head? ≠ some carriageReturn

theorem noReturn_nil (eol : Eol) : NoReturn eol [] :=
  fun _ h => by cases h

theorem noReturn_eol (eol : Eol) (rest : List UInt8) : NoReturn eol (eol.text ++ rest) := by
  rintro rfl h
  have hhead : lineFeed = carriageReturn := Option.some.inj h
  exact absurd hhead (by decide)

theorem noReturn_row (eol : Eol) (line : PexLine r) (rest : List UInt8) :
    NoReturn eol (line.row.text ++ rest) := by
  intro _ h
  obtain ⟨first, tail, htext, hne⟩ := line.head_row
  rw [htext] at h
  exact hne (Option.some.inj h)

theorem noReturn_lines (eol : Eol) (lines : List (PexLine r)) {rest : List UInt8}
    (h : NoReturn eol rest) : NoReturn eol (PexLine.linesText eol lines ++ rest) := by
  cases lines with
  | nil => exact h
  | cons line lines =>
      unfold PexLine.linesText
      rw [List.flatMap_cons, List.append_assoc, List.append_assoc]
      exact noReturn_row eol line _

/-- How a row with its end is read. -/
theorem nextLine_of_row {csv : CsvReader} (hcsv : csv.Speaks pexDialect) (row : Csv.Row pexDialect)
    (hfits : row.Fits) {eol : Eol} {rest : List UInt8} (hrest : NoReturn eol rest)
    (hposition : csv.position = row.text ++ eol.text ++ rest) :
    ∃ next, csv.nextLine = (true, next) ∧ next.fields = row.values ∧ next.position = rest ∧
      next.Speaks pexDialect ∧ wholeLineOf csv next = row.text ++ eol.text := by
  have hread := nextLine_row hcsv row eol rest hposition hrest hfits
  have hvalues : (!row.values.isEmpty) = true := by simp [row_values_ne_nil row]
  refine ⟨{ csv.startLine with fields := row.values, position := rest }, ?_, rfl, rfl,
    ⟨hcsv.separator, hcsv.quote⟩, wholeLineOf_append hposition⟩
  rw [hread, CsvReader.finish, hvalues]

theorem head_eol (eol : Eol) : eol.text.head? ≠ some blank := by
  cases eol with
  | lf => decide
  | crlf => decide

section Lines

variable {s : ReadState} {segments : List Segment} {eol : Eol}

/-- One turn of the loop: a line with its end. -/
theorem readLines_line (line : PexLine r) (h : s.Holds segments) {csv : CsvReader}
    (hcsv : csv.Speaks pexDialect) {rest : List UInt8} (hrest : NoReturn eol rest)
    (hposition : csv.position = line.row.text ++ eol.text ++ rest) (turns : Nat) :
    ∃ csv' s', r.readLines (turns + 1) csv s = r.readLines turns csv' s' ∧
      csv'.Speaks pexDialect ∧ csv'.position = rest ∧
      s'.Holds (segments ++ line.segment.toList) := by
  obtain ⟨next, hnext, hfields, hposition', hspeaks, hwhole⟩ :=
    nextLine_of_row hcsv line.row line.fits_row hrest hposition
  obtain ⟨s', hline, hholds⟩ := readLine_line line h (head_eol eol) hfields
  refine ⟨next, s', ?_, hspeaks, hposition', hholds⟩
  rw [PartialExampleReader.readLines]
  simp only [hnext, if_true, hwhole, hline]

/-- All lines of an example. -/
theorem readLines_lines (lines : List (PexLine r)) (h : s.Holds segments) {csv : CsvReader}
    (hcsv : csv.Speaks pexDialect) {rest : List UInt8} (hrest : NoReturn eol rest)
    (hposition : csv.position = PexLine.linesText eol lines ++ rest) (turns : Nat) :
    ∃ csv' s', r.readLines (turns + lines.length) csv s = r.readLines turns csv' s' ∧
      csv'.Speaks pexDialect ∧ csv'.position = rest ∧
      s'.Holds (segments ++ PexLine.segments lines) := by
  induction lines generalizing csv s segments with
  | nil =>
      have hsame : s.Holds (segments ++ PexLine.segments ([] : List (PexLine r))) := by
        rw [PexLine.segments, List.filterMap_nil, List.append_nil]
        exact h
      exact ⟨csv, s, rfl, hcsv, hposition, hsame⟩
  | cons line lines ih =>
      have htext : csv.position =
          line.row.text ++ eol.text ++ (PexLine.linesText eol lines ++ rest) := by
        rw [hposition, PexLine.linesText, List.flatMap_cons, List.append_assoc]
        rfl
      obtain ⟨csv₁, s₁, hline, hcsv₁, hposition₁, hholds₁⟩ :=
        readLines_line line h hcsv (noReturn_lines eol lines hrest) htext (turns + lines.length)
      obtain ⟨csv₂, s₂, hlines, hcsv₂, hposition₂, hholds₂⟩ := ih hholds₁ hcsv₁ hposition₁
      refine ⟨csv₂, s₂, ?_, hcsv₂, hposition₂, ?_⟩
      · rw [List.length_cons, ← Nat.add_assoc, hline, hlines]
      · have hsegments : PexLine.segments (line :: lines) =
            line.segment.toList ++ PexLine.segments lines := by
          unfold PexLine.segments
          rw [List.filterMap_cons]
          cases line.segment with
          | none => rfl
          | some segment => rfl
        rw [hsegments, ← List.append_assoc]
        exact hholds₂

/-- An example that an empty line ends. -/
theorem readLines_ended (lines : List (PexLine r)) (h : s.Holds []) {csv : CsvReader}
    (hcsv : csv.Speaks pexDialect) {rest : List UInt8} (hrest : NoReturn eol rest)
    (hposition : csv.position = PexLine.linesText eol lines ++ eol.text ++ rest) {turns : Nat}
    (hturns : lines.length < turns) :
    ∃ csv' ex, r.readLines turns csv s = some (.ok (false, ex, csv')) ∧ csv'.Speaks pexDialect ∧
      csv'.position = rest ∧ ex.Reads (PexLine.segments lines) := by
  obtain ⟨more, rfl⟩ := Nat.exists_eq_add_of_lt hturns
  rw [List.append_assoc] at hposition
  obtain ⟨csv₁, s₁, hlines, hcsv₁, hposition₁, hholds₁⟩ :=
    readLines_lines lines h hcsv (noReturn_eol eol rest) hposition (more + 1)
  have hempty : csv₁.position = (⟨emptyText.field, []⟩ : Csv.Row pexDialect).text ++ eol.text ++ rest :=
    hposition₁
  have hfits : (⟨emptyText.field, []⟩ : Csv.Row pexDialect).Fits := by
    intro field hfield
    rw [List.mem_singleton.mp hfield]
    trivial
  obtain ⟨next, hnext, hfields, hposition', hspeaks, hwhole⟩ :=
    nextLine_of_row hcsv₁ _ hfits hrest hempty
  obtain ⟨s', hline, hreads⟩ := readLine_blank (r := r) hholds₁ eol hfields
  refine ⟨next, s'.result, ?_, hspeaks, hposition', hreads⟩
  have hsum : lines.length + more + 1 = more + 1 + lines.length := by omega
  have hblank : wholeLineOf csv₁ next = eol.text := hwhole
  rw [hsum, hlines, PartialExampleReader.readLines]
  simp only [hnext, if_true, hblank, hline]

/-- At the end of the file an example may lack the empty line and the end of its last line. -/
theorem readLines_unended (lines : List (PexLine r)) (final : Option (PexLine r)) (h : s.Holds [])
    {csv : CsvReader} (hcsv : csv.Speaks pexDialect)
    (hposition : csv.position = PexLine.linesText eol lines ++
      (final.map fun line => line.row.text).getD []) {turns : Nat}
    (hturns : lines.length + final.toList.length < turns) :
    ∃ csv' ex, r.readLines turns csv s = some (.ok (true, ex, csv')) := by
  obtain ⟨more, rfl⟩ := Nat.exists_eq_add_of_lt hturns
  have hend : ∀ (csv : CsvReader) (s : ReadState) (turns : Nat), csv.position = [] →
      r.readLines (turns + 1) csv s = some (.ok (true, s.result, csv)) := by
    intro csv s turns hposition
    have hnext : csv.nextLine = (false, csv) := by
      rw [CsvReader.nextLine, if_pos hposition]
    rw [PartialExampleReader.readLines]
    simp only [hnext, Bool.false_eq_true, if_false]
  cases final with
  | none =>
      obtain ⟨csv₁, s₁, hlines, -, hposition₁, -⟩ :=
        readLines_lines lines h hcsv (noReturn_nil eol) hposition (more + 1)
      refine ⟨csv₁, s₁.result, ?_⟩
      have hsum : lines.length + (none : Option (PexLine r)).toList.length + more + 1 =
          more + 1 + lines.length := by
        show lines.length + 0 + more + 1 = _
        omega
      rw [hsum, hlines]
      exact hend csv₁ s₁ more hposition₁
  | some line =>
      have hrest := noReturn_row eol line []
      rw [List.append_nil] at hrest
      obtain ⟨csv₁, s₁, hlines, hcsv₁, hposition₁, hholds₁⟩ :=
        readLines_lines lines h hcsv hrest hposition (more + 2)
      have hsum : lines.length + (some line).toList.length + more + 1 =
          more + 2 + lines.length := by
        show lines.length + 1 + more + 1 = _
        omega
      have hne : line.row.text ≠ [] := by
        obtain ⟨first, rest, htext, -⟩ := line.head_row
        rw [htext]
        exact List.cons_ne_nil _ _
      have hread := nextLine_last hcsv₁ line.row hposition₁ hne line.fits_row
      rw [if_neg line.lastField_row] at hread
      have hvalues : (!line.row.values.isEmpty) = true := by simp [row_values_ne_nil line.row]
      let next : CsvReader := { csv₁.startLine with fields := line.row.values, position := [] }
      have hnext : csv₁.nextLine = (true, next) := by
        rw [hread, CsvReader.finish, hvalues]
      have hwhole : wholeLineOf csv₁ next = line.row.text ++ [] := by
        rw [List.append_nil]
        exact wholeLineOf_append (hposition₁.trans (List.append_nil _).symm)
      obtain ⟨s', hline, -⟩ := readLine_line line hholds₁ (show ([] : List UInt8).head? ≠ some blank from
        fun h => by cases h) (show next.fields = line.row.values from rfl)
      refine ⟨next, s'.result, ?_⟩
      rw [hsum, hlines, PartialExampleReader.readLines]
      simp only [hnext, if_true, hwhole, hline]
      exact hend next s' more rfl

end Lines

/-! ## Files -/

theorem length_le_linesText (eol : Eol) (lines : List (PexLine r)) :
    lines.length ≤ (PexLine.linesText eol lines).length := by
  induction lines with
  | nil => exact Nat.le_refl 0
  | cons line lines ih =>
      unfold PexLine.linesText at ih ⊢
      obtain ⟨first, rest, htext, -⟩ := line.head_row
      rw [List.flatMap_cons, List.length_append, htext, List.cons_append, List.length_cons,
        List.length_cons]
      omega

theorem holds_emptyExample (r : PartialExampleReader) :
    (ReadState.mk r.emptyExample firstBoundary true).Holds [] :=
  ⟨rfl, rfl, rfl, rfl, rfl⟩

namespace PexFile

theorem noReturn_examplesText (eol : Eol) (examples : List (List (PexLine r))) {rest : List UInt8}
    (hrest : NoReturn eol rest) : NoReturn eol (examplesText eol examples rest) := by
  cases examples with
  | nil => exact hrest
  | cons lines examples =>
      unfold examplesText
      rw [List.append_assoc]
      exact noReturn_lines eol lines (noReturn_eol eol _)

theorem noReturn_lastText (file : PexFile r) : NoReturn file.eol file.lastText := by
  unfold lastText
  split
  · exact noReturn_nil _
  · next lines final _ =>
      apply noReturn_lines
      cases final with
      | none => exact noReturn_nil _
      | some line =>
          have hline := noReturn_row file.eol line []
          rw [List.append_nil] at hline
          exact hline

variable (file : PexFile r)

/-- Behind the ended examples nothing is stored. -/
theorem readPartialExamples_last {csv : CsvReader} (hcsv : csv.Speaks pexDialect)
    (hposition : csv.position = file.lastText) {lines : Nat} (hlines : file.lastText.length < lines)
    (turns : Nat) : r.readPartialExamples lines (turns + 1) csv = some (.ok []) := by
  have hend : ∃ csv' ex, r.readExample lines csv = some (.ok (true, ex, csv')) := by
    unfold lastText at hposition hlines
    cases hlast : file.last with
    | none =>
        rw [hlast] at hposition hlines
        exact @readLines_unended r _ file.eol [] none (holds_emptyExample r) csv hcsv hposition lines
          hlines
    | some l =>
        obtain ⟨ls, final⟩ := l
        rw [hlast] at hposition hlines
        apply readLines_unended ls final (holds_emptyExample r) hcsv hposition
        have hle := length_le_linesText file.eol ls
        rw [List.length_append] at hlines
        cases final with
        | none =>
            show ls.length + 0 < lines
            omega
        | some line =>
            obtain ⟨first, rest, htext, -⟩ := line.head_row
            have hpos : 0 < line.row.text.length := by
              rw [htext]
              exact Nat.succ_pos _
            have hlast' : (PexLine.linesText file.eol ls).length + line.row.text.length < lines :=
              hlines
            show ls.length + 1 < lines
            omega
  obtain ⟨csv', ex, hread⟩ := hend
  rw [PartialExampleReader.readPartialExamples]
  simp only [hread]

/-- The loop over the examples, of which those before have been stored. -/
theorem readPartialExamples_examples (examples : List (List (PexLine r))) {csv : CsvReader}
    (hcsv : csv.Speaks pexDialect)
    (hposition : csv.position = examplesText file.eol examples file.lastText) {lines turns : Nat}
    (hlines : (examplesText file.eol examples file.lastText).length < lines)
    (hturns : examples.length < turns) :
    ∃ result, r.readPartialExamples lines turns csv = some (.ok result) ∧
      List.Forall₂ PartialExample.Reads result (examples.map PexLine.segments) := by
  induction examples generalizing csv turns with
  | nil =>
      obtain ⟨more, rfl⟩ := Nat.exists_eq_add_of_lt hturns
      exact ⟨[], file.readPartialExamples_last hcsv hposition hlines _, .nil⟩
  | cons ls examples ih =>
      obtain ⟨more, rfl⟩ := Nat.exists_eq_add_of_lt hturns
      have hrest := noReturn_examplesText file.eol examples file.noReturn_lastText
      have hle := length_le_linesText file.eol ls
      have hlength : ls.length < lines := by
        unfold examplesText at hlines
        rw [List.length_append, List.length_append] at hlines
        omega
      obtain ⟨csv', ex, hread, hcsv', hposition', hreads⟩ :=
        readLines_ended ls (holds_emptyExample r) hcsv hrest hposition hlength
      have hshort : (examplesText file.eol examples file.lastText).length < lines := by
        unfold examplesText at hlines
        rw [List.length_append] at hlines
        omega
      have hmore : examples.length < examples.length + 1 + more := by omega
      obtain ⟨result, hresult, hall⟩ := ih hcsv' hposition' hshort hmore
      refine ⟨ex :: result, ?_, .cons hreads hall⟩
      have hread' : r.readExample lines csv = some (.ok (false, ex, csv')) := hread
      rw [PartialExampleReader.readPartialExamples]
      simp only [hread', List.length_cons, hresult]

end PexFile

/-- The example stands for its lines: for its text, and for what the checker reports of every node of a
lattice over it, whose feature data has a fixed number of entries. -/
structure AsAnnotated (numFeatures : Nat) (ex : PartialExample) (segments : List Segment) : Prop where
  surface : ex.surface = Segment.surfaceOf segments
  inside : ∀ node : LatticeNode, node.Over segments → node.entryData.length = numFeatures →
    (ex.checkViolation node).isSome
  violation : ∀ node : LatticeNode, node.Over segments → node.entryData.length = numFeatures →
    ((∃ v, ex.checkViolation node = some v ∧ v.isNone) ↔ Satisfies segments node)

theorem asAnnotated_iff {numFeatures : Nat} {ex : PartialExample} {segments : List Segment}
    (h : ex.Reads segments) : AsAnnotated numFeatures ex segments ↔ TagsReadable numFeatures segments := by
  rw [← checkViolation_isSome_iff h]
  constructor
  · exact fun has => has.inside
  · exact fun hinside => ⟨h.surface, hinside, fun node hnode _ => h.checkViolation_isNone_iff hnode⟩

theorem forall₂_asAnnotated_iff {numFeatures : Nat} {result : List PartialExample}
    {annotations : List (List Segment)} (h : List.Forall₂ PartialExample.Reads result annotations) :
    List.Forall₂ (AsAnnotated numFeatures) result annotations ↔
      ∀ segments ∈ annotations, TagsReadable numFeatures segments := by
  induction h with
  | nil => exact iff_of_true .nil (by simp)
  | cons hreads _ ih =>
      rw [List.forall₂_cons, List.forall_mem_cons, asAnnotated_iff hreads, ih]

/-- Every well-formed file is read, and its examples are all stored as they are annotated if and only if
the last one is ended by an empty line and the tags of all examples are readable. -/
theorem readPartialExamples_annotations_iff (file : PexFile r) (numFeatures : Nat) {lines turns : Nat}
    (hlines : file.text.length < lines) (hturns : file.examples.length < turns) :
    ∃ result, r.readPartialExamples lines turns (pexDialect.reader file.text) = some (.ok result) ∧
      (List.Forall₂ (AsAnnotated numFeatures) result file.annotations ↔
        file.last = none ∧
          ∀ ls ∈ file.examples, TagsReadable numFeatures (PexLine.segments ls)) := by
  obtain ⟨result, hresult, hreads⟩ := file.readPartialExamples_examples file.examples
    (show (pexDialect.reader file.text).Speaks pexDialect from ⟨rfl, rfl⟩) rfl hlines hturns
  refine ⟨result, hresult, ?_⟩
  have hlength : result.length = file.examples.length := by
    rw [hreads.length_eq, List.length_map]
  unfold PexFile.annotations
  cases hlast : file.last with
  | none =>
      rw [Option.map_none, Option.toList_none, List.append_nil, forall₂_asAnnotated_iff hreads,
        List.forall_mem_map]
      exact (and_iff_right rfl).symm
  | some l =>
      refine iff_of_false ?_ fun h => by cases h.1
      intro hall
      have hcount := hall.length_eq
      rw [hlength, List.length_append, List.length_map, Option.map_some] at hcount
      have hone : (some (PexLine.segments (l.1 ++ l.2.toList))).toList.length = 1 := rfl
      omega

/-! ## A file without a last empty line -/

/-- A reader without fields; a `&` forbids to break. -/
def plainReader : PartialExampleReader := ⟨[], .empty, 38⟩

theorem plain_a : ∀ b ∈ ([97] : List UInt8), pexDialect.Plain b :=
  List.forall_mem_singleton.mpr (by decide)

def textOfA : PlainText := ⟨[97], plain_a⟩

theorem data_a : ¬ [numberSign, blank] <+: ([97] : List UInt8) := by decide

theorem isText_a : preprocessRawData [97] = some [⟨97, getCodeType 97, [97]⟩] := by
  have hone : Utf8.Sequence [97] 97 := Utf8.Sequence.one (by decide)
  apply preprocessRawData_eq_some_iff.mpr
  refine ⟨rfl, ?_⟩
  intro cp hcp
  rw [List.mem_singleton.mp hcp]
  exact ⟨hone, rfl⟩

def lineOfA : PexLine plainReader :=
  .plain textOfA (List.cons_ne_nil _ _) data_a _ isText_a

theorem segments_a : PexLine.segments ([lineOfA] ++ (none : Option (PexLine plainReader)).toList) ≠ [] :=
  List.cons_ne_nil _ _

theorem last_none : ∀ l, (none : Option (List (PexLine plainReader) × Option (PexLine plainReader))) =
    some l → PexLine.segments (l.1 ++ l.2.toList) ≠ [] :=
  fun _ h => by cases h

theorem last_a : ∀ l, some (([lineOfA], none) :
    List (PexLine plainReader) × Option (PexLine plainReader)) = some l →
      PexLine.segments (l.1 ++ l.2.toList) ≠ [] := by
  intro l h
  cases h
  exact segments_a

/-- The file `a` with an empty line. -/
def endedFile : PexFile plainReader := ⟨.lf, [[lineOfA]], none, last_none⟩

/-- The file `a` without it. -/
def unendedFile : PexFile plainReader := ⟨.lf, [], some ([lineOfA], none), last_a⟩

theorem readPartialExamples_endedFile :
    ∃ result, plainReader.readPartialExamples 4 2 (pexDialect.reader endedFile.text) =
        some (.ok result) ∧
      (List.Forall₂ (AsAnnotated 1) result endedFile.annotations ↔
        endedFile.last = none ∧
          ∀ ls ∈ endedFile.examples, TagsReadable 1 (PexLine.segments ls)) :=
  readPartialExamples_annotations_iff endedFile 1 (by decide) (by decide)

/-- The example of the file is read, and then dropped because the file has ended. -/
theorem unendedFile_not_stored :
    ¬ ∀ (r : PartialExampleReader) (file : PexFile r) (numFeatures lines turns : Nat),
        file.text.length < lines → file.examples.length < turns →
        ∃ result, r.readPartialExamples lines turns (pexDialect.reader file.text) =
            some (.ok result) ∧
          List.Forall₂ (AsAnnotated numFeatures) result file.annotations := by
  intro hall
  obtain ⟨result, hresult, hstored⟩ := hall plainReader unendedFile 1 3 1 (by decide) (by decide)
  have hnothing := unendedFile.readPartialExamples_last
    (show (pexDialect.reader unendedFile.text).Speaks pexDialect from ⟨rfl, rfl⟩) rfl
    (show unendedFile.lastText.length < 3 by decide) 0
  rw [hnothing] at hresult
  cases hresult
  cases hstored

end Jumanpp.Core.Input
