import Jumanpp.Util.CsvReader

/-!
# Progress of the CSV reader

At the end of the data `position_` is stored only when the last field has some bytes.  A last row that
ends with a separator is returned, and the reader stays in front of it.
-/

namespace Jumanpp.Util.Csv

/-- A byte that neither ends an unquoted field nor begins a quoted one. -/
def Bare (separator quote ch : Byte) : Prop :=
  ch ≠ lineFeed ∧ ch ≠ separator ∧ ch ≠ quote

/-- Bytes that are fields with a separator behind each of them, up to the end of the data.  Behind the
closing quote of a field there may be a `\r` and more bytes, which are skipped. -/
inductive ClosedFields (separator quote : Byte) : List Byte → Prop
  | nil : ClosedFields separator quote []
  | bare {text rest : List Byte} (hsep : separator ≠ lineFeed)
      (htext : ∀ ch ∈ text, Bare separator quote ch) (hrest : ClosedFields separator quote rest) :
      ClosedFields separator quote (text ++ separator :: rest)
  | quoted {text tail rest : List Byte} {scan : QuoteScan} (hsep : separator ≠ lineFeed)
      (hquote : quote ≠ lineFeed ∧ quote ≠ separator)
      (hbegin : ¬(quote = carriageReturn ∧ text.head? = some lineFeed))
      (hscan : handleQuote quote false [] text = some scan) (hvalue : scan.value quote ≠ none)
      (hends : scan.rest = tail ++ separator :: rest)
      (hhead : scan.rest.head? = some separator ∨ scan.rest.head? = some carriageReturn)
      (hbare : ∀ ch ∈ tail, Bare separator quote ch) (hrest : ClosedFields separator quote rest) :
      ClosedFields separator quote (quote :: text)

/-- The reader stands before fields that are all closed by a separator. -/
def CsvReader.Stalls (r : CsvReader) : Prop :=
  r.position ≠ [] ∧ ClosedFields r.separator r.quote r.position

/-- The call has returned a row and the reader has not moved. -/
def CsvReader.Repeats (r : CsvReader) (result : Bool × CsvReader) : Prop :=
  result.1 = true ∧ r.position.length ≤ result.2.position.length

variable {r : CsvReader}

theorem length_skipCarriageReturn (l : List Byte) : (skipCarriageReturn l).length ≤ l.length := by
  unfold skipCarriageReturn
  split
  · exact Nat.le_refl _
  · split
    · exact Nat.le_succ _
    · exact Nat.le_refl _

theorem not_repeats_finish {fields : List (List Byte)} {position : List Byte}
    (h : position.length < r.position.length) : ¬r.Repeats (r.finish fields position) :=
  fun hrepeats => absurd hrepeats.2 (Nat.not_le.mpr h)

theorem not_repeats_fail {fields : List (List Byte)} : ¬r.Repeats (r.fail fields) :=
  fun h => nomatch h.1

theorem bare_not_lineFeed {separator quote : Byte} : ¬Bare separator quote lineFeed :=
  fun h => h.1 rfl

/-- A text with a separator behind it does not begin with a line feed. -/
theorem head_ne_lineFeed {separator quote : Byte} (hsep : separator ≠ lineFeed)
    {text rest : List Byte} (htext : ∀ ch ∈ text, Bare separator quote ch) :
    (text ++ separator :: rest).head? ≠ some lineFeed := by
  cases text with
  | nil => simpa using hsep
  | cons ch text => simpa using (htext ch List.mem_cons_self).1

theorem ClosedFields.head_ne_lineFeed {separator quote : Byte} {l : List Byte}
    (h : ClosedFields separator quote l) : l.head? ≠ some lineFeed := by
  cases h with
  | nil => exact fun h => nomatch h
  | bare hsep htext _ => exact Csv.head_ne_lineFeed hsep htext
  | quoted _ hquote => simpa using hquote.1

/-- The rest of a field and its separator, and the closed fields behind it. -/
def ClosedTail (separator quote : Byte) (l : List Byte) : Prop :=
  separator ≠ lineFeed ∧ ∃ text rest, l = text ++ separator :: rest ∧
    (∀ ch ∈ text, Bare separator quote ch) ∧ ClosedFields separator quote rest

theorem closedTail_nil {separator quote : Byte} : ¬ClosedTail separator quote [] := by
  rintro ⟨-, text, rest, heq, -⟩
  simp at heq

theorem closedTail_separator {separator quote : Byte} (hsep : separator ≠ lineFeed)
    {next : List Byte} :
    ClosedTail separator quote (separator :: next) ↔ ClosedFields separator quote next := by
  constructor
  · rintro ⟨-, text, rest, heq, htext, hrest⟩
    cases text with
    | nil =>
        obtain rfl : next = rest := (List.cons.inj heq).2
        exact hrest
    | cons ch text =>
        obtain rfl : separator = ch := (List.cons.inj heq).1
        exact absurd rfl (htext separator List.mem_cons_self).2.1
  · exact fun h => ⟨hsep, [], next, rfl, fun _ hch => (nomatch hch), h⟩

theorem closedTail_cons {separator quote ch : Byte} (hch : ch ≠ separator) {next : List Byte} :
    ClosedTail separator quote (ch :: next) ↔
      Bare separator quote ch ∧ ClosedTail separator quote next := by
  constructor
  · rintro ⟨hsep, text, rest, heq, htext, hrest⟩
    cases text with
    | nil => exact absurd (List.cons.inj heq).1 hch
    | cons ch' text =>
        obtain ⟨rfl, rfl⟩ := List.cons.inj heq
        exact ⟨htext ch List.mem_cons_self, hsep, text, rest, rfl,
          fun b hb => htext b (List.mem_cons_of_mem _ hb), hrest⟩
  · rintro ⟨hbare, hsep, text, rest, rfl, htext, hrest⟩
    refine ⟨hsep, ch :: text, rest, rfl, fun b hb => ?_, hrest⟩
    obtain rfl | hb := List.mem_cons.mp hb
    · exact hbare
    · exact htext b hb

/-- No closed field reads a row end. -/
theorem ClosedTail.not_eol {separator quote : Byte} {next : List Byte}
    (h : ClosedTail separator quote (carriageReturn :: next)) (hnext : next.head? = some lineFeed) :
    False := by
  by_cases hcr : carriageReturn = separator
  · obtain ⟨hsep, -⟩ := id h
    rw [hcr, closedTail_separator hsep] at h
    exact h.head_ne_lineFeed hnext
  · obtain ⟨-, hsep, text, rest, rfl, htext, -⟩ := (closedTail_cons hcr).mp h
    exact head_ne_lineFeed hsep htext hnext

/-- Inside a field the reader stalls when the field is closed and the closed fields go on to the end.
By induction on the bytes; `ih` is the statement for the fields behind this one. -/
theorem repeats_inside {rest field : List Byte} {shouldEmit : Bool} {fields : List (List Byte)}
    (ih : ∀ next : List Byte, next.length < rest.length → ∀ fields, fields ≠ [] →
      (r.Repeats (r.nextLineLoop next [] true fields) ↔ ClosedFields r.separator r.quote next))
    (hle : rest.length ≤ r.position.length) (hposition : r.position ≠ []) (hfield : field ≠ [])
    (hfields : shouldEmit = false → fields ≠ []) :
    r.Repeats (r.nextLineLoop rest field shouldEmit fields) ↔
      ClosedTail r.separator r.quote rest := by
  induction rest generalizing field with
  | nil =>
      rw [CsvReader.nextLineLoop, if_neg hfield]
      exact iff_of_false (not_repeats_finish (List.length_pos_iff.mpr hposition)) closedTail_nil
  | cons ch next ihNext =>
      have hlength : next.length < r.position.length := hle
      rw [CsvReader.nextLineLoop]
      by_cases hlf : ch = lineFeed
      · rw [if_pos hlf]
        refine iff_of_false (not_repeats_finish ?_) ?_
        · exact Nat.lt_of_le_of_lt (length_skipCarriageReturn next) hlength
        · rintro ⟨hsep, text, rest, heq, htext, -⟩
          have hhead : (text ++ r.separator :: rest).head? = some lineFeed := by
            rw [← heq, hlf]
            rfl
          exact head_ne_lineFeed hsep htext hhead
      rw [if_neg hlf]
      by_cases hcr : ch = carriageReturn ∧ next.head? = some lineFeed
      · rw [if_pos hcr]
        obtain ⟨rfl, hnext⟩ := hcr
        refine iff_of_false (not_repeats_finish ?_) fun h => h.not_eol hnext
        rw [List.length_tail]
        omega
      rw [if_neg hcr]
      by_cases hsep : ch = r.separator
      · subst hsep
        rw [if_pos rfl, closedTail_separator hlf]
        refine ih next (Nat.lt_succ_self _) _ ?_
        unfold emit
        split
        · simp
        next hno => exact hfields (by simpa using hno)
      rw [if_neg hsep, closedTail_cons hsep]
      by_cases hquote : ch = r.quote
      · rw [if_pos hquote, if_pos hfield]
        exact iff_of_false not_repeats_fail fun h => h.1.2.2 hquote
      · rw [if_neg hquote, and_iff_right ⟨hlf, hsep, hquote⟩]
        exact ihNext (fun l hl => ih l (Nat.lt_succ_of_lt hl)) (Nat.le_of_lt hlength) (by simp)

/-- Behind a closing quote the row goes on. -/
theorem fieldEnds_iff {rest : List Byte} (h : ClosedTail r.separator r.quote rest) :
    r.fieldEnds rest = true ↔
      rest.head? = some r.separator ∨ rest.head? = some carriageReturn := by
  obtain ⟨hsep, text, next, rfl, htext, -⟩ := h
  cases text with
  | nil => simp [CsvReader.fieldEnds]
  | cons ch text =>
      obtain ⟨hlf, hne, -⟩ := htext ch List.mem_cons_self
      simp [CsvReader.fieldEnds, hlf, hne]

/-- A quoted field, with what its scan has found. -/
theorem closedFields_quote {separator quote : Byte} (hquote : quote ≠ lineFeed)
    (hne : quote ≠ separator) {text : List Byte}
    (hbegin : ¬(quote = carriageReturn ∧ text.head? = some lineFeed)) :
    ClosedFields separator quote (quote :: text) ↔
      ∃ scan, handleQuote quote false [] text = some scan ∧ scan.value quote ≠ none ∧
        (scan.rest.head? = some separator ∨ scan.rest.head? = some carriageReturn) ∧
        ClosedTail separator quote scan.rest := by
  constructor
  · intro h
    generalize hl : quote :: text = l at h
    cases h with
    | nil => cases hl
    | bare hsep htext hrest =>
        next text' rest =>
        cases text' with
        | nil => exact absurd (List.cons.inj hl).1 hne
        | cons ch text' =>
            exact absurd (List.cons.inj hl).1.symm (htext ch List.mem_cons_self).2.2
    | quoted hsep hquote' hbegin' hscan hvalue hends hhead hbare hrest =>
        obtain rfl := (List.cons.inj hl).2
        exact ⟨_, hscan, hvalue, hhead, hsep, _, _, hends, hbare, hrest⟩
  · rintro ⟨scan, hscan, hvalue, hhead, hsep, tail, rest, hends, hbare, hrest⟩
    exact .quoted hsep ⟨hquote, hne⟩ hbegin hscan hvalue hends hhead hbare hrest

theorem closedFields_bare {separator quote ch : Byte} (hch : ch ≠ quote) (hlf : ch ≠ lineFeed)
    (hsep : ch ≠ separator) {next : List Byte} :
    ClosedFields separator quote (ch :: next) ↔ ClosedTail separator quote next := by
  constructor
  · intro h
    generalize hl : ch :: next = l at h
    cases h with
    | nil => cases hl
    | bare hsep' htext hrest =>
        next text rest =>
        rw [← closedTail_cons hsep |>.trans (and_iff_right ⟨hlf, hsep, hch⟩)]
        exact ⟨hsep', text, rest, hl, htext, hrest⟩
    | quoted => exact absurd (List.cons.inj hl).1 hch
  · intro h
    obtain ⟨hsep', text, rest, hl, htext, hrest⟩ :=
      (closedTail_cons hsep).mpr ⟨⟨hlf, hsep, hch⟩, h⟩
    rw [hl]
    exact .bare hsep' htext hrest

theorem ClosedFields.not_eol {separator quote : Byte} {next : List Byte}
    (h : ClosedFields separator quote (carriageReturn :: next))
    (hnext : next.head? = some lineFeed) : False := by
  generalize hl : carriageReturn :: next = l at h
  cases h with
  | nil => cases hl
  | bare hsep htext hrest => exact ClosedTail.not_eol ⟨hsep, _, _, hl, htext, hrest⟩ hnext
  | quoted hsep hquote hbegin =>
      obtain ⟨rfl, rfl⟩ := List.cons.inj hl
      exact hbegin ⟨rfl, hnext⟩

theorem closedFields_separator {separator quote : Byte} (hsep : separator ≠ lineFeed)
    {next : List Byte} :
    ClosedFields separator quote (separator :: next) ↔ ClosedFields separator quote next := by
  constructor
  · intro h
    generalize hl : separator :: next = l at h
    cases h with
    | nil => cases hl
    | bare _ htext hrest => exact (closedTail_separator hsep).mp ⟨hsep, _, _, hl, htext, hrest⟩
    | quoted _ hquote => exact absurd (List.cons.inj hl).1.symm hquote.2
  · intro h
    exact @ClosedFields.bare separator quote [] next hsep (fun _ hch => nomatch hch) h

/-- At the beginning of a field the reader stalls when all fields that come are closed.  By induction
on the number of bytes. -/
theorem repeats_field (n : Nat) {rest : List Byte} (hn : rest.length ≤ n)
    {fields : List (List Byte)} (hle : rest.length ≤ r.position.length) (hposition : r.position ≠ [])
    (hfields : rest ≠ [] ∨ fields ≠ []) :
    r.Repeats (r.nextLineLoop rest [] true fields) ↔ ClosedFields r.separator r.quote rest := by
  induction n using Nat.strongRecOn generalizing rest fields with
  | ind n ih =>
  cases rest with
  | nil =>
      rw [CsvReader.nextLineLoop, if_pos rfl]
      refine iff_of_true ⟨?_, Nat.le_refl _⟩ .nil
      have hne : fields ≠ [] := hfields.resolve_left fun h => h rfl
      simpa [CsvReader.finish] using hne
  | cons ch next =>
      have hlength : next.length < r.position.length := hle
      have hinside : ∀ l : List Byte, l.length ≤ next.length → ∀ fields, fields ≠ [] →
          (r.Repeats (r.nextLineLoop l [] true fields) ↔ ClosedFields r.separator r.quote l) :=
        fun l hl fields hfields =>
          ih next.length hn hl (by omega) (.inr hfields)
      rw [CsvReader.nextLineLoop]
      by_cases hlf : ch = lineFeed
      · rw [if_pos hlf]
        refine iff_of_false (not_repeats_finish ?_) fun h => ?_
        · exact Nat.lt_of_le_of_lt (length_skipCarriageReturn next) hlength
        · exact h.head_ne_lineFeed (congrArg some hlf)
      rw [if_neg hlf]
      by_cases hcr : ch = carriageReturn ∧ next.head? = some lineFeed
      · rw [if_pos hcr]
        obtain ⟨rfl, hnext⟩ := hcr
        refine iff_of_false (not_repeats_finish ?_) fun h => ?_
        · rw [List.length_tail]
          omega
        · exact h.not_eol hnext
      rw [if_neg hcr]
      by_cases hsep : ch = r.separator
      · subst hsep
        rw [if_pos rfl, closedFields_separator hlf]
        exact hinside next (Nat.le_refl _) _ (by simp [emit])
      rw [if_neg hsep]
      by_cases hquote : ch = r.quote
      · subst hquote
        rw [if_pos rfl, if_neg (by simp), closedFields_quote hlf hsep hcr]
        split
        next hscan => exact iff_of_false not_repeats_fail (by simp [hscan])
        next scan hscan =>
          have hrest := handleQuote_rest_length hscan
          have hloop : ∀ value, r.Repeats (r.nextLineLoop scan.rest
              (r.quote :: scan.raw ++ [r.quote]) false (fields ++ [value])) ↔
                ClosedTail r.separator r.quote scan.rest := fun value =>
            repeats_inside (fun l hl => hinside l (by omega)) (by omega) hposition (by simp)
              (fun _ => by simp)
          have hscans : (∃ scan', handleQuote r.quote false [] next = some scan' ∧
              scan'.value r.quote ≠ none ∧ (scan'.rest.head? = some r.separator ∨
                scan'.rest.head? = some carriageReturn) ∧
              ClosedTail r.separator r.quote scan'.rest) ↔
              scan.value r.quote ≠ none ∧ r.fieldEnds scan.rest = true ∧
                ClosedTail r.separator r.quote scan.rest := by
            rw [hscan]
            constructor
            · rintro ⟨scan', hsame, hvalue, hhead, htail⟩
              obtain rfl : scan = scan' := Option.some.inj hsame
              exact ⟨hvalue, (fieldEnds_iff htail).mpr hhead, htail⟩
            · rintro ⟨hvalue, hends, htail⟩
              exact ⟨scan, rfl, hvalue, (fieldEnds_iff htail).mp hends, htail⟩
          rw [hscans]
          by_cases hends : r.fieldEnds scan.rest = true
          · rw [if_pos hends]
            cases hvalue : scan.value r.quote with
            | none => exact iff_of_false not_repeats_fail fun h => h.1 rfl
            | some value =>
                rw [hloop value]
                exact ⟨fun h => ⟨Option.some_ne_none value, hends, h⟩, fun h => h.2.2⟩
          · rw [if_neg hends]
            exact iff_of_false not_repeats_fail fun h => hends h.2.1
      · rw [if_neg hquote, closedFields_bare hquote hlf hsep]
        exact repeats_inside (fun l hl => hinside l (by omega)) (by omega) hposition (by simp)
          (by simp)

/-- A row moves the reader, or the reader stays where it is. -/
theorem nextLineLoop_moves (rest field : List Byte) (shouldEmit : Bool) (fields : List (List Byte))
    (hle : rest.length ≤ r.position.length) (hposition : r.position ≠ []) :
    ((r.nextLineLoop rest field shouldEmit fields).2.position = r.position ∨
      (r.nextLineLoop rest field shouldEmit fields).2.position.length < r.position.length) ∧
      (r.nextLineLoop rest field shouldEmit fields).2.separator = r.separator ∧
      (r.nextLineLoop rest field shouldEmit fields).2.quote = r.quote := by
  have hpos := List.length_pos_iff.mpr hposition
  fun_induction CsvReader.nextLineLoop r rest field shouldEmit fields with
  | case1 => exact ⟨.inl rfl, rfl, rfl⟩
  | case2 => exact ⟨.inr hpos, rfl, rfl⟩
  | case3 field shouldEmit fields next =>
      have hskip := length_skipCarriageReturn next
      exact ⟨.inr (Nat.lt_of_le_of_lt hskip hle), rfl, rfl⟩
  | case4 field shouldEmit fields ch next =>
      refine ⟨.inr (Nat.lt_of_le_of_lt ?_ hle), rfl, rfl⟩
      show next.tail.length ≤ next.length
      rw [List.length_tail]
      omega
  | case5 _ _ _ _ _ _ ih => exact ih (Nat.le_of_succ_le hle)
  | case6 => exact ⟨.inl rfl, rfl, rfl⟩
  | case7 => exact ⟨.inl rfl, rfl, rfl⟩
  | case8 => exact ⟨.inl rfl, rfl, rfl⟩
  | case9 _ _ _ _ _ scan hscan _ _ _ _ _ _ ih =>
      have hrest := handleQuote_rest_length hscan
      exact ih (Nat.le_trans hrest (Nat.le_of_succ_le hle))
  | case10 => exact ⟨.inl rfl, rfl, rfl⟩
  | case11 _ _ _ _ _ _ _ _ _ ih => exact ih (Nat.le_of_succ_le hle)

namespace CsvReader

/-- The same row comes again. -/
theorem stalls_iff : r.Stalls ↔ r.nextLine.1 = true ∧ r.nextLine.2.position = r.position := by
  unfold Stalls nextLine
  by_cases hposition : r.position = []
  · rw [if_pos hposition]
    exact iff_of_false (fun h => h.1 hposition) fun h => nomatch h.1
  · rw [if_neg hposition, and_iff_right hposition]
    have hmoves := (@nextLineLoop_moves r.startLine r.position [] true [] (Nat.le_refl _)
      hposition).1
    have hrepeats := @repeats_field r.startLine _ r.position (Nat.le_refl _) [] (Nat.le_refl _)
      hposition (.inl hposition)
    refine hrepeats.symm.trans (and_congr_right fun _ => ?_)
    exact ⟨fun hle => hmoves.resolve_right (Nat.not_lt.mpr hle), fun heq =>
      Nat.le_of_eq (congrArg List.length heq).symm⟩

theorem nextLine_separator_quote :
    r.nextLine.2.separator = r.separator ∧ r.nextLine.2.quote = r.quote := by
  unfold nextLine
  by_cases hposition : r.position = []
  · rw [if_pos hposition]
    exact ⟨rfl, rfl⟩
  · rw [if_neg hposition]
    exact (@nextLineLoop_moves r.startLine r.position [] true [] (Nat.le_refl _) hposition).2

theorem Stalls.next (h : r.Stalls) : r.nextLine.2.Stalls := by
  have hposition := (stalls_iff.mp h).2
  obtain ⟨hsep, hquote⟩ := nextLine_separator_quote (r := r)
  unfold Stalls at h ⊢
  rwa [hposition, hsep, hquote]

theorem advances_of_not_stalls (h : ¬r.Stalls) (hrow : r.nextLine.1 = true) :
    r.nextLine.2.position.length < r.position.length := by
  rw [stalls_iff, not_and] at h
  have hstays := h hrow
  unfold nextLine at hrow hstays ⊢
  by_cases hposition : r.position = []
  · rw [if_pos hposition] at hrow
    cases hrow
  · rw [if_neg hposition] at hstays ⊢
    exact ((@nextLineLoop_moves r.startLine r.position [] true [] (Nat.le_refl _)
      hposition).1).resolve_left hstays

/-- `while (csv.nextLine())` ends. -/
inductive Ends : CsvReader → Prop
  | stop {r : CsvReader} (h : r.nextLine.1 = false) : Ends r
  | turn {r : CsvReader} (h : r.nextLine.1 = true) (hrest : Ends r.nextLine.2) : Ends r

/-- The readers that the loop comes to. -/
inductive Reaches : CsvReader → CsvReader → Prop
  | refl (r : CsvReader) : Reaches r r
  | turn {r r' : CsvReader} (h : r.nextLine.1 = true) (hrest : Reaches r.nextLine.2 r') :
      Reaches r r'

theorem Ends.not_stalls (h : r.Ends) : ¬r.Stalls := by
  induction h with
  | stop hstop =>
      intro hstalls
      rw [(stalls_iff.mp hstalls).1] at hstop
      cases hstop
  | turn _ _ ih => exact fun hstalls => ih hstalls.next

/-- By induction on the bytes that are left. -/
theorem ends_of_not_stalls (n : Nat) (hn : r.position.length ≤ n)
    (h : ∀ r', r.Reaches r' → ¬r'.Stalls) : r.Ends := by
  induction n generalizing r with
  | zero =>
      refine .stop ?_
      unfold nextLine
      rw [if_pos (List.length_eq_zero_iff.mp (Nat.le_zero.mp hn))]
  | succ n ih =>
      cases hrow : r.nextLine.1 with
      | false => exact .stop hrow
      | true =>
          have hadvances := advances_of_not_stalls (h r (.refl r)) hrow
          exact .turn hrow (ih (by omega) fun r' hr' => h r' (.turn hrow hr'))

theorem Ends.reaches {r' : CsvReader} (h : r.Ends) (hreaches : r.Reaches r') : r'.Ends := by
  induction hreaches with
  | refl => exact h
  | turn hrow _ ih =>
      cases h with
      | stop hstop =>
          rw [hrow] at hstop
          cases hstop
      | turn _ hrest => exact ih hrest

/-- A call moves the reader just when not all of the fields before it are closed, and the loop ends
just when it comes to no such place. -/
theorem progress_iff (r : CsvReader) :
    ((r.nextLine.1 = true → r.nextLine.2.position.length < r.position.length) ↔ ¬r.Stalls) ∧
      (r.Ends ↔ ∀ r', r.Reaches r' → ¬r'.Stalls) := by
  refine ⟨⟨fun h hstalls => ?_, advances_of_not_stalls⟩,
    ⟨fun h r' hr' => (h.reaches hr').not_stalls, ends_of_not_stalls _ (Nat.le_refl _)⟩⟩
  obtain ⟨hrow, hposition⟩ := stalls_iff.mp hstalls
  have hlt := h hrow
  rw [hposition] at hlt
  exact Nat.lt_irrefl _ hlt

/-- The two bytes `a,`: each call returns the row again. -/
theorem closed_last_row_repeats :
    (initFromMemory 44 34 [97, 44]).nextLine.1 = true ∧
      (initFromMemory 44 34 [97, 44]).nextLine.2.position = [97, 44] ∧
      ¬(initFromMemory 44 34 [97, 44]).Ends := by
  have hstalls : (initFromMemory 44 34 [97, 44]).Stalls := by
    refine ⟨List.cons_ne_nil _ _, ?_⟩
    refine @ClosedFields.bare 44 34 [97] [] (by decide) (fun ch hch => ?_) .nil
    rw [List.mem_singleton.mp hch]
    exact ⟨by decide, by decide, by decide⟩
  obtain ⟨hrow, hposition⟩ := stalls_iff.mp hstalls
  exact ⟨hrow, hposition, fun hends => hends.not_stalls hstalls⟩

end CsvReader

end Jumanpp.Util.Csv
