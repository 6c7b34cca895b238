import Mathlib

/-!
# The CSV reader

`CsvReader` walks over a byte buffer and produces one row per call of `nextLine`.  A pointer into
the buffer is modelled by the bytes from it to `end_`, so that `position` is the unread suffix and
the scanned part of the current field is the list of bytes between `field_start` and `position`.
-/

namespace Jumanpp.Util.Csv

abbrev Byte := UInt8

def lineFeed : Byte := 10

def carriageReturn : Byte := 13

/-- Capacity of one page of the `CharBuffer` that holds unescaped fields. -/
def pageSize : Nat := 16 * 1024

/-- `CharBuffer::prepareMemory` opens a new page whenever the current one is too full, so only a
string longer than a whole page is refused. -/
def prepareMemory (size : Nat) : Bool :=
  decide (size ≤ pageSize)

structure CsvReader where
  separator : Byte
  quote : Byte
  /-- The bytes from `position_` to `end_`. -/
  position : List Byte
  fields : List (List Byte)
  lineNumber : Nat

/-- What `handleQuote` finds: the raw bytes up to the closing quote, whether they contain doubled
quotes, and the bytes after the closing quote. -/
structure QuoteScan where
  raw : List Byte
  containsEscapes : Bool
  rest : List Byte

/-- `none` stands for a missing closing quote. -/
def handleQuote (quote : Byte) (wasQuoted : Bool) (raw : List Byte) :
    List Byte → Option QuoteScan
  | [] => none
  | [ch] => if ch = quote then some ⟨raw, wasQuoted, []⟩ else none
  | ch :: nextCh :: rest =>
      if ch = quote then
        if nextCh = quote then handleQuote quote true (raw ++ [ch, nextCh]) rest
        else some ⟨raw, wasQuoted, nextCh :: rest⟩
      else handleQuote quote wasQuoted (raw ++ [ch]) (nextCh :: rest)

/-- The main cycle of `unescapeString`. -/
def skipEscapes (quote : Byte) : List Byte → Option (List Byte)
  | [] => some []
  | [ch] => if ch = quote then none else some [ch]
  | ch :: nextCh :: rest =>
      if ch = quote then
        if nextCh = quote then (skipEscapes quote rest).map (nextCh :: ·) else none
      else (skipEscapes quote (nextCh :: rest)).map (ch :: ·)

def unescapeString (quote : Byte) (sp : List Byte) : Option (List Byte) :=
  let head := sp.takeWhile (· ≠ quote)
  match sp.dropWhile (· ≠ quote) with
  | [] => none
  | [_] => none
  -- the quote is the last part of the string: no copy is made
  | [escape, _] => some (head ++ [escape])
  | escape :: _ :: rest =>
      if prepareMemory sp.length then
        (skipEscapes quote rest).map (head ++ escape :: ·)
      else none

/-- The value that a scanned quoted field is emitted with. -/
def QuoteScan.value (quote : Byte) (scan : QuoteScan) : Option (List Byte) :=
  if scan.containsEscapes then unescapeString quote scan.raw else some scan.raw

/-- `*next` after a closing quote: the field has to end there. -/
def CsvReader.fieldEnds (r : CsvReader) : List Byte → Bool
  | [] => true
  | next :: _ => next == lineFeed || next == carriageReturn || next == r.separator

def emit (shouldEmit : Bool) (fields : List (List Byte)) (field : List Byte) :
    List (List Byte) :=
  if shouldEmit then fields ++ [field] else fields

/-- The pattern `\n\r`. -/
def skipCarriageReturn : List Byte → List Byte
  | [] => []
  | ch :: rest => if ch = carriageReturn then rest else ch :: rest

/-- Leaving the loop of `nextLine` by `break`. -/
def CsvReader.finish (r : CsvReader) (fields : List (List Byte)) (position : List Byte) :
    Bool × CsvReader :=
  (!fields.isEmpty, { r with fields := fields, position := position })

/-- Leaving `nextLine` by `return false`: `position_` keeps its value. -/
def CsvReader.fail (r : CsvReader) (fields : List (List Byte)) : Bool × CsvReader :=
  (false, { r with fields := fields })

theorem handleQuote_rest_length {quote : Byte} {wasQuoted : Bool} {raw input : List Byte}
    {scan : QuoteScan} (h : handleQuote quote wasQuoted raw input = some scan) :
    scan.rest.length ≤ input.length := by
  fun_induction handleQuote quote wasQuoted raw input with
  | case1 => simp at h
  | case2 wasQuoted raw =>
      simp only [Option.some.injEq] at h
      simp [← h]
  | case3 wasQuoted raw ch hch => simp at h
  | case4 wasQuoted raw rest ih =>
      have hrest := ih h
      simp only [List.length_cons]
      omega
  | case5 wasQuoted raw nextCh rest hnext =>
      simp only [Option.some.injEq] at h
      simp [← h]
  | case6 wasQuoted raw ch nextCh rest hch ih =>
      have hrest := ih h
      simp only [List.length_cons] at hrest ⊢
      omega

/-- The loop of `nextLine`: `rest` are the bytes from `position`, `field` those from
`field_start` to `position`. -/
def CsvReader.nextLineLoop (r : CsvReader) (rest field : List Byte) (shouldEmit : Bool)
    (fields : List (List Byte)) : Bool × CsvReader :=
  match rest with
  | [] =>
      if field = [] then r.finish fields r.position
      else r.finish (emit shouldEmit fields field) []
  | ch :: next =>
      if ch = lineFeed then r.finish (emit shouldEmit fields field) (skipCarriageReturn next)
      else if ch = carriageReturn ∧ next.head? = some lineFeed then
        r.finish (emit shouldEmit fields field) next.tail
      else if ch = r.separator then
        r.nextLineLoop next [] true (emit shouldEmit fields field)
      else if ch = r.quote then
        if field ≠ [] then r.fail fields
        else
          match _h : handleQuote r.quote false [] next with
          | none => r.fail fields
          | some scan =>
              if r.fieldEnds scan.rest then
                match scan.value r.quote with
                | none => r.fail fields
                | some value =>
                    r.nextLineLoop scan.rest (ch :: scan.raw ++ [ch]) false (fields ++ [value])
              else r.fail fields
      else r.nextLineLoop next (field ++ [ch]) shouldEmit fields
termination_by rest.length
decreasing_by
  · simp
  · have := handleQuote_rest_length _h
    simp only [List.length_cons]
    omega
  · simp

def CsvReader.startLine (r : CsvReader) : CsvReader :=
  { r with fields := [], lineNumber := r.lineNumber + 1 }

def CsvReader.nextLine (r : CsvReader) : Bool × CsvReader :=
  if r.position = [] then (false, r) else r.startLine.nextLineLoop r.position [] true []

/-- Constructor and `initFromMemory`. -/
def CsvReader.initFromMemory (separator quote : Byte) (data : List Byte) : CsvReader :=
  ⟨separator, quote, data, [], 0⟩

/-- Calling `nextLine` until it returns false yields exactly `rows`. -/
def CsvReader.Yields : CsvReader → List (List (List Byte)) → Prop
  | r, [] => r.nextLine.1 = false
  | r, row :: rows =>
      r.nextLine.1 = true ∧ r.nextLine.2.fields = row ∧ r.nextLine.2.Yields rows

end Jumanpp.Util.Csv
