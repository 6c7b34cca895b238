import Mathlib
import Jumanpp.Core.Input.PartialExample
import Jumanpp.Core.Training.GoldExample
import Jumanpp.Util.CsvRoundTrip

/-!
# Reading partially annotated examples

An example is a block of lines that an empty line ends.  A line with one field is a stretch of the text, in
which a token forbids to break; a line that begins with a tab is a word with its tags.
-/

namespace Jumanpp.Core.Input

open Jumanpp.Lib Jumanpp.Util Jumanpp.Util.Csv

/-- `CsvReader csv_{'\t', '\0'}`. -/
def pexDialect : Dialect where
  separator := 9
  quote := 0
  separator_ne_quote := by decide
  separator_ne_lineFeed := by decide
  separator_ne_carriageReturn := by decide
  quote_ne_lineFeed := by decide
  quote_ne_carriageReturn := by decide

def colon : UInt8 := 58

def numberSign : UInt8 := 35

def blank : UInt8 := 32

/-- What a tag needs of a training field. -/
structure TagField where
  str2int : FlatMap (List UInt8) Int
  dicFieldIdx : Int

/-- Why a tag is refused; the messages name the place and the entry. -/
inductive TagError
  | notUtf8
  | noFieldName
  | unknownField

inductive PexError
  | notUtf8 (line : Nat)
  | firstFieldNotEmpty (line : Nat) (field : List UInt8)
  | tag (line : Nat) (error : TagError)

structure PartialExampleReader where
  filename : List UInt8
  fields : FlatMap (List UInt8) TagField
  noBreakToken : Nat

/-- The example that is being read. -/
structure ReadState where
  result : PartialExample
  boundary : Nat
  firstLine : Bool

/-- `csv_.line()`: what lies between the two positions, with the row end. -/
def wholeLineOf (before after : CsvReader) : List UInt8 :=
  before.position.take (before.position.length - after.position.length)

def isComment (wholeLine : List UInt8) : Bool :=
  decide (2 < wholeLine.length) && decide (wholeLine[0]? = some numberSign) &&
    decide (wholeLine[1]? = some blank)

namespace PartialExampleReader

variable (r : PartialExampleReader)

/-- One turn of the loop over the code points of a line. -/
def readCodept (s : ReadState) (codept : InputCodepoint) : ReadState :=
  if codept.codepoint = r.noBreakToken then
    { s with result := { s.result with noBreak := s.result.noBreak ++ [s.boundary] } }
  else
    { s with
      result := { s.result with surface := s.result.surface ++ codept.bytes }
      boundary := s.boundary + 1 }

def pushBoundary (s : ReadState) : ReadState :=
  { s with result := { s.result with boundaries := s.result.boundaries ++ [s.boundary] } }

/-- One turn of the loop over the tags of a line. -/
def readTag (fldData : List UInt8) : Except TagError TagConstraint :=
  match fldData.dropWhile (· ≠ colon) with
  | [] => .error .noFieldName
  | _ :: fldValue =>
      match preprocessRawData fldValue with
      | none => .error .notUtf8
      | some _ =>
          match r.fields.find (fldData.takeWhile (· ≠ colon)) with
          | none => .error .unknownField
          | some fld => .ok ⟨fld.dicFieldIdx,
              (fld.str2int.find fldValue).getD (Training.surfaceHash fldValue)⟩

def readTags : List (List UInt8) → Except TagError (List TagConstraint)
  | [] => .ok []
  | fldData :: rest =>
      match r.readTag fldData with
      | .error e => .error e
      | .ok tag =>
          match readTags rest with
          | .error e => .error e
          | .ok tags => .ok (tag :: tags)

/-- A word: no break is allowed inside of it. -/
def readNode (s : ReadState) (surface : List UInt8) (length : Nat) (tags : List TagConstraint) :
    ReadState :=
  { s with
    result := { s.result with
      noBreak := s.result.noBreak ++ (List.range' 1 (length - 1)).map (s.boundary + ·)
      surface := s.result.surface ++ surface
      boundaries := s.result.boundaries ++ [s.boundary + length]
      nodes := s.result.nodes ++ [⟨s.boundary, length, surface, tags⟩] }
    boundary := s.boundary + length }

/-- The body of the loop over the lines; whether the example ends with the line. -/
def readLine (wholeLine : List UInt8) (csv : CsvReader) (s : ReadState) :
    Except PexError (Bool × ReadState) :=
  let s := if s.firstLine then
    { s with result := { s.result with line := csv.lineNumber }, firstLine := false } else s
  if isComment wholeLine then
    .ok (false, { s with
      result := { s.result with comment := (wholeLine.take (wholeLine.length - 1)).drop 2 } })
  else
    match csv.fields with
    -- a line that has been read has a field
    | [] => .error (.firstFieldNotEmpty csv.lineNumber [])
    | [data] =>
        if data = [] then
          .ok (true, { s with result := { s.result with
            boundaries := s.result.boundaries.dropLast } })
        else
          match preprocessRawData data with
          | none => .error (.notUtf8 csv.lineNumber)
          | some codepts => .ok (false, pushBoundary (codepts.foldl r.readCodept s))
    | first :: surface :: tags =>
        if first ≠ [] then .error (.firstFieldNotEmpty csv.lineNumber first)
        else
          match preprocessRawData surface with
          | none => .error (.notUtf8 csv.lineNumber)
          | some codepts =>
              match r.readTags tags with
              | .error e => .error (.tag csv.lineNumber e)
              | .ok tags => .ok (false, readNode s surface codepts.length tags)

/-- The loop over the lines; whether the file has ended. -/
def readLines : Nat → CsvReader → ReadState → Option (Except PexError (Bool × PartialExample × CsvReader))
  | 0, _, _ => none
  | turns + 1, csv, s =>
      let next := csv.nextLine
      if next.1 then
        match r.readLine (wholeLineOf csv next.2) next.2 s with
        | .error e => some (.error e)
        | .ok (true, s) => some (.ok (false, s.result, next.2))
        | .ok (false, s) => readLines turns next.2 s
      else some (.ok (true, s.result, next.2))

/-- A new example, in which the reader clears the lists. -/
def emptyExample : PartialExample := ⟨[], r.filename, 0, [], [], [], []⟩

def readExample (turns : Nat) (csv : CsvReader) :
    Option (Except PexError (Bool × PartialExample × CsvReader)) :=
  r.readLines turns csv ⟨r.emptyExample, firstBoundary, true⟩

/-- `TrainerBatch::readPartialExamples`.  The loop is left at the end of the file before the example is
stored. -/
def readPartialExamples (lines : Nat) : Nat → CsvReader → Option (Except PexError (List PartialExample))
  | 0, _ => none
  | turns + 1, csv =>
      match r.readExample lines csv with
      | none => none
      | some (.error e) => some (.error e)
      | some (.ok (true, _, _)) => some (.ok [])
      | some (.ok (false, ex, csv)) =>
          match readPartialExamples lines turns csv with
          | some (.ok examples) => some (.ok (ex :: examples))
          | result => result

end PartialExampleReader

end Jumanpp.Core.Input
