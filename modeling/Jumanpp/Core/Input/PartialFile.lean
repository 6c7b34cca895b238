import Mathlib
import Jumanpp.Core.Input.PartialExampleIo
import Jumanpp.Core.Input.Violations
import Jumanpp.Util.CharacterCount

/-!
# Files of partially annotated examples

The lines of a well-formed file, the text that they make and the segments that they stand for.
-/

namespace Jumanpp.Core.Input

open Jumanpp.Lib Jumanpp.Util Jumanpp.Util.Csv

/-! ## Segments of lines -/

/-- The number of characters before each token. -/
def marksOf (noBreakToken : Nat) (chars : Nat) : List InputCodepoint → List Nat
  | [] => []
  | codept :: codepts =>
      if codept.codepoint = noBreakToken then chars :: marksOf noBreakToken chars codepts
      else marksOf noBreakToken (chars + 1) codepts

/-- The code points of a line without the tokens. -/
def charsOf (noBreakToken : Nat) (codepts : List InputCodepoint) : List InputCodepoint :=
  codepts.filter fun codept => decide (codept.codepoint ≠ noBreakToken)

theorem charsOf_cons (noBreakToken : Nat) (codept : InputCodepoint) (codepts : List InputCodepoint) :
    charsOf noBreakToken (codept :: codepts) =
      if codept.codepoint = noBreakToken then charsOf noBreakToken codepts
      else codept :: charsOf noBreakToken codepts := by
  unfold charsOf
  by_cases htoken : codept.codepoint = noBreakToken
  · rw [if_pos htoken, List.filter_cons_of_neg (by simp [htoken])]
  · rw [if_neg htoken, List.filter_cons_of_pos (by simp [htoken])]

theorem marksOf_bounds {noBreakToken chars : Nat} {codepts : List InputCodepoint} :
    ∀ m ∈ marksOf noBreakToken chars codepts,
      chars ≤ m ∧ m ≤ chars + (charsOf noBreakToken codepts).length := by
  induction codepts generalizing chars with
  | nil => simp [marksOf]
  | cons codept codepts ih =>
      rw [marksOf, charsOf_cons]
      by_cases htoken : codept.codepoint = noBreakToken
      · rw [if_pos htoken, if_pos htoken]
        refine List.forall_mem_cons.mpr ⟨⟨Nat.le_refl _, Nat.le_add_right _ _⟩, ?_⟩
        exact fun m hm => ih m hm
      · rw [if_neg htoken, if_neg htoken, List.length_cons]
        intro m hm
        have hbounds := ih m hm
        omega

theorem marksOf_sorted (noBreakToken chars : Nat) (codepts : List InputCodepoint) :
    (marksOf noBreakToken chars codepts).Pairwise (· ≤ ·) := by
  induction codepts generalizing chars with
  | nil => exact .nil
  | cons codept codepts ih =>
      rw [marksOf]
      split
      · exact List.pairwise_cons.mpr ⟨fun m hm => (marksOf_bounds m hm).1, ih chars⟩
      · exact ih (chars + 1)

theorem not_tagged : ¬ (none : Option (List TagConstraint)).isSome = true :=
  Bool.false_ne_true

/-- The segment of a line with one field. -/
def Segment.ofCodepoints (noBreakToken : Nat) (codepts : List InputCodepoint) : Segment where
  surface := (charsOf noBreakToken codepts).flatMap InputCodepoint.bytes
  length := (charsOf noBreakToken codepts).length
  marks := marksOf noBreakToken 0 codepts
  tags := none
  marks_sorted := marksOf_sorted noBreakToken 0 codepts
  marks_le m hm := Nat.zero_add (charsOf noBreakToken codepts).length ▸ (marksOf_bounds m hm).2
  tagged h := absurd h not_tagged

theorem mem_insideOf {length m : Nat} : m ∈ List.range' 1 (length - 1) ↔ 0 < m ∧ m < length := by
  rw [List.mem_range'_1]
  omega

theorem insideOf_sorted (length : Nat) : (List.range' 1 (length - 1)).Pairwise (· ≤ ·) :=
  List.pairwise_le_range'

theorem insideOf_le {length : Nat} : ∀ m ∈ List.range' 1 (length - 1), m ≤ length :=
  fun _ hm => (mem_insideOf.mp hm).2.le

/-- The segment of a word. -/
def Segment.ofWord (surface : List UInt8) (length : Nat) (hlength : 0 < length)
    (tags : List TagConstraint) : Segment where
  surface := surface
  length := length
  marks := List.range' 1 (length - 1)
  tags := some tags
  marks_sorted := insideOf_sorted length
  marks_le := insideOf_le
  tagged _ := ⟨hlength, fun _ => mem_insideOf⟩

/-! ## Lines -/

/-- A text without tabs, row ends and quotes. -/
structure PlainText where
  bytes : List UInt8
  plain : ∀ b ∈ bytes, pexDialect.Plain b

def PlainText.field (t : PlainText) : Field pexDialect :=
  .bare t.bytes t.plain

theorem plain_nil : ∀ b ∈ ([] : List UInt8), pexDialect.Plain b :=
  fun _ h => absurd h List.not_mem_nil

def emptyText : PlainText := ⟨[], plain_nil⟩

/-- A line of a well-formed file. -/
inductive PexLine (r : PartialExampleReader)
  | comment (row : Csv.Row pexDialect) (fits : row.Fits) (closed : row.lastField.text ≠ [])
      (first : UInt8) (rest : List UInt8) (begins : row.text = numberSign :: blank :: first :: rest)
  | plain (text : PlainText) (nonempty : text.bytes ≠ []) (data : ¬ [numberSign, blank] <+: text.bytes)
      (codepts : List InputCodepoint) (isText : preprocessRawData text.bytes = some codepts)
  | word (surface : PlainText) (nonempty : surface.bytes ≠ []) (codepts : List InputCodepoint)
      (isText : preprocessRawData surface.bytes = some codepts) (tags : List PlainText)
      (constraints : List TagConstraint)
      (read : r.readTags (tags.map PlainText.bytes) = .ok constraints)

/-- A text that is not empty has characters. -/
theorem length_pos_of_preprocess {text : List UInt8} {codepts : List InputCodepoint}
    (h : preprocessRawData text = some codepts) (hne : text ≠ []) : 0 < codepts.length := by
  apply List.length_pos_iff.mpr
  rintro rfl
  exact hne (preprocessRawData_eq_some_iff.mp h).1.symm

namespace PexLine

variable {r : PartialExampleReader}

def row : PexLine r → Csv.Row pexDialect
  | comment row _ _ _ _ _ => row
  | plain text _ _ _ _ => ⟨text.field, []⟩
  | word surface _ _ _ tags _ _ => ⟨emptyText.field, surface.field :: tags.map PlainText.field⟩

/-- A comment is no part of the text. -/
def segment : PexLine r → Option Segment
  | comment _ _ _ _ _ _ => none
  | plain _ _ _ codepts _ => some (.ofCodepoints r.noBreakToken codepts)
  | word surface nonempty codepts isText _ constraints _ =>
      some (.ofWord surface.bytes codepts.length (length_pos_of_preprocess isText nonempty)
        constraints)

def segments (lines : List (PexLine r)) : List Segment :=
  lines.filterMap segment

/-- The lines with their ends. -/
def linesText (eol : Eol) (lines : List (PexLine r)) : List UInt8 :=
  lines.flatMap fun line => line.row.text ++ eol.text

end PexLine

/-- Examples that an empty line ends, and the last one, which may lack it and even the end of its last
line. -/
structure PexFile (r : PartialExampleReader) where
  eol : Eol
  examples : List (List (PexLine r))
  last : Option (List (PexLine r) × Option (PexLine r))
  last_nonempty : ∀ l, last = some l → PexLine.segments (l.1 ++ l.2.toList) ≠ []

namespace PexFile

variable {r : PartialExampleReader} (file : PexFile r)

def lastText : List UInt8 :=
  match file.last with
  | none => []
  | some (lines, final) =>
      PexLine.linesText file.eol lines ++ (final.map fun line => line.row.text).getD []

def examplesText (eol : Eol) (examples : List (List (PexLine r))) (rest : List UInt8) : List UInt8 :=
  match examples with
  | [] => rest
  | lines :: examples => PexLine.linesText eol lines ++ eol.text ++ examplesText eol examples rest

def text : List UInt8 :=
  examplesText file.eol file.examples file.lastText

/-- The segments of all examples, the last one included. -/
def annotations : List (List Segment) :=
  file.examples.map PexLine.segments ++
    (file.last.map fun l => PexLine.segments (l.1 ++ l.2.toList)).toList

end PexFile

/-! ## What the lists become -/

namespace Segment

theorem ends_append (boundary : Nat) (before after : List Segment) :
    ends boundary (before ++ after) = ends boundary before ++ ends (boundary + width before) after := by
  induction before generalizing boundary with
  | nil => rfl
  | cons s before ih =>
      rw [List.cons_append, ends, ends, List.cons_append, ih, width_cons, Nat.add_assoc]

theorem noBreaks_append (boundary : Nat) (before after : List Segment) :
    noBreaks boundary (before ++ after) =
      noBreaks boundary before ++ noBreaks (boundary + width before) after := by
  induction before generalizing boundary with
  | nil => rfl
  | cons s before ih =>
      rw [List.cons_append, noBreaks, noBreaks, List.append_assoc, ih, width_cons, Nat.add_assoc]

theorem constraints_append (boundary : Nat) (before after : List Segment) :
    constraints boundary (before ++ after) =
      constraints boundary before ++ constraints (boundary + width before) after := by
  induction before generalizing boundary with
  | nil => rfl
  | cons s before ih =>
      rw [List.cons_append, constraints, constraints, List.append_assoc, ih, width_cons,
        Nat.add_assoc]

theorem surfaceOf_append (before after : List Segment) :
    surfaceOf (before ++ after) = surfaceOf before ++ surfaceOf after :=
  List.flatMap_append

end Segment

/-- The state after the lines of some segments. -/
structure ReadState.Holds (s : ReadState) (segments : List Segment) : Prop where
  surface : s.result.surface = Segment.surfaceOf segments
  boundaries : s.result.boundaries = Segment.ends firstBoundary segments
  noBreak : s.result.noBreak = Segment.noBreaks firstBoundary segments
  nodes : s.result.nodes = Segment.constraints firstBoundary segments
  boundary : s.boundary = firstBoundary + Segment.width segments

namespace ReadState.Holds

variable {r : PartialExampleReader} {s : ReadState} {segments : List Segment} (h : s.Holds segments)

include h

/-- What is left when the example ends. -/
theorem reads : s.result.Reads segments :=
  ⟨h.surface, .inr h.boundaries, h.noBreak, h.nodes⟩

theorem readNode {surface : List UInt8} {length : Nat} (hlength : 0 < length)
    (tags : List TagConstraint) : (PartialExampleReader.readNode s surface length tags).Holds
      (segments ++ [.ofWord surface length hlength tags]) where
  surface := by
    rw [Segment.surfaceOf_append, ← h.surface]
    show _ = s.result.surface ++ (surface ++ [])
    rw [List.append_nil]
    rfl
  boundaries := by
    rw [Segment.ends_append, ← h.boundaries, ← h.boundary]
    rfl
  noBreak := by
    rw [Segment.noBreaks_append, ← h.noBreak, ← h.boundary]
    show _ = s.result.noBreak ++ ((List.range' 1 (length - 1)).map (s.boundary + ·) ++ [])
    rw [List.append_nil]
    rfl
  nodes := by
    rw [Segment.constraints_append, ← h.nodes, ← h.boundary]
    rfl
  boundary := by
    rw [Segment.width_append, ← Nat.add_assoc, ← h.boundary]
    rfl

end ReadState.Holds

/-- The loop over the code points of a line, of which those before have been read. -/
theorem foldl_readCodept (r : PartialExampleReader) (codepts : List InputCodepoint) (s : ReadState) :
    codepts.foldl r.readCodept s =
      { s with
        result := { s.result with
          noBreak := s.result.noBreak ++ marksOf r.noBreakToken s.boundary codepts
          surface := s.result.surface ++
            (charsOf r.noBreakToken codepts).flatMap InputCodepoint.bytes }
        boundary := s.boundary + (charsOf r.noBreakToken codepts).length } := by
  induction codepts generalizing s with
  | nil => simp [marksOf, charsOf]
  | cons codept codepts ih =>
      rw [List.foldl_cons, ih, marksOf, charsOf_cons, PartialExampleReader.readCodept]
      by_cases htoken : codept.codepoint = r.noBreakToken
      · simp only [if_pos htoken, List.append_assoc, List.singleton_append]
      · simp only [if_neg htoken, List.append_assoc, List.flatMap_cons, List.length_cons,
          Nat.add_assoc, Nat.add_comm 1]

theorem marksOf_add (noBreakToken boundary chars : Nat) (codepts : List InputCodepoint) :
    marksOf noBreakToken (boundary + chars) codepts =
      (marksOf noBreakToken chars codepts).map (boundary + ·) := by
  induction codepts generalizing chars with
  | nil => rfl
  | cons codept codepts ih =>
      rw [marksOf, marksOf]
      split
      · rw [List.map_cons, ih]
      · rw [Nat.add_assoc, ih]

theorem ReadState.Holds.readPlain {r : PartialExampleReader} {s : ReadState} {segments : List Segment}
    (h : s.Holds segments) (codepts : List InputCodepoint) :
    (PartialExampleReader.pushBoundary (codepts.foldl r.readCodept s)).Holds
      (segments ++ [.ofCodepoints r.noBreakToken codepts]) := by
  have hmarks := marksOf_add r.noBreakToken s.boundary 0 codepts
  rw [Nat.add_zero] at hmarks
  rw [foldl_readCodept, hmarks]
  constructor
  · rw [Segment.surfaceOf_append, ← h.surface]
    show _ = s.result.surface ++
      ((charsOf r.noBreakToken codepts).flatMap InputCodepoint.bytes ++ [])
    rw [List.append_nil]
    rfl
  · rw [Segment.ends_append, ← h.boundaries, ← h.boundary]
    rfl
  · rw [Segment.noBreaks_append, ← h.noBreak, ← h.boundary]
    show _ = s.result.noBreak ++ ((marksOf r.noBreakToken 0 codepts).map (s.boundary + ·) ++ [])
    rw [List.append_nil]
    rfl
  · rw [Segment.constraints_append, ← h.nodes, ← h.boundary]
    exact (List.append_nil _).symm
  · rw [Segment.width_append, ← Nat.add_assoc, ← h.boundary]
    rfl

end Jumanpp.Core.Input
