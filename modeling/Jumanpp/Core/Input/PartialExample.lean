import Mathlib

/-!
# Partially annotated examples

An example is a text with positions where a word has to end, positions where none may, and words with
required tags.  `checkViolation` says which of these a node of the lattice contradicts.  The positions are
boundaries of the lattice, so that the text begins at 2.
-/

namespace Jumanpp.Core.Input

structure TagConstraint where
  field : Int
  value : Int
deriving DecidableEq

structure NodeConstraint where
  boundary : Nat
  length : Nat
  surface : List UInt8
  tags : List TagConstraint

inductive ViolationKind
  | None
  | WordStart
  | WordEnd
  | NoBoundary
  | Tag
deriving DecidableEq

structure PartialViolation where
  kind : ViolationKind
  parameter : Int
deriving DecidableEq

def PartialViolation.isNone (v : PartialViolation) : Prop :=
  v.kind = .None

structure PartialExample where
  comment : List UInt8
  file : List UInt8
  line : Nat
  surface : List UInt8
  boundaries : List Nat
  noBreak : List Nat
  nodes : List NodeConstraint

/-- What the checker reads of a node: where it starts, its length and its row of the feature data. -/
structure LatticeNode where
  boundary : Nat
  numCodepoints : Nat
  entryData : List Int

namespace LatticeNode

variable (node : LatticeNode)

def endBoundary : Nat :=
  node.boundary + node.numCodepoints

/-- `data.at(field)`; nothing is there outside of the data. -/
def dataAt (field : Int) : Option Int :=
  if field < 0 then none else node.entryData[field.toNat]?

end LatticeNode

/-! ## The checks -/

def checkNoBreak (boundary endBoundary : Nat) : List Nat → Option PartialViolation
  | [] => none
  | bnd :: noBreak =>
      if bnd = boundary then some ⟨.WordStart, bnd⟩
      else if bnd = endBoundary then some ⟨.WordEnd, bnd⟩
      else if endBoundary < bnd then none
      else checkNoBreak boundary endBoundary noBreak

def checkBoundaries (boundary endBoundary : Nat) : List Nat → Option PartialViolation
  | [] => none
  | bnd :: boundaries =>
      if bnd ≤ boundary then checkBoundaries boundary endBoundary boundaries
      else if endBoundary ≤ bnd then none
      else some ⟨.NoBoundary, bnd⟩

/-- The outer `none` is a read outside of the feature data. -/
def checkTags (node : LatticeNode) : List TagConstraint → Option PartialViolation
  | [] => some ⟨.None, 0⟩
  | tag :: tags => do
      let value ← node.dataAt tag.field
      if value ≠ tag.value then some ⟨.Tag, tag.field⟩ else checkTags node tags

namespace PartialExample

def checkViolation (ex : PartialExample) (node : LatticeNode) : Option PartialViolation :=
  match checkNoBreak node.boundary node.endBoundary ex.noBreak with
  | some violation => some violation
  | none =>
      match checkBoundaries node.boundary node.endBoundary ex.boundaries with
      | some violation => some violation
      | none =>
          match ex.nodes.find? fun n => decide (n.boundary = node.boundary) with
          | none => some ⟨.None, 0⟩
          | some nodeCstrs =>
              if node.numCodepoints ≠ nodeCstrs.length then some ⟨.WordEnd, node.endBoundary⟩
              else checkTags node nodeCstrs.tags

end PartialExample

/-! ## Segments -/

/-- A line of an example: a stretch of the text, the places in it where no word may begin or end, and
the tags if it is to be a word. -/
structure Segment where
  surface : List UInt8
  length : Nat
  marks : List Nat
  tags : Option (List TagConstraint)
  marks_sorted : marks.Pairwise (· ≤ ·)
  marks_le : ∀ m ∈ marks, m ≤ length
  tagged : tags.isSome = true → 0 < length ∧ ∀ m, m ∈ marks ↔ 0 < m ∧ m < length

namespace Segment

def surfaceOf (segments : List Segment) : List UInt8 :=
  segments.flatMap Segment.surface

/-- The number of characters. -/
def width (segments : List Segment) : Nat :=
  (segments.map Segment.length).sum

/-- Where the segments end. -/
def ends (boundary : Nat) : List Segment → List Nat
  | [] => []
  | s :: segments => (boundary + s.length) :: ends (boundary + s.length) segments

def noBreaks (boundary : Nat) : List Segment → List Nat
  | [] => []
  | s :: segments => s.marks.map (boundary + ·) ++ noBreaks (boundary + s.length) segments

def constraint (boundary : Nat) (s : Segment) : Option NodeConstraint :=
  s.tags.map fun tags => ⟨boundary, s.length, s.surface, tags⟩

def constraints (boundary : Nat) : List Segment → List NodeConstraint
  | [] => []
  | s :: segments => (s.constraint boundary).toList ++ constraints (boundary + s.length) segments

end Segment

/-- The place where the text begins. -/
def firstBoundary : Nat := 2

/-- A node of a lattice that is built over the text of the segments. -/
structure LatticeNode.Over (node : LatticeNode) (segments : List Segment) : Prop where
  begins : firstBoundary ≤ node.boundary
  nonempty : 0 < node.numCodepoints
  ends : node.endBoundary ≤ firstBoundary + Segment.width segments

/-- What an annotation asks of a node. -/
structure Satisfies (segments : List Segment) (node : LatticeNode) : Prop where
  joint : ∀ before after, segments = before ++ after → before ≠ [] → after ≠ [] →
    ¬ (node.boundary < firstBoundary + Segment.width before ∧
      firstBoundary + Segment.width before < node.endBoundary)
  noBreak : ∀ before s after, segments = before ++ s :: after → ∀ m ∈ s.marks,
    node.boundary ≠ firstBoundary + Segment.width before + m ∧
      node.endBoundary ≠ firstBoundary + Segment.width before + m
  word : ∀ before s after, segments = before ++ s :: after → ∀ tags, s.tags = some tags →
    node.boundary < firstBoundary + Segment.width before + s.length →
    firstBoundary + Segment.width before < node.endBoundary →
    node.boundary = firstBoundary + Segment.width before ∧ node.numCodepoints = s.length ∧
      ∀ tag ∈ tags, node.dataAt tag.field = some tag.value

end Jumanpp.Core.Input
