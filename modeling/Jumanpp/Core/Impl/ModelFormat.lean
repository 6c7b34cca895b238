import Jumanpp.Util.Serialization

/-!
# The parts of a model

A model is a list of parts, each with slices of data.  The header of a model file has the same parts
with the places of the slices in the file.
-/

namespace Jumanpp.Core.Model

open Jumanpp.Util Jumanpp.Util.Serialization

/-- Pointers into one piece of memory: their difference is a `ptrdiff_t`. -/
structure StringPiece where
  chars : List UInt8
  size_lt : chars.length < 2 ^ 63

def StringPiece.size (s : StringPiece) : Nat := s.chars.length

inductive ModelPartKindName
  | Dictionary
  | Perceprton
  | Rnn
  | ScwDump

instance : EnumNames ModelPartKindName where
  value
    | .Dictionary => 0
    | .Perceprton => 1
    | .Rnn => 2
    | .ScwDump => 3

abbrev ModelPartKind := EnumClass ModelPartKindName

/-- The slices are in memory when a model is saved, and in the file after it was loaded. -/
structure ModelPart (σ : Type) where
  kind : ModelPartKind
  comment : StdString
  data : StdList σ

structure ModelInfo (σ : Type) where
  parts : StdList (ModelPart σ)

def ModelInfo.firstPartOf {σ : Type} (info : ModelInfo σ) (kind : ModelPartKindName) :
    Option (ModelPart σ) :=
  info.parts.elems.find? fun p => p.kind.value == EnumNames.value kind

structure BlockPtr where
  offset : UInt64
  size : UInt64
deriving DecidableEq

structure ModelPartRaw where
  kind : ModelPartKind
  comment : StdString
  data : StdList BlockPtr
  start : UInt64
  «end» : UInt64

structure ModelInfoRaw where
  parts : StdList ModelPartRaw

/-! ## `Serialize` -/

open Serializable

instance : Serializable BlockPtr where
  type := .struct (.field (type UInt64) (.field (type UInt64) .done))
  toValue o := (o.offset, o.size, ())
  ofValue := fun (offset, size, ()) => ⟨offset, size⟩

instance : Serializable ModelPartRaw where
  type := .struct (.field (type ModelPartKind) (.field (type StdString)
    (.field (type (StdList BlockPtr)) (.field (type UInt64) (.field (type UInt64) .done)))))
  toValue o := (toValue o.kind, toValue o.comment, toValue o.data, toValue o.start,
    toValue o.end, ())
  ofValue := fun (kind, comment, data, start, end_, ()) =>
    ⟨ofValue kind, ofValue comment, ofValue data, ofValue start, ofValue end_⟩

instance : Serializable ModelInfoRaw where
  type := .struct (.field (type (StdList ModelPartRaw)) .done)
  toValue o := (toValue o.parts, ())
  ofValue := fun (parts, ()) => ⟨ofValue parts⟩

end Jumanpp.Core.Model
