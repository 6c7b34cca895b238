import Jumanpp.Core.Impl.ModelFormat
import Jumanpp.Util.Mmap

/-!
# Model files

The first page of a model file holds a magic, the size of the header and the header; the data slices
follow, each on a page of its own.
-/

namespace Jumanpp.Core.Model

open Jumanpp.Util Jumanpp.Util.Serialization

/-- `sizeof` counts the zero byte at the end, a `StringPiece` of it does not. -/
def ModelMagic : List UInt8 := [0x6a, 0x70, 0x32, 0x4d, 0x64, 0x6c, 0x21, 0x00]

/-! ## Saving -/

/-- A file that is open for writing, with the size that it had when it was opened. -/
structure OpenFile where
  size_ : Nat
  file : File
  size_le : size_ ≤ file.size

namespace ModelSaver

section

variable (pageSize size_ : Nat)

def saveBuf (buf : StringPiece) (offset : Nat) (f : File) :
    Except StatusCode (BlockPtr × Nat × File) := do
  let f ← MappedFile.map pageSize .ReadWrite size_ offset buf.size false f
  let f := f.memcpy offset buf.chars
  return (⟨UInt64.ofNat offset, UInt64.ofNat buf.size⟩, Align (offset + buf.size) 4096, f)

def saveBufs : (bufs : List StringPiece) → Nat → File →
    Except StatusCode ({ l : List BlockPtr // l.length = bufs.length } × Nat × File)
  | [], offset, f => return (⟨[], rfl⟩, offset, f)
  | buf :: bufs, offset, f => do
      let (block, offset, f) ← saveBuf pageSize size_ buf offset f
      let (⟨blocks, h⟩, offset, f) ← saveBufs bufs offset f
      return (⟨block :: blocks, by simp [h]⟩, offset, f)

def saveParts : (parts : List (ModelPart StringPiece)) → Nat → File →
    Except StatusCode ({ l : List ModelPartRaw // l.length = parts.length } × Nat × File)
  | [], offset, f => return (⟨[], rfl⟩, offset, f)
  | part :: parts, start, f => do
      let (⟨data, h⟩, offset, f) ← saveBufs pageSize size_ part.data.elems start f
      let rawPart : ModelPartRaw :=
        { kind := part.kind
          comment := part.comment
          data := ⟨data, h ▸ part.data.size_lt⟩
          start := UInt64.ofNat start
          «end» := UInt64.ofNat offset }
      let (⟨rawParts, h⟩, offset, f) ← saveParts parts offset f
      return (⟨rawPart :: rawParts, by simp [h]⟩, offset, f)

end

/-- The first page: at most 4080 bytes of header. -/
def writeHeader (f : File) (p1 : List UInt8) : File :=
  let cb := writeVarint (UInt64.ofNat p1.length)
  ((f.memcpy 0 ModelMagic).memcpy ModelMagic.length cb).memcpy (ModelMagic.length + cb.length) p1

/-- The file after `save`. -/
def save (pageSize : Nat) (file_ : Option OpenFile) (info : ModelInfo StringPiece) :
    Except StatusCode File :=
  match file_ with
  | none => throw .invalidState
  | some file_ => do
      let (⟨parts, h⟩, _, f) ←
        saveParts pageSize file_.size_ info.parts.elems 4096 file_.file
      let p1 := Serialization.save (ModelInfoRaw.mk ⟨parts, h ▸ info.parts.size_lt⟩)
      if 4080 < p1.length then throw .notImplemented
      let f ← MappedFile.map pageSize .ReadWrite file_.size_ 0 4096 false f
      return writeHeader f p1

end ModelSaver

/-! ## Opening and loading -/

/-- Both ends from the start of the memory, where `StringPiece::slice` puts them in a memory of
`size` bytes. -/
structure Slice where
  first : Int
  last : Int
deriving DecidableEq

def slice (size : Nat) (from_ to_ : Int) : Slice :=
  ⟨min from_ size, min to_ size⟩

/-- A slice that ends before it starts has no bytes for a parser. -/
def Slice.of (s : Slice) (memory : List UInt8) : List UInt8 :=
  (memory.drop s.first.toNat).take (s.last - s.first).toNat

inductive OpenFailure
  | status (code : StatusCode)
  | thrown (fault : Fault)
deriving DecidableEq

/-- What stays after `open`: the whole file in memory and its header. -/
structure ModelFile where
  fragment : File
  rawModel : ModelInfoRaw

namespace FilesystemModel

/-- `file` is what the name stands for. -/
def «open» (limits : VectorLimits) (pageSize : Nat) (file_ : Option ModelFile)
    (file : Option File) : Except OpenFailure ModelFile :=
  match file_, file with
  | some _, _ => throw (.status .invalidState)
  | none, none => throw (.status .invalidState)
  | none, some f => do
      match MappedFile.map pageSize .ReadOnly f.size 0 f.size true f with
      | .error code => throw (.status code)
      | .ok _ => pure ()
      let sp := f.contents
      let magicSp := ModelMagic.take 7
      if sp.take magicSp.length ≠ magicSp then throw (.status .invalidState)
      let rest := (slice sp.length ModelMagic.length (4096 - ModelMagic.length : Nat)).of sp
      match readVarint64 rest with
      | (none, _) => throw (.status .invalidState)
      | (some hdrSize, after) =>
          let numReadBytes := rest.length - after.length
          let header := (slice rest.length numReadBytes
            (UInt64.ofNat numReadBytes + hdrSize).toInt64.toInt).of rest
          match Serialization.load limits header with
          | .error fault => throw (.thrown fault)
          | .ok none => throw (.status .invalidState)
          | .ok (some rawModel) => return ⟨f, rawModel⟩

def loadSlice (f : File) (raw : BlockPtr) : Slice :=
  slice f.size raw.offset.toInt64.toInt (raw.offset + raw.size).toInt64.toInt

def loadPart (f : File) (p : ModelPartRaw) : ModelPart Slice :=
  ⟨p.kind, p.comment, p.data.map (loadSlice f)⟩

/-- The parts that are added to a model. -/
def load (file_ : Option ModelFile) : Except StatusCode (ModelInfo Slice) :=
  match file_ with
  | none => throw .invalidState
  | some file_ => return ⟨file_.rawModel.parts.map (loadPart file_.fragment)⟩

end FilesystemModel

end Jumanpp.Core.Model
