import Jumanpp.Core.Analysis.RnnScorerRoundTrip
import Jumanpp.Lib.LittleEndian

/-!
# The reader of RNN models

A model is a header of packed fields and four arrays of floats behind it.  The header is checked for
its version, for training with NCE and for the activation; the other fields are taken as they are.
-/

namespace Jumanpp.Rnn.Mikolov

open Jumanpp.Util Jumanpp.Lib Jumanpp.Core.Analysis.Rnn

def LayerNameMaxSize : Nat := 64

def VersionStepSize : UInt64 := 10000

/-- The bytes of the next field; the size of the data is not asked. -/
def toMember (size : Nat) (data : List UInt8) (offset : Nat) :
    Except Core.Analysis.Rnn.Stop (List UInt8 × Nat) :=
  if offset + size ≤ data.length then return ((data.drop offset).take size, offset + size)
  else throw .outOfBounds

def sigmoid : List UInt8 := [0x73, 0x69, 0x67, 0x6d, 0x6f, 0x69, 0x64]

/-- `StringPiece::fromCString`. -/
def fromCString (chars : List UInt8) : List UInt8 :=
  chars.takeWhile fun c => c != 0

/-- The size of the vocabulary is not in the header. -/
def readHeader (data : List UInt8) :
    Except Core.Analysis.Rnn.Stop (MikolovRnnModelHeader × Nat) := do
  let (sizeVersion, off) ← toMember 8 data 0
  let (maxEntTableSize, off) ← toMember 8 data off
  let (maxentOrder, off) ← toMember 4 data off
  let (useNce, off) ← toMember 1 data off
  let (nceLnz, off) ← toMember 4 data off
  let (_, off) ← toMember 1 data off
  let (layerType, off) ← toMember LayerNameMaxSize data off
  let (_, off) ← toMember 4 data off
  let (_, off) ← toMember 4 data off
  let sv := LittleEndian.word sizeVersion
  let vers := sv / VersionStepSize
  if vers ≠ 6 then
    throw (.status .invalidParameter
      ("invalid rnn model version " ++ toString vers ++ " can handle only 6"))
  else if useNce = [0] then
    throw (.status .invalidParameter "model was trained without nce, we support only nce models")
  else if fromCString layerType ≠ sigmoid then
    throw (.status .invalidParameter "only sigmoid activation is supported")
  else
    return ({ layerSize := (sv % VersionStepSize).toUInt32
              maxentOrder := (LittleEndian.word maxentOrder).toUInt32
              maxentSize := LittleEndian.word maxEntTableSize
              vocabSize := 0
              nceLnz := (LittleEndian.word nceLnz).toUInt32 }, off)

structure MikolovModelReaderData where
  header : MikolovRnnModelHeader
  embeddingData : List UInt32
  nceEmbeddingData : List UInt32
  matrixData : List UInt32
  maxentWeightData : List UInt32

/-- No buffer has more bytes than a pointer difference can count. -/
def allocateBuf (count : UInt64) : Except Core.Analysis.Rnn.Stop Unit :=
  if 2 ^ 61 ≤ count.toNat then throw .badAlloc else return ()

def copyArray (data : List UInt8) (size : UInt64) (offset : UInt64) :
    Except Core.Analysis.Rnn.Stop (List UInt32 × UInt64) :=
  let fullSize := size * 4
  if UInt64.ofNat data.length < offset + fullSize then
    throw (.status .invalidParameter ("can't copy rnn weight data, from offset=" ++
      toString offset ++ " want to read " ++ toString fullSize))
  else do
    let result ← floatsAt size.toNat (data.drop offset.toNat)
    return (result, offset + fullSize)

/-- The words are the first fields of the lines of the dictionary file. -/
def parse (contents : List UInt8) (words : List (List UInt8)) :
    Except Core.Analysis.Rnn.Stop MikolovModelReaderData := do
  let (header, start) ← readHeader contents
  let hdr := { header with vocabSize := UInt64.ofNat words.length }
  let embedding_matrix_size := hdr.layerSize.toUInt64 * hdr.vocabSize
  let transition_matrix_size := hdr.layerSize.toUInt64 * hdr.layerSize.toUInt64
  allocateBuf embedding_matrix_size
  allocateBuf embedding_matrix_size
  allocateBuf transition_matrix_size
  allocateBuf hdr.maxentSize
  let start := UInt64.ofNat start
  let (embeddingData, start) ← rieMsg "embeds" (copyArray contents embedding_matrix_size start)
  let (nceEmbeddingData, start) ←
    rieMsg "nce embeds" (copyArray contents embedding_matrix_size start)
  let (matrixData, start) ← rieMsg "matrix" (copyArray contents transition_matrix_size start)
  let (maxentWeightData, start) ←
    rieMsg "maxent weights" (copyArray contents hdr.maxentSize start)
  if start ≠ UInt64.ofNat contents.length then
    throw (.status .invalidState "did not read rnn model file fully")
  else return ⟨hdr, embeddingData, nceEmbeddingData, matrixData, maxentWeightData⟩

/-! ## What an accepted model has -/

theorem length_readFloats {count : Nat} {bytes : List UInt8} {floats : List UInt32}
    (h : readFloats count bytes = some floats) : floats.length = count := by
  induction count generalizing bytes floats with
  | zero =>
      rw [readFloats] at h
      cases h
      rfl
  | succ count ih =>
      rw [readFloats] at h
      split at h
      · cases h
      · obtain ⟨rest, hrest, rfl⟩ := Option.map_eq_some_iff.mp h
        rw [List.length_cons, ih hrest]

theorem length_copyArray {data : List UInt8} {size offset off : UInt64} {result : List UInt32}
    (h : copyArray data size offset = .ok (result, off)) : result.length = size.toNat := by
  unfold copyArray at h
  dsimp only at h
  split at h
  · cases h
  · obtain ⟨floats, hfloats, h⟩ := bind_ok_iff.mp h
    cases h
    unfold floatsAt at hfloats
    split at hfloats
    · cases hfloats
    · next hread =>
        cases hfloats
        exact length_readFloats hread

/-- The direct weights are as many as the header says, and the words are counted. -/
theorem parse_sizes {contents : List UInt8} {words : List (List UInt8)}
    {data : MikolovModelReaderData} (h : parse contents words = .ok data) :
    data.maxentWeightData.length = data.header.maxentSize.toNat ∧
      data.header.vocabSize = UInt64.ofNat words.length := by
  unfold parse at h
  obtain ⟨⟨header, start⟩, -, h⟩ := bind_ok_iff.mp h
  dsimp only at h
  obtain ⟨-, -, h⟩ := bind_ok_iff.mp h
  obtain ⟨-, -, h⟩ := bind_ok_iff.mp h
  obtain ⟨-, -, h⟩ := bind_ok_iff.mp h
  obtain ⟨-, -, h⟩ := bind_ok_iff.mp h
  obtain ⟨⟨embeddingData, off₁⟩, -, h⟩ := bind_ok_iff.mp h
  obtain ⟨⟨nceEmbeddingData, off₂⟩, -, h⟩ := bind_ok_iff.mp h
  obtain ⟨⟨matrixData, off₃⟩, -, h⟩ := bind_ok_iff.mp h
  obtain ⟨⟨maxentWeightData, off₄⟩, hweights, h⟩ := bind_ok_iff.mp h
  dsimp only at h
  split at h
  · cases h
  · cases h
    exact ⟨length_copyArray (rieMsg_ok_iff.mp hweights), rfl⟩

end Jumanpp.Rnn.Mikolov
