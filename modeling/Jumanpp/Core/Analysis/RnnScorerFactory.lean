import Jumanpp.Util.Cfg
import Jumanpp.Util.Mmap
import Jumanpp.Core.Impl.ModelFormat

/-!
# The RNN part of a model

The factory of the RNN scorer is made from the files of a network, or it is loaded from the part of a
model that another factory has written.  A slice of floats is a pointer and a count: nothing says that
the memory behind the pointer has as many floats.
-/

namespace Jumanpp.Core.Analysis.Rnn

open Jumanpp.Util Jumanpp.Util.Serialization Jumanpp.Core.Model

/-- What ends a function without a result: a status, or something that no status is returned for. -/
inductive Stop
  | status (code : StatusCode) (message : String)
  | thrown (fault : Fault)
  | badAlloc
  | outOfBounds
  | misaligned

/-- `JPP_RIE_MSG`. -/
def rieMsg {α : Type} (msg : String) : Except Stop α → Except Stop α
  | .error (.status code message) => .error (.status code (msg ++ " <- " ++ message))
  | r => r

/-! ## Slices of memory -/

/-- A `StringPiece` with the place that it points to. -/
structure DataPiece where
  data : UInt64
  chars : List UInt8
  size_lt : chars.length < 2 ^ 63

namespace DataPiece

def size (p : DataPiece) : UInt64 := UInt64.ofNat p.chars.length

def take (p : DataPiece) (n : Nat) : DataPiece :=
  ⟨p.data, p.chars.take n, by
    have hlt := p.size_lt
    rw [List.length_take]
    omega⟩

end DataPiece

def isAligned (ptr align : UInt64) : Bool := ptr &&& (align - 1) == 0

/-- The next `count` floats; a float is its four bytes. -/
def readFloats : Nat → List UInt8 → Option (List UInt32)
  | 0, _ => some []
  | count + 1, bytes =>
      match readFixed32 bytes with
      | (none, _) => none
      | (some v, rest) => (readFloats count rest).map (v :: ·)

def floatsAt (count : Nat) (bytes : List UInt8) : Except Stop (List UInt32) :=
  match readFloats count bytes with
  | none => throw .outOfBounds
  | some floats => return floats

/-- `ArraySlice<float>`. -/
structure ArraySlice where
  memory : DataPiece
  size : UInt64

namespace ArraySlice

/-- The memory has the floats of the slice. -/
def Inside (s : ArraySlice) : Prop := 4 * s.size.toNat ≤ s.memory.chars.length

/-- What `allocateBuf<float>(count, 64)` returns. -/
structure Allocated (s : ArraySlice) (count : UInt64) : Prop where
  size : s.size = count
  length : s.memory.chars.length = 4 * s.size.toNat
  aligned : isAligned s.memory.data 64 = true

def floats (s : ArraySlice) : Option (List UInt32) := readFloats s.size.toNat s.memory.chars

/-- The bytes of a slice; a slice that its memory does not have can not be saved. -/
def asStringPiece (s : ArraySlice) : Except Stop DataPiece :=
  if 4 * s.size.toNat ≤ s.memory.chars.length then return s.memory.take (4 * s.size.toNat)
  else throw .outOfBounds

end ArraySlice

/-- `ConstSliceable<float>`. -/
structure ConstSliceable where
  data : ArraySlice
  rowSize : UInt64
  numRows : UInt64

/-- The slice starts inside of the memory or behind it. -/
def ConstSliceable.row (s : ConstSliceable) (i : UInt64) : ArraySlice :=
  let pos := s.rowSize * i
  ⟨⟨s.data.memory.data + 4 * pos, s.data.memory.chars.drop (4 * pos.toNat), by
    have hlt := s.data.memory.size_lt
    rw [List.length_drop]
    omega⟩, min (s.data.size - pos) s.rowSize⟩

/-! ## The network -/

/-- A float is its four bytes here too. -/
structure MikolovRnnModelHeader where
  layerSize : UInt32
  maxentOrder : UInt32
  maxentSize : UInt64
  vocabSize : UInt64
  nceLnz : UInt32

/-- After `open` and `parse`: the arrays have the sizes of the header. -/
structure MikolovModelReader where
  header : MikolovRnnModelHeader
  words : List (List UInt8)
  rnnMatrix : ArraySlice
  embeddings : ArraySlice
  nceEmbeddings : ArraySlice
  maxentWeights : ArraySlice
  vocabSize_eq : header.vocabSize = UInt64.ofNat words.length
  rnnMatrix_alloc : rnnMatrix.Allocated (header.layerSize.toUInt64 * header.layerSize.toUInt64)
  embeddings_alloc : embeddings.Allocated (header.layerSize.toUInt64 * header.vocabSize)
  nceEmbeddings_alloc : nceEmbeddings.Allocated (header.layerSize.toUInt64 * header.vocabSize)
  maxentWeights_alloc : maxentWeights.Allocated header.maxentSize

structure MikolovRnn where
  header : MikolovRnnModelHeader
  weights : ArraySlice
  maxentWeights : ArraySlice
  rnnNceConstant : UInt32

namespace MikolovRnn

def init (header : MikolovRnnModelHeader) (weights maxentW : ArraySlice) :
    Except Stop MikolovRnn :=
  if !isAligned weights.memory.data 64 then
    throw (.status .invalidState "weight matrix must be 64-aligned")
  else if !isAligned maxentW.memory.data 64 then
    throw (.status .invalidState "maxent weights must be 64-aligned")
  else return ⟨header, weights, maxentW, header.nceLnz⟩

def setNceConstant (rnn : MikolovRnn) (value : UInt32) : MikolovRnn :=
  { rnn with rnnNceConstant := value }

end MikolovRnn

/-! ## The index of the ids -/

/-- Whole units of four bytes. -/
structure DoubleArray where
  array : DataPiece
  whole : array.chars.length % 4 = 0

def DoubleArray.loadFromMemory (memory : DataPiece) : DoubleArray :=
  ⟨memory.take (memory.chars.length / 4 * 4), by
    show (memory.chars.take _).length % 4 = 0
    rw [List.length_take]
    omega⟩

def DoubleArray.contents (array : DoubleArray) : DataPiece := array.array

/-- The part of the resolver that is saved. -/
structure RnnIdResolverState where
  fields_ : StdList UInt32
  knownIndex_ : DoubleArray
  unkIndex_ : DoubleArray
  unkId_ : Int32

/-- `fields_` is empty before. -/
def RnnIdResolverState.setState (fields : StdList UInt32) (known unknown : DataPiece)
    (unkid : Int32) : RnnIdResolverState :=
  ⟨fields, .loadFromMemory known, .loadFromMemory unknown, unkid⟩

/-! ## The header of the part -/

structure RnnInferenceConfig where
  nceBias : Cfg UInt32
  unkConstantTerm : Cfg UInt32
  unkLengthPenalty : Cfg UInt32
  perceptronWeight : Cfg UInt32
  rnnWeight : Cfg UInt32
  eosSymbol : Cfg StdString
  unkSymbol : Cfg StdString
  rnnFields : Cfg (StdList StdString)
  fieldSeparator : Cfg StdString

namespace RnnInferenceConfig

/-- The floats are -9, -6, -1.5, 1 and 1, the strings `</s>`, `<unk>` and `_`. -/
def initial : RnnInferenceConfig where
  nceBias := .ofDefault 0xc1100000
  unkConstantTerm := .ofDefault 0xc0c00000
  unkLengthPenalty := .ofDefault 0xbfc00000
  perceptronWeight := .ofDefault 0x3f800000
  rnnWeight := .ofDefault 0x3f800000
  eosSymbol := .ofDefault ⟨[0x3c, 0x2f, 0x73, 0x3e], by decide⟩
  unkSymbol := .ofDefault ⟨[0x3c, 0x75, 0x6e, 0x6b, 0x3e], by decide⟩
  rnnFields := .ofDefault .empty
  fieldSeparator := .ofDefault ⟨[0x5f], by decide⟩

def mergeWith (config o : RnnInferenceConfig) : RnnInferenceConfig where
  nceBias := config.nceBias.mergeWith o.nceBias
  unkConstantTerm := config.unkConstantTerm.mergeWith o.unkConstantTerm
  unkLengthPenalty := config.unkLengthPenalty.mergeWith o.unkLengthPenalty
  perceptronWeight := config.perceptronWeight.mergeWith o.perceptronWeight
  rnnWeight := config.rnnWeight.mergeWith o.rnnWeight
  eosSymbol := config.eosSymbol.mergeWith o.eosSymbol
  unkSymbol := config.unkSymbol.mergeWith o.unkSymbol
  rnnFields := config.rnnFields.mergeWith o.rnnFields
  fieldSeparator := config.fieldSeparator.mergeWith o.fieldSeparator

end RnnInferenceConfig

structure RnnModelHeader where
  config : RnnInferenceConfig
  unkIdx : Int32
  fields : StdList UInt32
  rnnHeader : MikolovRnnModelHeader

namespace RnnModelHeader

abbrev members : Members :=
  [.cfg (.scalar .float), .cfg (.scalar .float), .cfg (.scalar .float), .cfg (.scalar .float),
    .cfg (.scalar .float), .cfg (.scalar .string), .cfg (.scalar .string),
    .cfg (.vector (.scalar .string)), .cfg (.scalar .string), .plain (.scalar .i32),
    .plain (.vector (.scalar .u32)), .plain (.scalar .u32), .plain (.scalar .u32),
    .plain (.scalar .u64), .plain (.scalar .u64), .plain (.scalar .float)]

/-- `Serialize`. -/
def toValue (o : RnnModelHeader) : members.Value :=
  (o.config.nceBias, o.config.unkConstantTerm, o.config.unkLengthPenalty,
    o.config.perceptronWeight, o.config.rnnWeight, o.config.eosSymbol, o.config.unkSymbol,
    o.config.rnnFields, o.config.fieldSeparator, o.unkIdx, o.fields, o.rnnHeader.layerSize,
    o.rnnHeader.maxentOrder, o.rnnHeader.maxentSize, o.rnnHeader.vocabSize, o.rnnHeader.nceLnz, ())

def ofValue : members.Value → RnnModelHeader :=
  fun (nceBias, unkConstantTerm, unkLengthPenalty, perceptronWeight, rnnWeight, eosSymbol,
      unkSymbol, rnnFields, fieldSeparator, unkIdx, fields, layerSize, maxentOrder, maxentSize,
      vocabSize, nceLnz, ()) =>
    ⟨⟨nceBias, unkConstantTerm, unkLengthPenalty, perceptronWeight, rnnWeight, eosSymbol,
      unkSymbol, rnnFields, fieldSeparator⟩, unkIdx, fields,
      ⟨layerSize, maxentOrder, maxentSize, vocabSize, nceLnz⟩⟩

/-- `RnnModelHeader header{state_->config, {}, {}, {}}` of a new factory. -/
def initial : RnnModelHeader := ⟨.initial, 0, .empty, ⟨0, 0, 0, 0, 0⟩⟩

def save (o : RnnModelHeader) : List UInt8 := members.serializeSave o.toValue

def load (limits : VectorLimits) (data : DataPiece) : Except Stop RnnModelHeader :=
  match members.load limits initial.toValue data.chars with
  | .error fault => throw (.thrown fault)
  | .ok (false, _) => throw (.status .invalidParameter "failed to read RNN header")
  | .ok (true, v) => return ofValue v

end RnnModelHeader

/-! ## The factory -/

structure GbeamRnnFactoryState where
  resolver : RnnIdResolverState
  rnn : MikolovRnn
  embeddings : ConstSliceable
  nceEmbeddings : ConstSliceable
  config : RnnInferenceConfig
  codedBuf_ : List UInt8
  bosState : List UInt32

namespace RnnScorerGbeamFactory

/-- The configuration of the factory and its network are changed. -/
def setConfig (config : RnnInferenceConfig) (state : RnnInferenceConfig × MikolovRnn) :
    RnnInferenceConfig × MikolovRnn :=
  let merged := state.1.mergeWith config
  if !merged.nceBias.isDefault then (merged, state.2.setNceConstant merged.nceBias.value)
  else (merged, state.2)

section

-- The numbers: the new context from the matrix, the old context and an embedding.
variable (newContext : List UInt32 → List UInt32 → List UInt32 → List UInt32)

/-- Both rows come from pages of 64 kilobytes. -/
def computeBosState (rnn : MikolovRnn) (embeddings : ConstSliceable) (bosId : UInt64) :
    Except Stop (List UInt32) := do
  let esize := rnn.header.layerSize.toNat
  if 64 * 1024 < 4 * esize then throw .badAlloc
  let zeros := List.replicate esize 0
  let embed := embeddings.row bosId
  if !isAligned embed.memory.data 64 then throw .misaligned
  let nnWeight ← floatsAt (esize * esize) rnn.weights.memory.chars
  let myEmb ← floatsAt esize embed.memory.chars
  return newContext nnWeight zeros myEmb

/-- `build` is the function of the resolver, with the dictionary. -/
def make (build : RnnInferenceConfig → List (List UInt8) → Except Stop RnnIdResolverState)
    (rnnReader : MikolovModelReader) (config : RnnInferenceConfig) :
    Except Stop GbeamRnnFactoryState := do
  let h := rnnReader.header
  let rnn ← MikolovRnn.init h rnnReader.rnnMatrix rnnReader.maxentWeights
  let (config, rnn) := setConfig config (.initial, rnn)
  let resolver ← build config rnnReader.words
  let embeddings : ConstSliceable := ⟨rnnReader.embeddings, h.layerSize.toUInt64, h.vocabSize⟩
  let nceEmbeddings : ConstSliceable :=
    ⟨rnnReader.nceEmbeddings, h.layerSize.toUInt64, h.vocabSize⟩
  if 64 * 1024 < h.layerSize then
    throw (.status .notImplemented "we don't support embed sizes > 64k")
  let bosState ← computeBosState newContext rnn embeddings 0
  return ⟨resolver, rnn, embeddings, nceEmbeddings, config, [], bosState⟩

end

/-- Where the buffer is does not matter. -/
def codedPiece (contents : List UInt8) : Except Stop DataPiece :=
  if h : contents.length < 2 ^ 63 then return ⟨0, contents, h⟩ else throw .badAlloc

def emplaceBack (info : ModelInfo DataPiece) (part : ModelPart DataPiece) :
    Except Stop (ModelInfo DataPiece) :=
  if h : info.parts.elems.length + 1 < 2 ^ 64 then return ⟨info.parts.emplaceBack part h⟩
  else throw (.thrown .lengthError)

/-- The buffer is not emptied before. -/
def makeInfo (state_ : Option GbeamRnnFactoryState) (info : ModelInfo DataPiece)
    (comment : StdString) : Except Stop (ModelInfo DataPiece × GbeamRnnFactoryState) :=
  match state_ with
  | none => throw (.status .invalidState "RnnScorerGbeamFactory was not initialized")
  | some state_ => do
      let header : RnnModelHeader :=
        ⟨state_.config, state_.resolver.unkId_, state_.resolver.fields_, state_.rnn.header⟩
      let codedBuf_ := state_.codedBuf_ ++ header.save
      let coded ← codedPiece codedBuf_
      let rnnMatrix ← state_.rnn.weights.asStringPiece
      let embeddingData ← state_.embeddings.data.asStringPiece
      let nceEmbedData ← state_.nceEmbeddings.data.asStringPiece
      let maxentWeightData ← state_.rnn.maxentWeights.asStringPiece
      let info ← emplaceBack info ⟨.of .Rnn, comment,
        ⟨[coded, state_.resolver.knownIndex_.contents, state_.resolver.unkIndex_.contents,
          rnnMatrix, embeddingData, nceEmbedData, maxentWeightData], by simp⟩⟩
      return (info, { state_ with codedBuf_ })

/-! ## Loading -/

def needMessage (size need : UInt64) : String :=
  s!"failed to create ConstSliceable from memory buffer of {size} need at least {need}"

def arr2d (data : DataPiece) (nrows ncols : UInt64) : Except Stop ConstSliceable :=
  if nrows * ncols * 4 < data.size then
    throw (.status .invalidParameter (needMessage data.size (nrows * ncols * 4)))
  else return ⟨⟨data, nrows * ncols⟩, ncols, nrows⟩

def arr1d (data : DataPiece) (expected : UInt64) : Except Stop ArraySlice :=
  if expected * 4 < data.size then
    throw (.status .invalidParameter (needMessage data.size (expected * 4)))
  else return ⟨data, expected⟩

def rnnPart (model : ModelInfo DataPiece) : Except Stop (ModelPart DataPiece) :=
  match model.firstPartOf .Rnn with
  | none => throw (.status .invalidParameter "model file did not contain RNN")
  | some p => return p

/-- `p->data[i]`. -/
def dataAt (p : ModelPart DataPiece) (i : Nat) : Except Stop DataPiece :=
  match p.data.elems[i]? with
  | none => throw .outOfBounds
  | some data => return data

def load (newContext : List UInt32 → List UInt32 → List UInt32 → List UInt32)
    (limits : VectorLimits) (model : ModelInfo DataPiece) : Except Stop GbeamRnnFactoryState := do
  let p ← rnnPart model
  let coded ← dataAt p 0
  let header ← RnnModelHeader.load limits coded
  let known ← dataAt p 1
  let unknown ← dataAt p 2
  let resolver := RnnIdResolverState.setState header.fields known unknown header.unkIdx
  let rnnhdr := header.rnnHeader
  let data3 ← dataAt p 3
  -- The matrix of the network has `layerSize` rows.
  let rnnMatrix ← rieMsg "failed to read matrix"
    (arr1d data3 (rnnhdr.layerSize.toUInt64 * rnnhdr.vocabSize))
  let data4 ← dataAt p 4
  let embeddings ← rieMsg "failed to read embeddings"
    (arr2d data4 rnnhdr.vocabSize rnnhdr.layerSize.toUInt64)
  let data5 ← dataAt p 5
  let nceEmbeddings ← rieMsg "failed to read NCE embeddings"
    (arr2d data5 rnnhdr.vocabSize rnnhdr.layerSize.toUInt64)
  let data6 ← dataAt p 6
  let maxentWeights ← rieMsg "failed to read NCE embeddings" (arr1d data6 rnnhdr.maxentSize)
  let rnn ← MikolovRnn.init rnnhdr rnnMatrix maxentWeights
  let bosState ← computeBosState newContext rnn embeddings 0
  -- The constant is taken from the weight of the network, not from its bias.
  let rnn :=
    if header.config.rnnWeight.defined then rnn.setNceConstant header.config.rnnWeight.value
    else rnn
  return ⟨resolver, rnn, embeddings, nceEmbeddings, header.config, [], bosState⟩

end RnnScorerGbeamFactory

end Jumanpp.Core.Analysis.Rnn
