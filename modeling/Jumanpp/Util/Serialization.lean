import Jumanpp.Util.CodedIo

/-!
# Serialization

A value is written field after field, in the order in which its `Serialize` function names them.
The loader keeps one flag: every `a & field` replaces it by the outcome of reading that field, and a
struct is not read at all while the flag is down.
-/

namespace Jumanpp.Util.Serialization

open Jumanpp.Util

/-- The types with an encoding of their own. -/
inductive Scalar
  | i32
  | u32
  | u64
  | i64
  | bool
  | float
  | string
deriving DecidableEq

namespace Scalar

/-- A float is its four bytes. -/
abbrev Value : Scalar → Type
  | .i32 => Int32
  | .u32 => UInt32
  | .u64 => UInt64
  | .i64 => Int64
  | .bool => Bool
  | .float => UInt32
  | .string => StdString

def initial : (s : Scalar) → s.Value
  | .i32 => (0 : Int32)
  | .u32 => (0 : UInt32)
  | .u64 => (0 : UInt64)
  | .i64 => (0 : Int64)
  | .bool => false
  | .float => (0 : UInt32)
  | .string => StdList.empty

def saveI32 (o : Int32) : List UInt8 := writeVarint o.toUInt32.toUInt64

def save : (s : Scalar) → s.Value → List UInt8
  | .i32, o => saveI32 o
  | .u32, o => writeVarint (UInt32.toUInt64 o)
  | .u64, o => writeVarint o
  | .i64, o => writeVarint (Int64.toUInt64 o)
  | .bool, o => saveI32 (bif o then 1 else 0)
  | .float, o => writeFixed32 o
  | .string, o => writeString o

def mapValue {α β : Type} (f : α → Option β) :
    Option α × List UInt8 → Option β × List UInt8
  | (v, rest) => (v.bind f, rest)

def readI32 (rest : List UInt8) : Option Int32 × List UInt8 :=
  mapValue (fun v => some v.toUInt32.toInt32) (readVarint64 rest)

/-- The value that is read, or none when the field is refused. -/
def read : (s : Scalar) → List UInt8 → Option s.Value × List UInt8
  | .i32, rest => readI32 rest
  | .u32, rest => mapValue (fun v => some v.toUInt32) (readVarint64 rest)
  | .u64, rest => readVarint64 rest
  | .i64, rest => mapValue (fun v => some v.toInt64) (readVarint64 rest)
  | .bool, rest => mapValue (fun res => if res = -1 then none else some (res == 1)) (readI32 rest)
  | .float, rest => readFixed32 rest
  | .string, rest => readStringPiece rest

end Scalar

mutual

/-- A type that a `SerializeImpl` exists for; an enum class is a struct of one number. -/
inductive SerialType
  | scalar (s : Scalar)
  | vector (t : SerialType)
  | struct (fields : SerialFields)

/-- The fields that a `Serialize` function names, in its order. -/
inductive SerialFields
  | done
  | field (t : SerialType) (fields : SerialFields)

end

mutual

abbrev SerialType.Value : SerialType → Type
  | .scalar s => s.Value
  | .vector t => StdList t.Value
  | .struct fields => fields.Value

abbrev SerialFields.Value : SerialFields → Type
  | .done => Unit
  | .field t fields => t.Value × fields.Value

end

mutual

def SerialType.initial : (t : SerialType) → t.Value
  | .scalar s => s.initial
  | .vector _ => StdList.empty
  | .struct fields => fields.initial

def SerialFields.initial : (fields : SerialFields) → fields.Value
  | .done => ()
  | .field t fields => (t.initial, fields.initial)

end

/-! ## Saving -/

mutual

def SerialType.doSerializeSave : (t : SerialType) → t.Value → List UInt8
  | .scalar s, o => s.save o
  | .vector t, o => writeVarint o.size ++ o.elems.flatMap t.doSerializeSave
  | .struct fields, o => fields.serializeSave o

def SerialFields.serializeSave : (fields : SerialFields) → fields.Value → List UInt8
  | .done, _ => []
  | .field t fields, (o, os) => t.doSerializeSave o ++ fields.serializeSave os

end

/-! ## Loading -/

/-- What ends a load without an answer. -/
inductive Fault
  | lengthError
  | counterOverflow
deriving DecidableEq

/-- How many elements a `std::vector` of each type can hold. -/
structure VectorLimits where
  maxSize : SerialType → Nat
  enough : ∀ t n, n < 2 ^ 31 → n ≤ maxSize t

/-- A `ptrdiff_t` counts the elements. -/
def VectorLimits.ofPtrdiff : VectorLimits := ⟨fun _ => 2 ^ 63 - 1, fun _ n h => by omega⟩

structure Loader where
  status : Bool
  rest : List UInt8

def Scalar.load (s : Scalar) (o : s.Value) (l : Loader) : Bool × s.Value × Loader :=
  match s.read l.rest with
  | (some v, rest) => (true, v, { l with rest })
  | (none, rest) => (false, o, { l with rest })

/-- From the element `i` on; the counter is an `int`. -/
def loadElements {α : Type} (loadChild : Loader → Except Fault (Bool × α × Loader)) :
    Nat → Nat → StdList α → Loader → Except Fault (Bool × StdList α × Loader)
  | 0, _, o, l => .ok (true, o, l)
  | left + 1, i, o, l =>
      if h : o.elems.length + 1 < 2 ^ 64 then do
        let (ok, child, l) ← loadChild l
        let o := o.emplaceBack child h
        if !ok then return (false, o, l)
        if 2 ^ 31 ≤ i + 1 then throw .counterOverflow
        loadElements loadChild left (i + 1) o l
      else throw .lengthError

section

variable (limits : VectorLimits)

mutual

def SerialType.doSerializeLoad :
    (t : SerialType) → t.Value → Loader → Except Fault (Bool × t.Value × Loader)
  | .scalar s, o, l => .ok (s.load o l)
  | .vector t, o, l =>
      match readVarint64 l.rest with
      | (none, rest) => .ok (false, o, { l with rest })
      | (some sz, rest) =>
          if limits.maxSize t < sz.toNat then .error .lengthError
          else loadElements (t.doSerializeLoad t.initial) sz.toNat 0 o { l with rest }
  | .struct fields, o, l =>
      if !l.status then .ok (false, o, l)
      else do
        let (o, l) ← fields.serializeLoad o l
        return (l.status, o, l)

/-- Each `a & field` replaces the flag. -/
def SerialFields.serializeLoad :
    (fields : SerialFields) → fields.Value → Loader → Except Fault (fields.Value × Loader)
  | .done, o, l => .ok (o, l)
  | .field t fields, (o, os), l => do
      let (ok, o, l) ← t.doSerializeLoad o l
      let (os, l) ← fields.serializeLoad os { l with status := ok }
      return ((o, os), l)

end

/-- `Loader{data}.load(&o)`. -/
def Loader.load (t : SerialType) (o : t.Value) (data : List UInt8) :
    Except Fault (Bool × t.Value) :=
  if data = [] then .ok (false, o)
  else do
    let (ret, o, l) ← t.doSerializeLoad limits o ⟨true, data⟩
    return (ret && l.status && l.rest.isEmpty, o)

end

/-! ## Types of the program -/

/-- A type that has a `Serialize` function.  `ofValue` is a new object with the members that were
loaded. -/
class Serializable (α : Type) where
  type : SerialType
  toValue : α → type.Value
  ofValue : type.Value → α

open Serializable

section

variable {α : Type} [Serializable α]

/-- `Saver::save`. -/
def save (o : α) : List UInt8 := (type α).doSerializeSave (toValue o)

/-- A load into a new object. -/
def load (limits : VectorLimits) (data : List UInt8) : Except Fault (Option α) := do
  let (ok, v) ← Loader.load limits (type α) (type α).initial data
  return if ok then some (ofValue v) else none

instance : Serializable (StdList α) where
  type := .vector (type α)
  toValue l := l.map toValue
  ofValue l := l.map ofValue

end

instance : Serializable Int32 := ⟨.scalar .i32, id, id⟩
instance : Serializable UInt32 := ⟨.scalar .u32, id, id⟩
instance : Serializable UInt64 := ⟨.scalar .u64, id, id⟩
instance : Serializable Bool := ⟨.scalar .bool, id, id⟩
instance : Serializable StdString := ⟨.scalar .string, id, id⟩

/-- A float is its four bytes. -/
structure FloatBits where
  bits : UInt32
deriving DecidableEq

instance : Serializable FloatBits := ⟨.scalar .float, FloatBits.bits, FloatBits.mk⟩

/-- The names of an enum class over `int`. -/
class EnumNames (ε : Type) where
  value : ε → Int32

/-- A value of an enum class; one that was loaded need not have a name. -/
structure EnumClass (ε : Type) where
  value : Int32
deriving DecidableEq

def EnumClass.of {ε : Type} [EnumNames ε] (name : ε) : EnumClass ε := ⟨EnumNames.value name⟩

/-- `SERIALIZE_ENUM_CLASS`. -/
instance {ε : Type} : Serializable (EnumClass ε) where
  type := .struct (.field (type Int32) .done)
  toValue o := (o.value, ())
  ofValue := fun (value, ()) => ⟨value⟩

end Jumanpp.Util.Serialization
