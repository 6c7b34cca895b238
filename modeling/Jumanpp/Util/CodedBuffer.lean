import Jumanpp.Util.CodedIo

/-!
# The buffer that numbers are written to

The buffer is a vector of bytes whose front is written.  A write first looks whether there is space
for it: the vector grows by a half of its size, or by what is asked for.
-/

namespace Jumanpp.Util

open Jumanpp.Lib.Base128

/-- The sizes that a vector can have.  Addresses have fewer than 63 bits, so that a size can be
multiplied by three in a `size_t`. -/
structure Allocator where
  allocates : Nat → Bool
  three_mul_lt : ∀ n, allocates n = true → 3 * n < 2 ^ 64

inductive BufferStop
  | badAlloc
  | checkFailed
  | pastEnd
  deriving DecidableEq

/-- `front_` counts from the beginning of `buffer_`, and `end_` is the end of it. -/
structure CodedBuffer (a : Allocator) where
  buffer_ : List UInt8
  front_ : Nat
  front_le : front_ ≤ buffer_.length
  allocated : buffer_ = [] ∨ a.allocates buffer_.length = true

/-- What `resize` leaves in a vector. -/
def resized (buffer : List UInt8) (newsize : Nat) : List UInt8 :=
  buffer.take newsize ++ List.replicate (newsize - buffer.length) 0

@[simp] theorem length_resized (buffer : List UInt8) (newsize : Nat) :
    (resized buffer newsize).length = newsize := by
  rw [resized, List.length_append, List.length_take, List.length_replicate]
  omega

theorem take_resized {buffer : List UInt8} {newsize front : Nat} (hbuffer : front ≤ buffer.length)
    (hnewsize : front ≤ newsize) : (resized buffer newsize).take front = buffer.take front := by
  rw [resized, List.take_append_of_le_length (by rw [List.length_take]; omega), List.take_take,
    Nat.min_eq_left hnewsize]

namespace CodedBuffer

variable {a : Allocator}

def empty : CodedBuffer a := ⟨[], 0, Nat.le_refl 0, .inl rfl⟩

def contents (b : CodedBuffer a) : List UInt8 := b.buffer_.take b.front_

def remaining (b : CodedBuffer a) : UInt64 := UInt64.ofNat (b.buffer_.length - b.front_)

def reset (b : CodedBuffer a) : CodedBuffer a :=
  ⟨b.buffer_, 0, Nat.zero_le _, b.allocated⟩

def newSize (curSize atLeast : UInt64) : UInt64 :=
  let autosize := curSize * 3 / 2
  curSize + if autosize - curSize < atLeast then atLeast else autosize - curSize

def grow (atLeast : UInt64) (b : CodedBuffer a) : Except BufferStop (CodedBuffer a) :=
  let newsize := (newSize (UInt64.ofNat b.buffer_.length) atLeast).toNat
  if ha : a.allocates newsize = true then
    if h : b.front_ ≤ newsize then
      .ok ⟨resized b.buffer_ newsize, b.front_, by rwa [length_resized],
        .inr (by rwa [length_resized])⟩
    else .error .checkFailed
  else .error .badAlloc

/-- `if (remaining() < atLeast) grow(atLeast)`, as every write begins. -/
def growFor (atLeast : UInt64) (b : CodedBuffer a) : Except BufferStop (CodedBuffer a) :=
  if b.remaining < atLeast then b.grow atLeast else .ok b

/-- `*front_ = byte; ++front_` -/
def put (b : CodedBuffer a) (byte : UInt8) : Except BufferStop (CodedBuffer a) :=
  if h : b.front_ < b.buffer_.length then
    .ok ⟨b.buffer_.set b.front_ byte, b.front_ + 1, by rwa [List.length_set], by
      rw [List.length_set]
      exact b.allocated.imp (fun hnil => by rw [hnil, List.set_nil]) id⟩
  else .error .pastEnd

def writeVarint64ToArray (value : UInt64) (b : CodedBuffer a) :
    Except BufferStop (CodedBuffer a) :=
  if 0x80 ≤ value then do
    let b ← b.put (value ||| 0x80).toUInt8
    writeVarint64ToArray (value >>> 7) b
  else b.put value.toUInt8
termination_by value.toNat
decreasing_by
  have hle : 128 ≤ value.toNat := by simpa [UInt64.le_iff_toNat_le] using ‹0x80 ≤ value›
  rw [toNat_shiftRight_seven]
  omega

def writeRawBytes (bytes : List UInt8) (b : CodedBuffer a) : Except BufferStop (CodedBuffer a) :=
  bytes.foldlM put b

def writeVarint (value : UInt64) (b : CodedBuffer a) : Except BufferStop (CodedBuffer a) := do
  let b ← b.growFor 10
  writeVarint64ToArray value b

def writeFixed32 (value : UInt32) (b : CodedBuffer a) : Except BufferStop (CodedBuffer a) := do
  let b ← b.growFor 4
  writeRawBytes (Util.writeFixed32 value) b

def writeStringDataWithoutLengthPrefix (value : StdString) (b : CodedBuffer a) :
    Except BufferStop (CodedBuffer a) := do
  let b ← b.growFor (value.size + 10)
  writeRawBytes value.elems b

def writeString (value : StdString) (b : CodedBuffer a) : Except BufferStop (CodedBuffer a) := do
  let b ← b.growFor (value.size + 10)
  let b ← writeVarint64ToArray value.size b
  writeRawBytes value.elems b

/-! ## One write -/

/-- The bytes are behind what was written, unless the memory is used up. -/
def Appends (b : CodedBuffer a) (bytes : List UInt8) (r : Except BufferStop (CodedBuffer a)) : Prop :=
  r = .error .badAlloc ∨ ∃ b', r = .ok b' ∧ b'.contents = b.contents ++ bytes

theorem three_mul_length_lt (b : CodedBuffer a) : 3 * b.buffer_.length < 2 ^ 64 := by
  rcases b.allocated with hnil | hsize
  · rw [hnil]
    decide
  · exact a.three_mul_lt _ hsize

/-- No request of a write makes the new size wrap around. -/
theorem toNat_newSize {curSize atLeast : UInt64} (hcur : 3 * curSize.toNat < 2 ^ 64)
    (hleast : atLeast.toNat ≤ 2 ^ 63 + 9) :
    (newSize curSize atLeast).toNat =
      curSize.toNat + max (curSize.toNat * 3 / 2 - curSize.toNat) atLeast.toNat := by
  have hauto : (curSize * 3 / 2).toNat = curSize.toNat * 3 / 2 := by
    rw [UInt64.toNat_div, UInt64.toNat_mul]
    simp only [UInt64.reduceToNat]
    rw [Nat.mod_eq_of_lt (by omega)]
  have hhalf : (curSize * 3 / 2 - curSize).toNat = curSize.toNat * 3 / 2 - curSize.toNat := by
    rw [UInt64.toNat_sub_of_le, hauto]
    rw [UInt64.le_iff_toNat_le, hauto]
    omega
  unfold newSize
  simp only []
  by_cases hlt : curSize * 3 / 2 - curSize < atLeast
  · have hnat := UInt64.lt_iff_toNat_lt.mp hlt
    rw [hhalf] at hnat
    rw [if_pos hlt, UInt64.toNat_add, Nat.max_eq_right (by omega), Nat.mod_eq_of_lt (by omega)]
  · have hnat := mt UInt64.lt_iff_toNat_lt.mpr hlt
    rw [hhalf] at hnat
    rw [if_neg hlt, UInt64.toNat_add, hhalf, Nat.max_eq_left (by omega),
      Nat.mod_eq_of_lt (by omega)]

/-- The written bytes stay, and the space suffices for what was asked. -/
theorem grow_cases (b : CodedBuffer a) {atLeast : UInt64} (hleast : atLeast.toNat ≤ 2 ^ 63 + 9) :
    b.grow atLeast = .error .badAlloc ∨ ∃ b', b.grow atLeast = .ok b' ∧ b'.contents = b.contents ∧
      atLeast.toNat ≤ b'.buffer_.length - b'.front_ := by
  have hthree := b.three_mul_length_lt
  have hfront := b.front_le
  have hcur : (UInt64.ofNat b.buffer_.length).toNat = b.buffer_.length := by
    rw [UInt64.toNat_ofNat', Nat.mod_eq_of_lt (by omega)]
  have hnew := toNat_newSize (hcur.symm ▸ hthree) hleast
  rw [hcur] at hnew
  unfold grow
  simp only []
  by_cases ha : a.allocates (newSize (UInt64.ofNat b.buffer_.length) atLeast).toNat = true
  · have hle : b.front_ ≤ (newSize (UInt64.ofNat b.buffer_.length) atLeast).toNat := by omega
    rw [dif_pos ha, dif_pos hle]
    refine .inr ⟨_, rfl, take_resized hfront hle, ?_⟩
    simp only [length_resized]
    omega
  · rw [dif_neg ha]
    exact .inl rfl

theorem growFor_cases (b : CodedBuffer a) {atLeast : UInt64}
    (hleast : atLeast.toNat ≤ 2 ^ 63 + 9) :
    b.growFor atLeast = .error .badAlloc ∨ ∃ b', b.growFor atLeast = .ok b' ∧
      b'.contents = b.contents ∧ atLeast.toNat ≤ b'.buffer_.length - b'.front_ := by
  have hthree := b.three_mul_length_lt
  unfold growFor
  by_cases hspace : b.remaining < atLeast
  · rw [if_pos hspace]
    exact grow_cases b hleast
  · have hnat := mt UInt64.lt_iff_toNat_lt.mpr hspace
    rw [remaining, UInt64.toNat_ofNat', Nat.mod_eq_of_lt (by omega)] at hnat
    rw [if_neg hspace]
    exact .inr ⟨b, rfl, rfl, by omega⟩

theorem put_ok {b : CodedBuffer a} (h : b.front_ < b.buffer_.length) (byte : UInt8) :
    ∃ b', b.put byte = .ok b' ∧ b'.contents = b.contents ++ [byte] ∧
      b'.buffer_.length - b'.front_ + 1 = b.buffer_.length - b.front_ := by
  unfold put
  rw [dif_pos h]
  refine ⟨_, rfl, ?_, ?_⟩
  · show (b.buffer_.set b.front_ byte).take (b.front_ + 1) = b.buffer_.take b.front_ ++ [byte]
    rw [List.take_add_one, List.take_set_of_le (Nat.le_refl _), List.getElem?_set_self h]
    rfl
  · simp only [List.length_set]
    omega

/-- By induction on the bytes. -/
theorem writeRawBytes_ok : ∀ (bytes : List UInt8) {b : CodedBuffer a},
    bytes.length ≤ b.buffer_.length - b.front_ →
      ∃ b', writeRawBytes bytes b = .ok b' ∧ b'.contents = b.contents ++ bytes ∧
        b'.buffer_.length - b'.front_ + bytes.length = b.buffer_.length - b.front_
  | [], b, _ => ⟨b, rfl, (List.append_nil _).symm, rfl⟩
  | byte :: bytes, b, h => by
    rw [List.length_cons] at h
    obtain ⟨b₁, hput, hcontents, hspace⟩ := put_ok (b := b) (by omega) byte
    obtain ⟨b₂, hrest, hcontents', hspace'⟩ := writeRawBytes_ok bytes (b := b₁) (by omega)
    refine ⟨b₂, ?_, ?_, ?_⟩
    · rw [writeRawBytes, List.foldlM_cons, hput]
      exact hrest
    · rw [hcontents', hcontents, List.append_assoc, List.singleton_append]
    · rw [List.length_cons]
      omega

/-- Byte by byte, or all the bytes of the number. -/
theorem writeVarint64ToArray_eq (value : UInt64) (b : CodedBuffer a) :
    writeVarint64ToArray value b = writeRawBytes (Util.writeVarint value) b := by
  induction hv : value.toNat using Nat.strongRecOn generalizing value b with
  | ind n ih =>
    subst hv
    rw [writeVarint64ToArray, Util.writeVarint]
    by_cases hflag : 0x80 ≤ value
    · have hle : 128 ≤ value.toNat := by simpa [UInt64.le_iff_toNat_le] using hflag
      rw [if_pos hflag, if_pos hflag, writeRawBytes, List.foldlM_cons]
      congr 1
      funext b
      exact ih _ (by rw [toNat_shiftRight_seven]; omega) _ b rfl
    · rw [if_neg hflag, if_neg hflag, writeRawBytes, List.foldlM_cons]
      cases b.put value.toUInt8 with
      | error e => rfl
      | ok b => rfl

theorem length_writeVarint_le_ten (value : UInt64) : (Util.writeVarint value).length ≤ 10 := by
  have hlt := value.toNat_lt
  exact length_writeVarint_le value 9 (by omega)

/-- A write that asks for as much as its bytes need. -/
theorem appends_of_growFor {b : CodedBuffer a} {atLeast : UInt64} {bytes : List UInt8}
    {write : CodedBuffer a → Except BufferStop (CodedBuffer a)}
    (hleast : atLeast.toNat ≤ 2 ^ 63 + 9) (hbytes : bytes.length ≤ atLeast.toNat)
    (hwrite : ∀ b, write b = writeRawBytes bytes b) :
    b.Appends bytes (b.growFor atLeast >>= write) := by
  rcases b.growFor_cases hleast with hnone | ⟨b₁, hgrown, hcontents, hspace⟩
  · rw [hnone]
    exact .inl rfl
  · obtain ⟨b₂, hwritten, hcontents', -⟩ := writeRawBytes_ok bytes (b := b₁) (by omega)
    rw [hgrown]
    refine .inr ⟨b₂, (hwrite b₁).trans hwritten, ?_⟩
    rw [hcontents', hcontents]

theorem writeVarint_appends (value : UInt64) (b : CodedBuffer a) :
    b.Appends (Util.writeVarint value) (writeVarint value b) :=
  @appends_of_growFor _ _ 10 _ _ (by decide) (length_writeVarint_le_ten value)
    (writeVarint64ToArray_eq value)

theorem writeFixed32_appends (value : UInt32) (b : CodedBuffer a) :
    b.Appends (Util.writeFixed32 value) (writeFixed32 value b) :=
  @appends_of_growFor _ _ 4 _ _ (by decide) (Nat.le_refl 4) (fun _ => rfl)

theorem toNat_size_add_ten {value : StdString} (hvalue : value.elems.length < 2 ^ 63) :
    (value.size + 10).toNat = value.elems.length + 10 := by
  rw [UInt64.toNat_add, StdList.toNat_size]
  exact Nat.mod_eq_of_lt (show value.elems.length + 10 < 2 ^ 64 by omega)

/-- A `StringPiece` has two pointers, whose distance is a `ptrdiff_t`. -/
theorem writeStringDataWithoutLengthPrefix_appends {value : StdString}
    (hvalue : value.elems.length < 2 ^ 63) (b : CodedBuffer a) :
    b.Appends value.elems (writeStringDataWithoutLengthPrefix value b) := by
  have hsize := toNat_size_add_ten hvalue
  exact appends_of_growFor (by omega) (by omega) (fun _ => rfl)

theorem writeString_appends {value : StdString} (hvalue : value.elems.length < 2 ^ 63)
    (b : CodedBuffer a) : b.Appends (Util.writeString value) (writeString value b) := by
  have hsize := toNat_size_add_ten hvalue
  have hten := length_writeVarint_le_ten value.size
  apply appends_of_growFor (by omega)
  · rw [Util.writeString, List.length_append]
    omega
  · intro b
    show writeVarint64ToArray value.size b >>= writeRawBytes value.elems = _
    rw [writeVarint64ToArray_eq, Util.writeString]
    exact (List.foldlM_append ..).symm

/-! ## Many writes -/

/-- A number is written, or the buffer grows by what a write can ask for. -/
inductive Step
  | varint (value : UInt64)
  | grow (atLeast : UInt64) (h : atLeast.toNat ≤ 2 ^ 63 + 9)

namespace Step

def run (b : CodedBuffer a) : Step → Except BufferStop (CodedBuffer a)
  | varint value => writeVarint value b
  | grow atLeast _ => b.grow atLeast

def value? : Step → Option UInt64
  | varint value => some value
  | grow _ _ => none

def bytes : Step → List UInt8
  | varint value => Util.writeVarint value
  | grow _ _ => []

theorem run_appends (b : CodedBuffer a) (s : Step) : b.Appends s.bytes (s.run b) := by
  cases s with
  | varint value => exact writeVarint_appends value b
  | grow atLeast h =>
    rcases b.grow_cases h with hnone | ⟨b', hok, hcontents, -⟩
    · exact .inl hnone
    · exact .inr ⟨b', hok, hcontents.trans (List.append_nil _).symm⟩

theorem flatMap_bytes (steps : List Step) :
    steps.flatMap bytes = (steps.filterMap value?).flatMap Util.writeVarint := by
  induction steps with
  | nil => rfl
  | cons s steps ih =>
    cases s with
    | varint value =>
      rw [List.flatMap_cons, ih]
      rfl
    | grow atLeast h => exact ih

end Step

def runSteps (steps : List Step) (b : CodedBuffer a) : Except BufferStop (CodedBuffer a) :=
  steps.foldlM Step.run b

/-- By induction on the steps. -/
theorem runSteps_appends : ∀ (steps : List Step) (b : CodedBuffer a),
    b.Appends (steps.flatMap Step.bytes) (runSteps steps b)
  | [], b => .inr ⟨b, rfl, (List.append_nil _).symm⟩
  | s :: steps, b => by
    show b.Appends _ (s.run b >>= runSteps steps)
    rcases s.run_appends b with hnone | ⟨b₁, hok, hcontents⟩
    · rw [hnone]
      exact .inl rfl
    · rw [hok]
      rcases runSteps_appends steps b₁ with hnone | ⟨b₂, hok', hcontents'⟩
      · exact .inl hnone
      · refine .inr ⟨b₂, hok', ?_⟩
        rw [hcontents', hcontents, List.append_assoc, List.flatMap_cons]

end CodedBuffer

/-- One number after another. -/
def readVarints : Nat → List UInt8 → Option (List UInt64 × List UInt8)
  | 0, rest => some ([], rest)
  | n + 1, rest =>
      match readVarint64 rest with
      | (none, _) => none
      | (some value, rest) => (readVarints n rest).map fun r => (value :: r.1, r.2)

theorem readVarints_flatMap (rest : List UInt8) : ∀ values : List UInt64,
    readVarints values.length (values.flatMap writeVarint ++ rest) = some (values, rest)
  | [] => rfl
  | value :: values => by
    rw [List.flatMap_cons, List.append_assoc, List.length_cons, readVarints,
      readVarint64_writeVarint]
    simp only []
    rw [readVarints_flatMap rest values]
    rfl

end Jumanpp.Util
