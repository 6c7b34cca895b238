import Mathlib.Data.Nat.Bitwise
import Mathlib.Tactic.Common

/-!
# Mapped files

A fragment of a file is read and written like memory.  A fragment that reaches over the end of the
file first writes one zero byte where it ends; the end that is looked at is the one from when the
file was opened.
-/

namespace Jumanpp.Util

/-- The part of a status that its callers can tell apart. -/
inductive StatusCode
  | invalidParameter
  | invalidState
  | notImplemented
deriving DecidableEq

structure File where
  size : Nat
  byte : Nat → UInt8
  size_lt : size < 2 ^ 63

namespace File

def ofBytes (bytes : List UInt8) (h : bytes.length < 2 ^ 63) : File :=
  ⟨bytes.length, fun q => bytes.getD q 0, h⟩

def read (f : File) (offset n : Nat) : List UInt8 :=
  (List.range n).map fun k => f.byte (offset + k)

def contents (f : File) : List UInt8 := f.read 0 f.size

/-- One zero byte at `p`; what lies between the old end and `p` is zero as well. -/
def writeZero (f : File) (p : Nat) (h : p + 1 < 2 ^ 63) : File where
  size := max f.size (p + 1)
  byte q := if q < f.size ∧ q ≠ p then f.byte q else 0
  size_lt := by
    have hsize := f.size_lt
    omega

def memcpy (f : File) (offset : Nat) (data : List UInt8) : File :=
  { f with
    byte := fun q =>
      if offset ≤ q ∧ q < offset + data.length then data.getD (q - offset) 0 else f.byte q }

@[simp] theorem memcpy_size (f : File) (offset : Nat) (data : List UInt8) :
    (f.memcpy offset data).size = f.size := rfl

@[simp] theorem length_read (f : File) (offset n : Nat) : (f.read offset n).length = n := by
  simp [read]

theorem read_congr {f g : File} {offset n : Nat}
    (h : ∀ q, offset ≤ q → q < offset + n → f.byte q = g.byte q) :
    f.read offset n = g.read offset n := by
  apply List.map_congr_left
  intro k hk
  exact h _ (by omega) (by have := List.mem_range.mp hk; omega)

theorem read_add (f : File) (offset m n : Nat) :
    f.read offset (m + n) = f.read offset m ++ f.read (offset + m) n := by
  simp only [read, List.range_add, List.map_append, List.map_map]
  congr 1
  apply List.map_congr_left
  intro k _
  show f.byte (offset + (m + k)) = f.byte (offset + m + k)
  rw [Nat.add_assoc]

theorem read_eq_iff {f : File} {offset : Nat} {data : List UInt8} :
    f.read offset data.length = data ↔
      ∀ k, ∀ hk : k < data.length, f.byte (offset + k) = data[k] := by
  constructor
  · intro h k hk
    have hget := List.getElem_of_eq h.symm hk
    simpa [read] using hget.symm
  · intro h
    apply List.ext_getElem (by simp)
    intro k _ hk
    simpa [read] using h k hk

/-- What was copied is read back. -/
theorem read_memcpy (f : File) (offset : Nat) (data : List UInt8) :
    (f.memcpy offset data).read offset data.length = data := by
  rw [read_eq_iff]
  intro k hk
  simp [memcpy, hk]

theorem memcpy_byte_other {f : File} {offset q : Nat} {data : List UInt8}
    (h : q < offset ∨ offset + data.length ≤ q) : (f.memcpy offset data).byte q = f.byte q := by
  show (if _ then _ else _) = _
  rw [if_neg (by omega)]

@[simp] theorem writeZero_size (f : File) (p : Nat) (h : p + 1 < 2 ^ 63) :
    (f.writeZero p h).size = max f.size (p + 1) := rfl

theorem writeZero_byte {f : File} {p q : Nat} {h : p + 1 < 2 ^ 63} (hq : q < f.size) :
    (f.writeZero p h).byte q = if q = p then 0 else f.byte q := by
  show (if q < f.size ∧ q ≠ p then f.byte q else 0) = _
  by_cases hp : q = p
  · rw [if_pos hp, if_neg (fun h => h.2 hp)]
  · rw [if_neg hp, if_pos ⟨hq, hp⟩]

end File

/-! ## Mapping -/

inductive MMapType
  | ReadOnly
  | ReadWrite

/-- The file after a fragment of it is mapped; a fragment without a byte cannot be mapped. -/
def MappedFile.map (pageSize : Nat) (type : MMapType) (size_ offset size : Nat) (useHuge : Bool)
    (f : File) : Except StatusCode File := do
  let endoffset := offset + size
  let offsetPsAligned := offset / pageSize * pageSize
  let sizePsAligned := endoffset - offsetPsAligned
  let f ← match type with
    | .ReadOnly => if size_ < endoffset then throw .invalidParameter else pure f
    | .ReadWrite =>
        if size_ < endoffset then
          if h : endoffset - 1 + 1 < 2 ^ 63 then pure (f.writeZero (endoffset - 1) h)
          else throw .invalidState
        else pure f
  if useHuge ∧ 2 ^ 21 ≤ size ∧ offset % 2 ^ 21 ≠ 0 then throw .invalidParameter
  if sizePsAligned = 0 then throw .invalidState
  return f

/-- A mapped fragment lies in the file, of which nothing is changed but its last byte. -/
theorem MappedFile.map_readWrite {pageSize size_ offset size : Nat} {useHuge : Bool} {f f' : File}
    (h : MappedFile.map pageSize .ReadWrite size_ offset size useHuge f = .ok f')
    (hsize : size_ ≤ f.size) :
    f.size ≤ f'.size ∧ offset + size ≤ f'.size ∧
      ∀ q < f.size, f'.byte q =
        if q + 1 = offset + size ∧ size_ < offset + size then 0 else f.byte q := by
  unfold MappedFile.map at h
  simp only [bind, Except.bind, throw, throwThe, MonadExceptOf.throw, pure, Except.pure] at h
  by_cases hend : size_ < offset + size
  · rw [if_pos hend] at h
    by_cases hfits : offset + size - 1 + 1 < 2 ^ 63
    · rw [dif_pos hfits] at h
      have hf' : f.writeZero (offset + size - 1) hfits = f' := by
        split at h
        · cases h
        · split at h <;> cases h
          rfl
      subst hf'
      rw [File.writeZero_size]
      refine ⟨Nat.le_max_left .., by omega, fun q hq => ?_⟩
      rw [File.writeZero_byte hq]
      by_cases hlast : q = offset + size - 1
      · rw [if_pos hlast, if_pos (by omega)]
      · rw [if_neg hlast, if_neg (by omega)]
    · rw [dif_neg hfits] at h
      cases h
  · rw [if_neg hend] at h
    have hf' : f = f' := by
      split at h
      · cases h
      · split at h <;> cases h
        rfl
    subst hf'
    exact ⟨Nat.le_refl _, by omega, fun q _ => by rw [if_neg (by omega)]⟩

def Align (val alignment : Nat) : Nat :=
  if val &&& (alignment - 1) = 0 then val else val / alignment * alignment + alignment

/-- The next page. -/
theorem align_page (val : Nat) : Align val 4096 = (val + 4095) / 4096 * 4096 := by
  have hmod : val &&& (4096 - 1) = val % 4096 := Nat.and_two_pow_sub_one_eq_mod val 12
  rw [Align, hmod]
  split <;> omega

end Jumanpp.Util
