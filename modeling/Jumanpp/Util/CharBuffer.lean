import Mathlib.Data.List.Basic
import Mathlib.Tactic.Common

/-!
# The character buffer

`CharBuffer` copies strings into pages that it fills from the front.  Only the page that is being filled
is kept here: no later call touches the ones before it.
-/

namespace Jumanpp.Util

/-- The default `PageSize`. -/
def charBufferPage : Nat := 1 <<< 20

/-- `std::array<char, page_size>`. -/
abbrev Page (pageSize : Nat) := Vector UInt8 pageSize

/-- `CharBuffer<PageSize>`.  A buffer without a page has no room in its page. -/
structure CharBuffer (pageSize : Nat) where
  current : Page pageSize
  position : Nat
  position_le : position ≤ pageSize

namespace CharBuffer

variable {pageSize : Nat}

def empty : CharBuffer pageSize := ⟨Vector.replicate pageSize 0, pageSize, Nat.le_refl pageSize⟩

/-- `next` is what stands in the page that would be taken next, a new one or one kept by `reset`. -/
def ensure_size (b : CharBuffer pageSize) (next : Page pageSize) (sz : Nat) :
    Option (CharBuffer pageSize) :=
  if pageSize < sz then none
  else if pageSize - b.position < sz then some ⟨next, 0, Nat.zero_le pageSize⟩
  else some b

/-- `std::copy` of the string to the position. -/
def copyAt (page : Page pageSize) (position : Nat) (sp : List UInt8) : Page pageSize :=
  page.mapIdx fun i c => if position ≤ i then (sp[i - position]?).getD c else c

theorem room_of_ensure_size {b b' : CharBuffer pageSize} {next : Page pageSize} {sz : Nat}
    (h : b.ensure_size next sz = some b') : b'.position + sz ≤ pageSize := by
  unfold ensure_size at h
  have hposition := b.position_le
  split_ifs at h with hlarge hfull
  · cases h
    show 0 + sz ≤ pageSize
    omega
  · cases h
    omega

/-- The buffer with the copy, and where the copy begins in the page. -/
def importMutable (b : CharBuffer pageSize) (next : Page pageSize) (sp : List UInt8) :
    Option (CharBuffer pageSize × Nat) :=
  match h : b.ensure_size next sp.length with
  | none => none
  | some b =>
      some (⟨copyAt b.current b.position sp, b.position + sp.length, room_of_ensure_size h⟩, b.position)

theorem importMutable_eq_none_iff {b : CharBuffer pageSize} {next : Page pageSize} {sp : List UInt8} :
    b.importMutable next sp = none ↔ pageSize < sp.length := by
  unfold importMutable
  constructor
  · intro h
    split at h
    · next hsize =>
        unfold ensure_size at hsize
        split_ifs at hsize with hlarge
        exact hlarge
    · cases h
  · intro h
    split
    · rfl
    · next hsize =>
        unfold ensure_size at hsize
        rw [if_pos h] at hsize
        cases hsize

/-- The copy stands in the page. -/
theorem getElem?_importMutable {b b' : CharBuffer pageSize} {next : Page pageSize}
    {sp : List UInt8} {start : Nat} (h : b.importMutable next sp = some (b', start)) {i : Nat}
    (hi : i < sp.length) : b'.current[start + i]? = sp[i]? := by
  unfold importMutable at h
  split at h
  · cases h
  · next b₁ hsize =>
      have hroom := room_of_ensure_size hsize
      cases h
      have hlt : b₁.position + i < pageSize := by omega
      rw [Vector.getElem?_eq_getElem hlt, List.getElem?_eq_getElem hi]
      simp [copyAt, hi]

/-- What is on the page before the copy stays. -/
theorem copyAt_of_lt {page : Page pageSize} {position i : Nat} (sp : List UInt8) (h : i < position) :
    (copyAt page position sp)[i]? = page[i]? := by
  have hnot : ¬ position ≤ i := by omega
  by_cases hi : i < pageSize
  · simp [copyAt, hi, hnot]
  · simp [hi]

end CharBuffer

end Jumanpp.Util
