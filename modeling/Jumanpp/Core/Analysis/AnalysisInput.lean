import Jumanpp.Core.Analysis.LatticeTypes
import Jumanpp.Util.Characters

/-!
# The input of an analysis

An input is accepted when its bytes fit the buffer, when they are UTF-8, and when the number of its
code points is one of `LatticePosition`.
-/

namespace Jumanpp.Core.Analysis

open Jumanpp.Util

/-- `std::numeric_limits<LatticePosition>::max()`. -/
def max_codepoints : Nat := 2 ^ 16 - 1

inductive ResetError
  /-- "byte size of input string (`size`) is greater than maximum allowed (`max_size`)" -/
  | byteSize (size max_size : Nat)
  /-- "Invalid UTF8 sequence: `utf8data`" -/
  | invalidUtf8 (utf8data : List UInt8)
  /-- "jpp_core at current settings cannot process more than `max`characters at once" -/
  | tooManyCharacters (max : Nat)
deriving DecidableEq

structure AnalysisInput where
  max_size : Nat
  raw_input : List UInt8
  codepoints : List InputCodepoint

namespace AnalysisInput

variable (input : AnalysisInput)

def reset (data : List UInt8) : Except ResetError AnalysisInput :=
  if data.length > input.max_size then .error (.byteSize data.length input.max_size)
  else
    match preprocessRawData data with
    | none => .error (.invalidUtf8 data)
    | some codepoints =>
        if codepoints.length > max_codepoints then .error (.tooManyCharacters max_codepoints)
        else .ok { input with raw_input := data, codepoints := codepoints }

def numCodepoints : Nat := u16 input.codepoints.length

variable {input}

theorem length_of_reset {data : List UInt8} {input' : AnalysisInput}
    (h : input.reset data = .ok input') : input'.codepoints.length < 2 ^ 16 := by
  unfold reset at h
  split at h
  · cases h
  · split at h
    · cases h
    · split at h
      · cases h
      next hmax =>
        cases h
        unfold max_codepoints at hmax
        simp only
        omega

theorem mem_of_reset {data : List UInt8} {input' : AnalysisInput}
    (h : input.reset data = .ok input') :
    ∀ cp ∈ input'.codepoints, cp.charClass = getCodeType cp.codepoint ∧ cp.bytes ≠ [] := by
  unfold reset at h
  split at h
  · cases h
  · split at h
    · cases h
    next codepoints hpoints =>
      split at h
      · cases h
      · cases h
        exact mem_preprocessFrom hpoints

theorem charClass_of_reset {data : List UInt8} {input' : AnalysisInput}
    (h : input.reset data = .ok input') :
    ∀ cp ∈ input'.codepoints, cp.charClass = getCodeType cp.codepoint :=
  fun cp hcp => (mem_of_reset h cp hcp).1

end AnalysisInput

def codepointAt (codepoints : List InputCodepoint) (i : Nat) : InputCodepoint :=
  codepoints.getD i ⟨0, CharacterClass.FAMILY_OTHERS, []⟩

/-- The bytes between two positions. -/
def surfaceOf (codepoints : List InputCodepoint) (start end_ : Nat) : List UInt8 :=
  ((codepoints.drop start).take (end_ - start)).flatMap (·.bytes)

end Jumanpp.Core.Analysis
