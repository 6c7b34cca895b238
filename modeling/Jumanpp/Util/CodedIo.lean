import Jumanpp.Lib.Base128

/-!
# Coded bytes

Numbers are written seven bits at a time, the lowest first, with the highest bit of a byte set when
another byte follows.  A parser stands on the bytes that it has not read; a read that fails may have
moved it.
-/

namespace Jumanpp.Util

open Jumanpp.Lib.Base128

/-- The contents of a `std::string` or a `std::vector`: the size is a `size_t`. -/
structure StdList (α : Type) where
  elems : List α
  size_lt : elems.length < 2 ^ 64

namespace StdList

variable {α : Type}

theorem ext {l r : StdList α} (h : l.elems = r.elems) : l = r := by
  cases l
  cases r
  cases h
  rfl

def empty : StdList α := ⟨[], by simp⟩

def map {β : Type} (f : α → β) (l : StdList α) : StdList β :=
  ⟨l.elems.map f, by simpa using l.size_lt⟩

def emplaceBack (l : StdList α) (child : α) (h : l.elems.length + 1 < 2 ^ 64) : StdList α :=
  ⟨l.elems ++ [child], by simpa using h⟩

def size (l : StdList α) : UInt64 := UInt64.ofNat l.elems.length

@[simp] theorem toNat_size (l : StdList α) : l.size.toNat = l.elems.length := by
  rw [size, UInt64.toNat_ofNat', Nat.mod_eq_of_lt l.size_lt]

@[simp] theorem size_map {β : Type} (f : α → β) (l : StdList α) : (l.map f).size = l.size := by
  simp [size, map]

end StdList

abbrev StdString := StdList UInt8

/-! ## Writing -/

def writeVarint (value : UInt64) : List UInt8 :=
  if 0x80 ≤ value then (value ||| 0x80).toUInt8 :: writeVarint (value >>> 7)
  else [value.toUInt8]
termination_by value.toNat
decreasing_by
  have hle : 128 ≤ value.toNat := by simpa [UInt64.le_iff_toNat_le] using ‹0x80 ≤ value›
  rw [UInt64.toNat_shiftRight]
  simp only [UInt64.reduceToNat, Nat.reduceMod, Nat.shiftRight_eq_div_pow]
  omega

def writeFixed32 (value : UInt32) : List UInt8 :=
  [((value >>> 0) &&& 0xff).toUInt8, ((value >>> 8) &&& 0xff).toUInt8,
    ((value >>> 16) &&& 0xff).toUInt8, ((value >>> 24) &&& 0xff).toUInt8]

def writeString (value : StdString) : List UInt8 :=
  writeVarint value.size ++ value.elems

/-! ## Reading -/

/-- The value in pieces of 28 bits. -/
structure Parts where
  part0 : UInt32
  part1 : UInt32
  part2 : UInt32

namespace Parts

/-- The byte `count` belongs to one piece. -/
def modify (p : Parts) (count : Nat) (f : UInt32 → UInt32) : Parts :=
  if count < 4 then { p with part0 := f p.part0 }
  else if count < 8 then { p with part1 := f p.part1 }
  else { p with part2 := f p.part2 }

def shift (count : Nat) : UInt32 := UInt32.ofNat (7 * (count % 4))

def add (p : Parts) (count : Nat) (b : UInt8) : Parts :=
  p.modify count fun part => part + b.toUInt32 <<< shift count

def dropFlag (p : Parts) (count : Nat) : Parts :=
  p.modify count fun part => part - 0x80 <<< shift count

def value (p : Parts) : UInt64 :=
  p.part0.toUInt64 ||| p.part1.toUInt64 <<< 28 ||| p.part2.toUInt64 <<< 56

end Parts

/-- From the byte `count` on; the tenth byte is the last one. -/
def readParts : Nat → Parts → List UInt8 → Option (UInt64 × List UInt8)
  | _, _, [] => none
  | count, p, b :: rest =>
      let p := p.add count b
      if b &&& 0x80 = 0 then some (p.value, rest)
      else if count = 9 then none
      else readParts (count + 1) (p.dropFlag count) rest

def readVarint64FromArray (buffer : List UInt8) : Option (UInt64 × List UInt8) :=
  readParts 0 ⟨0, 0, 0⟩ buffer

/-- The cycle of the slow path, from the byte `count` on. -/
def readCycle : Nat → UInt64 → List UInt8 → Option UInt64 × List UInt8
  | _, _, [] => (none, [])
  | count, result, b :: rest =>
      if count = 10 then (none, b :: rest)
      else
        let result := result ||| (b &&& 0x7F).toUInt64 <<< UInt64.ofNat (7 * count)
        if b &&& 0x80 ≠ 0 then readCycle (count + 1) result rest else (some result, rest)

/-- A value that does not end within ten bytes leaves the parser where it was; bytes that end within
the value are used up. -/
def readVarint64Slowpath (rest : List UInt8) : Option UInt64 × List UInt8 :=
  if rest = [] then (none, rest)
  else if 10 ≤ rest.length then
    match readVarint64FromArray rest with
    | some (value, rest) => (some value, rest)
    | none => (none, rest)
  else readCycle 0 0 rest

def readVarint64 : List UInt8 → Option UInt64 × List UInt8
  | b :: rest => if b < 0x80 then (some b.toUInt64, rest) else readVarint64Slowpath (b :: rest)
  | [] => readVarint64Slowpath []

def readFixed32 : List UInt8 → Option UInt32 × List UInt8
  | b0 :: b1 :: b2 :: b3 :: rest =>
      (some (b0.toUInt32 <<< 0 ||| b1.toUInt32 <<< 8 ||| b2.toUInt32 <<< 16 ||| b3.toUInt32 <<< 24),
        rest)
  | rest => (none, rest)

def readStringPiece (rest : List UInt8) : Option StdString × List UInt8 :=
  match readVarint64 rest with
  | (none, rest) => (none, rest)
  | (some len, rest) =>
      if rest.length < len.toNat then (none, rest)
      else (some ⟨rest.take len.toNat, by
        have hlen := len.toNat_lt
        rw [List.length_take]
        omega⟩, rest.drop len.toNat)

/-! ## What is written is read back -/

theorem writeVarint_cons {value : UInt64} (hle : 128 ≤ value.toNat) :
    writeVarint value
      = UInt8.ofNat (value.toNat % 128 + 128) :: writeVarint (value >>> 7) := by
  have hflag : 0x80 ≤ value := by
    rw [UInt64.le_iff_toNat_le]
    exact hle
  rw [writeVarint, if_pos hflag]
  congr 1
  apply UInt8.toNat_inj.mp
  rw [UInt64.toNat_toUInt8, UInt64.toNat_or, UInt8.toNat_ofNat']
  have hlow : (value.toNat ||| 128) % 2 ^ 8 = (value.toNat % 256 ||| 128) % 2 ^ 8 := by
    rw [Nat.or_mod_two_pow, Nat.or_mod_two_pow]
    simp
  have hbyte := (by decide +kernel : ∀ i : Fin 256, (i.val ||| 128) = i.val % 128 + 128)
    ⟨value.toNat % 256, Nat.mod_lt _ (by decide)⟩
  show (value.toNat ||| 128) % 2 ^ 8 = _
  rw [hlow]
  simp only at hbyte
  omega

theorem writeVarint_singleton {value : UInt64} (hlt : value.toNat < 128) :
    writeVarint value = [value.toUInt8] := by
  have hflag : ¬ (0x80 ≤ value) := by
    rw [UInt64.le_iff_toNat_le]
    exact Nat.not_le.mpr hlt
  rw [writeVarint, if_neg hflag]

theorem toNat_shiftRight_seven (value : UInt64) : (value >>> 7).toNat = value.toNat / 128 := by
  rw [UInt64.toNat_shiftRight]
  simp [Nat.shiftRight_eq_div_pow]

theorem writeVarint_ne_nil (value : UInt64) : writeVarint value ≠ [] := by
  rw [writeVarint]
  split <;> simp

theorem flag_eq_zero_iff (b : UInt8) : b &&& 0x80 = 0 ↔ b.toNat < 128 := by
  have hbit := (by decide +kernel : ∀ i : Fin 256, (i.val &&& 128 = 0) ↔ i.val < 128)
    ⟨b.toNat, b.toNat_lt⟩
  rw [← UInt8.toNat_inj, UInt8.toNat_and]
  exact hbit

theorem toNat_payload (b : UInt8) : (b &&& 0x7F).toNat = b.toNat % 128 := by
  rw [UInt8.toNat_and]
  exact Nat.and_two_pow_sub_one_eq_mod b.toNat 7

/-- The bits above 2^64 are lost. -/
theorem toNat_or_shiftLeft {result x : UInt64} {k : Nat} (hk : k < 64)
    (hresult : result.toNat < 2 ^ k) :
    (result ||| x <<< UInt64.ofNat k).toNat = (result.toNat + x.toNat * 2 ^ k) % 2 ^ 64 := by
  have hsplit : 2 ^ 64 = 2 ^ k * 2 ^ (64 - k) := by
    rw [← Nat.pow_add, Nat.add_sub_cancel' (by omega)]
  have hhigh : x.toNat * 2 ^ k % 2 ^ 64 = 2 ^ k * (x.toNat % 2 ^ (64 - k)) := by
    rw [hsplit, Nat.mul_comm, Nat.mul_mod_mul_left]
  have hfits : result.toNat + 2 ^ k * (x.toNat % 2 ^ (64 - k)) < 2 ^ 64 := by
    have hlt : x.toNat % 2 ^ (64 - k) + 1 ≤ 2 ^ (64 - k) :=
      Nat.mod_lt _ (Nat.two_pow_pos _)
    have hle := Nat.mul_le_mul_left (2 ^ k) hlt
    rw [Nat.mul_add, Nat.mul_one, ← hsplit] at hle
    omega
  rw [UInt64.toNat_or, UInt64.toNat_shiftLeft, UInt64.toNat_ofNat',
    Nat.mod_eq_of_lt (show k < 2 ^ 64 by omega), Nat.mod_eq_of_lt hk, Nat.shiftLeft_eq, hhigh,
    Nat.or_comm, ← Nat.two_pow_add_eq_or_of_lt hresult, Nat.add_comm, ← Nat.mod_eq_of_lt hfits,
    Nat.add_mod, ← hhigh, Nat.mod_mod, ← Nat.add_mod]

/-- What a read returns when it succeeds. -/
def succeeded {α : Type} (r : Option α × List UInt8) : Option (α × List UInt8) :=
  r.1.map fun v => (v, r.2)

theorem eq_of_succeeded {α : Type} {r : Option α × List UInt8} {v : α} {rest : List UInt8}
    (h : succeeded r = some (v, rest)) : r = (some v, rest) := by
  obtain ⟨o, rest'⟩ := r
  obtain ⟨v', hv, heq⟩ := Option.map_eq_some_iff.mp h
  obtain ⟨rfl, rfl⟩ := Prod.mk.inj heq
  rw [show o = some v' from hv]

theorem fst_of_succeeded_none {α : Type} {r : Option α × List UInt8} (h : succeeded r = none) :
    r.1 = none :=
  Option.map_eq_none_iff.mp h

/-- The cycle decodes what is above the `7 * count` low bits.  By induction on the bytes. -/
theorem readCycle_eq_decodeFrom : ∀ (bytes : List UInt8) (count : Nat) (result : UInt64),
    count ≤ 10 → (count < 10 → result.toNat < 2 ^ (7 * count)) →
      succeeded (readCycle count result bytes) = decodeFrom count result.toNat bytes
  | [], count, result, _, _ => rfl
  | b :: rest, count, result, hcount, hresult => by
    rw [readCycle]
    by_cases hten : count = 10
    · rw [if_pos hten, hten, decodeFrom_ten]
      rfl
    · rw [if_neg hten]
      have hlt : count < 10 := by omega
      have hlow := hresult hlt
      have hpay : (b &&& 0x7F).toUInt64.toNat = b.toNat % 128 := by
        rw [UInt8.toNat_toUInt64, toNat_payload]
      have hacc := toNat_or_shiftLeft (x := (b &&& 0x7F).toUInt64) (show 7 * count < 64 by omega) hlow
      rw [hpay] at hacc
      by_cases hflag : b.toNat < 128
      · have hlast : b &&& 0x80 = 0 := (flag_eq_zero_iff b).mpr hflag
        simp only [hlast, ne_eq, not_true_eq_false, if_false]
        rw [decodeFrom_last rest hflag hlt, succeeded, Option.map_some, Option.some.injEq,
          Prod.mk.injEq]
        refine ⟨UInt64.toNat_inj.mp ?_, rfl⟩
        rw [hacc, UInt64.toNat_ofNat', Nat.mod_eq_of_lt hflag]
      · have hcont : b &&& 0x80 ≠ 0 := by
          rw [ne_eq, flag_eq_zero_iff]
          exact hflag
        simp only [if_pos hcont]
        rw [decodeFrom_flag rest (Nat.le_of_not_lt hflag)]
        by_cases hnine : count = 9
        · -- the flag of the tenth byte
          rw [hnine, decodeFrom_ten, readCycle_eq_decodeFrom rest 10 _ (by omega) (by omega),
            decodeFrom_ten]
        · have hpow : 2 ^ (7 * (count + 1)) = 128 * 2 ^ (7 * count) := by
            rw [show 7 * (count + 1) = 7 + 7 * count by omega, Nat.pow_add]
          have hmul : b.toNat % 128 * 2 ^ (7 * count) ≤ 127 * 2 ^ (7 * count) :=
            Nat.mul_le_mul_right _ (by omega)
          have hbound : 2 ^ (7 * (count + 1)) ≤ 2 ^ 63 :=
            Nat.pow_le_pow_right (by decide) (by omega)
          rw [Nat.mod_eq_of_lt (by omega)] at hacc
          rw [readCycle_eq_decodeFrom rest (count + 1) _ (by omega) (by omega), hacc]

namespace Parts

/-- The pieces hold the `count` lowest groups of seven bits, whose value is `n`. -/
structure Holds (p : Parts) (count n : Nat) : Prop where
  part0 : p.part0.toNat = n % 2 ^ 28
  part1 : p.part1.toNat = n / 2 ^ 28 % 2 ^ 28
  part2 : p.part2.toNat = n / 2 ^ 56
  lt : n < 2 ^ (7 * count)

theorem toNat_shift (count : Nat) : (shift count).toNat = 7 * (count % 4) := by
  rw [shift, UInt32.toNat_ofNat']
  omega

theorem toNat_add_shiftLeft {part : UInt32} {b : UInt8} {count : Nat}
    (hpart : part.toNat < 2 ^ (7 * (count % 4))) :
    (part + b.toUInt32 <<< shift count).toNat = part.toNat + b.toNat * 2 ^ (7 * (count % 4)) := by
  have hb := b.toNat_lt
  have hlt : count % 4 < 4 := Nat.mod_lt _ (by decide)
  rw [UInt32.toNat_add, UInt32.toNat_shiftLeft, toNat_shift, UInt8.toNat_toUInt32]
  generalize count % 4 = k at *
  interval_cases k <;> simp [Nat.shiftLeft_eq] at * <;> omega

theorem toNat_sub_shiftLeft {part : UInt32} {count : Nat}
    (hpart : 128 * 2 ^ (7 * (count % 4)) ≤ part.toNat) :
    (part - 0x80 <<< shift count).toNat = part.toNat - 128 * 2 ^ (7 * (count % 4)) := by
  have hlt : count % 4 < 4 := Nat.mod_lt _ (by decide)
  have hflag : ((0x80 : UInt32) <<< shift count).toNat = 128 * 2 ^ (7 * (count % 4)) := by
    rw [UInt32.toNat_shiftLeft, toNat_shift]
    generalize count % 4 = k at *
    interval_cases k <;> simp [Nat.shiftLeft_eq]
  rw [UInt32.toNat_sub_of_le, hflag]
  rw [UInt32.le_iff_toNat_le, hflag]
  exact hpart

/-- The next group goes to the piece of the byte `count`, above the groups that are there. -/
theorem Holds.modify {p : Parts} {count n x : Nat} (h : p.Holds count n) (hcount : count < 10)
    (hx : x < 128) {f : UInt32 → UInt32}
    (hf : ∀ part : UInt32, part.toNat < 2 ^ (7 * (count % 4)) →
      (f part).toNat = part.toNat + x * 2 ^ (7 * (count % 4))) :
    (p.modify count f).Holds (count + 1) (n + x * 2 ^ (7 * count)) := by
  obtain ⟨h0, h1, h2, hlt⟩ := h
  have hf0 := hf p.part0
  have hf1 := hf p.part1
  have hf2 := hf p.part2
  clear hf
  interval_cases count <;> simp [Parts.modify] at * <;> constructor <;> simp <;> omega

theorem Holds.toNat_value {p : Parts} {count n : Nat} (h : p.Holds count n) (hcount : count ≤ 10) :
    p.value.toNat = n % 2 ^ 64 := by
  obtain ⟨h0, h1, h2, hlt⟩ := h
  have hn : n < 2 ^ 70 := Nat.lt_of_lt_of_le hlt (Nat.pow_le_pow_right (by decide) (by omega))
  have hlow : (p.part0.toUInt64 ||| p.part1.toUInt64 <<< 28).toNat
      = p.part0.toNat + p.part1.toNat * 2 ^ 28 := by
    rw [show (28 : UInt64) = UInt64.ofNat 28 by rfl, toNat_or_shiftLeft (by decide),
      UInt32.toNat_toUInt64, UInt32.toNat_toUInt64]
    · omega
    · rw [UInt32.toNat_toUInt64]
      omega
  have hhigh : (p.part2.toUInt64 <<< 56).toNat = 2 ^ 56 * (p.part2.toNat % 2 ^ 8) := by
    rw [UInt64.toNat_shiftLeft, UInt32.toNat_toUInt64]
    simp [Nat.shiftLeft_eq]
    omega
  rw [value, UInt64.toNat_or, hlow, hhigh, Nat.or_comm, ← Nat.two_pow_add_eq_or_of_lt (by omega)]
  omega

end Parts

/-- The unrolled steps decode what is above the groups that the pieces hold.  By induction on the
bytes. -/
theorem readParts_eq_decodeFrom : ∀ (bytes : List UInt8) (count n : Nat) (p : Parts),
    count < 10 → p.Holds count n → 10 ≤ count + bytes.length →
      readParts count p bytes = decodeFrom count n bytes
  | [], count, n, p, hcount, _, hlength => by
    rw [List.length_nil] at hlength
    omega
  | b :: rest, count, n, p, hcount, hp, hlength => by
    rw [readParts]
    by_cases hflag : b.toNat < 128
    · have hadd : (p.add count b).Holds (count + 1) (n + b.toNat * 2 ^ (7 * count)) := by
        apply hp.modify hcount hflag
        exact fun part hpart => Parts.toNat_add_shiftLeft hpart
      rw [if_pos ((flag_eq_zero_iff b).mpr hflag), decodeFrom_last rest hflag hcount,
        Option.some.injEq, Prod.mk.injEq]
      refine ⟨UInt64.toNat_inj.mp ?_, rfl⟩
      rw [hadd.toNat_value (by omega), UInt64.toNat_ofNat']
    · have hcont : ¬ (b &&& 0x80 = 0) := by
        rw [flag_eq_zero_iff]
        exact hflag
      rw [if_neg hcont, decodeFrom_flag rest (Nat.le_of_not_lt hflag)]
      by_cases hnine : count = 9
      · -- the flag of the tenth byte
        rw [if_pos hnine, hnine, decodeFrom_ten]
      · rw [if_neg hnine]
        apply readParts_eq_decodeFrom rest (count + 1) _ _ (by omega) _
          (by rw [List.length_cons] at hlength; omega)
        have hdrop : (p.add count b).dropFlag count = p.modify count fun part =>
            part + b.toUInt32 <<< Parts.shift count - 0x80 <<< Parts.shift count := by
          unfold Parts.dropFlag Parts.add Parts.modify
          split
          · rfl
          · split <;> rfl
        rw [hdrop]
        apply hp.modify hcount (Nat.mod_lt _ (by decide))
        intro part hpart
        have hbyte := b.toNat_lt
        have hadd := Parts.toNat_add_shiftLeft (b := b) hpart
        have hsplit : b.toNat * 2 ^ (7 * (count % 4)) =
            b.toNat % 128 * 2 ^ (7 * (count % 4)) + 128 * 2 ^ (7 * (count % 4)) := by
          rw [← Nat.add_mul]
          congr 1
          omega
        rw [Parts.toNat_sub_shiftLeft (by omega), hadd]
        omega

/-- The decoder, which reads ten bytes at once where there are ten. -/
theorem readVarint64FromArray_eq_decode {bytes : List UInt8} (h : 10 ≤ bytes.length) :
    readVarint64FromArray bytes = decode bytes :=
  readParts_eq_decodeFrom bytes 0 0 _ (by decide) ⟨rfl, rfl, rfl, by decide⟩ (by omega)

theorem readCycle_eq_decode (bytes : List UInt8) :
    succeeded (readCycle 0 0 bytes) = decode bytes :=
  readCycle_eq_decodeFrom bytes 0 0 (by decide) (by decide)

theorem readVarint64Slowpath_eq_decode (bytes : List UInt8) :
    succeeded (readVarint64Slowpath bytes) = decode bytes := by
  unfold readVarint64Slowpath
  by_cases hnil : bytes = []
  · rw [if_pos hnil, hnil]
    rfl
  · rw [if_neg hnil]
    by_cases hten : 10 ≤ bytes.length
    · rw [if_pos hten, ← readVarint64FromArray_eq_decode hten]
      cases readVarint64FromArray bytes with
      | none => rfl
      | some r => rfl
    · rw [if_neg hten]
      exact readCycle_eq_decode bytes

theorem readVarint64_eq_decode (bytes : List UInt8) :
    succeeded (readVarint64 bytes) = decode bytes := by
  cases bytes with
  | nil => rfl
  | cons b rest =>
    rw [readVarint64]
    by_cases hlast : b < 0x80
    · have hlt : b.toNat < 128 := UInt8.lt_iff_toNat_lt.mp hlast
      rw [if_pos hlast, decode, decodeFrom_last rest hlt (by decide)]
      show some (b.toUInt64, rest) = _
      rw [Nat.zero_add, Nat.mul_zero, Nat.pow_zero, Nat.mul_one, ← UInt8.toNat_toUInt64,
        UInt64.ofNat_toNat]
    · rw [if_neg hlast]
      exact readVarint64Slowpath_eq_decode (b :: rest)

/-- By induction on the value. -/
theorem decodeFrom_writeVarint (v : UInt64) (rest : List UInt8) : ∀ count n : Nat,
    v.toNat * 2 ^ (7 * count) < 2 ^ 70 → count < 10 →
      decodeFrom count n (writeVarint v ++ rest) =
        some (UInt64.ofNat (n + v.toNat * 2 ^ (7 * count)), rest) := by
  induction hv : v.toNat using Nat.strongRecOn generalizing v with
  | ind m ih =>
    subst hv
    intro count n hfits hcount
    by_cases hle : 128 ≤ v.toNat
    · have hbyte : (UInt8.ofNat (v.toNat % 128 + 128)).toNat = v.toNat % 128 + 128 := by
        rw [UInt8.toNat_ofNat']
        omega
      have hgroups : v.toNat * 2 ^ (7 * count) =
          v.toNat % 128 * 2 ^ (7 * count) + v.toNat / 128 * 2 ^ (7 * (count + 1)) := by
        rw [show 7 * (count + 1) = 7 + 7 * count by omega, Nat.pow_add, ← Nat.mul_assoc,
          ← Nat.add_mul]
        congr 1
        omega
      have hnine : count ≠ 9 := by
        rintro rfl
        omega
      have hrest := ih _ (by rw [toNat_shiftRight_seven]; omega) (v >>> 7) rfl (count + 1)
        (n + v.toNat % 128 * 2 ^ (7 * count)) (by rw [toNat_shiftRight_seven]; omega) (by omega)
      rw [writeVarint_cons hle, List.cons_append, decodeFrom_flag _ (by omega), hbyte,
        show (v.toNat % 128 + 128) % 128 = v.toNat % 128 by omega, hrest, toNat_shiftRight_seven,
        hgroups, Nat.add_assoc]
    · have hbyte : v.toUInt8.toNat = v.toNat := by
        rw [UInt64.toNat_toUInt8]
        omega
      rw [writeVarint_singleton (by omega), List.singleton_append,
        decodeFrom_last rest (by omega) hcount, hbyte]

theorem decode_writeVarint (v : UInt64) (rest : List UInt8) :
    decode (writeVarint v ++ rest) = some (v, rest) := by
  have hlt := v.toNat_lt
  unfold decode
  rw [decodeFrom_writeVarint v rest 0 0 (by omega) (by decide), Nat.zero_add, Nat.mul_zero,
    Nat.pow_zero, Nat.mul_one, UInt64.ofNat_toNat]

/-- A number is read back, and the parser stands behind it. -/
theorem readVarint64_writeVarint (value : UInt64) (rest : List UInt8) :
    readVarint64 (writeVarint value ++ rest) = (some value, rest) :=
  eq_of_succeeded ((readVarint64_eq_decode _).trans (decode_writeVarint value rest))

theorem toNat_or_shiftLeft32 {low x : UInt32} {k : Nat} (hk : k < 32) (hlow : low.toNat < 2 ^ k)
    (hx : x.toNat * 2 ^ k < 2 ^ 32) :
    (low ||| x <<< UInt32.ofNat k).toNat = low.toNat + x.toNat * 2 ^ k := by
  rw [UInt32.toNat_or, UInt32.toNat_shiftLeft, UInt32.toNat_ofNat',
    Nat.mod_eq_of_lt (show k < 2 ^ 32 by omega), Nat.mod_eq_of_lt hk, Nat.shiftLeft_eq,
    Nat.mod_eq_of_lt hx, Nat.or_comm, Nat.mul_comm, ← Nat.two_pow_add_eq_or_of_lt hlow,
    Nat.add_comm]

theorem toNat_byte (value : UInt32) {k : Nat} (hk : k < 32) :
    ((value >>> UInt32.ofNat k) &&& 0xff).toUInt8.toUInt32.toNat = value.toNat / 2 ^ k % 256 := by
  rw [UInt8.toNat_toUInt32, UInt32.toNat_toUInt8, UInt32.toNat_and, UInt32.toNat_shiftRight,
    UInt32.toNat_ofNat', Nat.mod_eq_of_lt (show k < 2 ^ 32 by omega), Nat.mod_eq_of_lt hk,
    Nat.shiftRight_eq_div_pow, show (0xff : UInt32).toNat = 2 ^ 8 - 1 by rfl,
    Nat.and_two_pow_sub_one_eq_mod]
  omega

/-- Four bytes that do not overlap. -/
theorem toNat_four {b0 b1 b2 b3 : UInt32} (h0 : b0.toNat < 256) (h1 : b1.toNat < 256)
    (h2 : b2.toNat < 256) (h3 : b3.toNat < 256) :
    (b0 <<< 0 ||| b1 <<< 8 ||| b2 <<< 16 ||| b3 <<< 24).toNat
      = b0.toNat + b1.toNat * 2 ^ 8 + b2.toNat * 2 ^ 16 + b3.toNat * 2 ^ 24 := by
  have hz : b0 <<< 0 = b0 := by
    apply UInt32.toNat_inj.mp
    rw [UInt32.toNat_shiftLeft]
    simp
  have hone : (b0 ||| b1 <<< 8).toNat = b0.toNat + b1.toNat * 2 ^ 8 :=
    toNat_or_shiftLeft32 (k := 8) (by decide) (by omega) (by omega)
  have htwo : (b0 ||| b1 <<< 8 ||| b2 <<< 16).toNat = (b0 ||| b1 <<< 8).toNat + b2.toNat * 2 ^ 16 :=
    toNat_or_shiftLeft32 (k := 16) (by decide) (hone ▸ by omega) (by omega)
  have hthree : (b0 ||| b1 <<< 8 ||| b2 <<< 16 ||| b3 <<< 24).toNat =
      (b0 ||| b1 <<< 8 ||| b2 <<< 16).toNat + b3.toNat * 2 ^ 24 :=
    toNat_or_shiftLeft32 (k := 24) (by decide) (htwo ▸ hone ▸ by omega) (by omega)
  rw [hz]
  exact hthree.trans (by rw [← hone]; exact congrArg (· + b3.toNat * 2 ^ 24) htwo)

theorem readFixed32_writeFixed32 (value : UInt32) (rest : List UInt8) :
    readFixed32 (writeFixed32 value ++ rest) = (some value, rest) := by
  have h0 := toNat_byte value (k := 0) (by decide)
  have h1 := toNat_byte value (k := 8) (by decide)
  have h2 := toNat_byte value (k := 16) (by decide)
  have h3 := toNat_byte value (k := 24) (by decide)
  have hfour := toNat_four (h0 ▸ Nat.mod_lt _ (by decide)) (h1 ▸ Nat.mod_lt _ (by decide))
    (h2 ▸ Nat.mod_lt _ (by decide)) (h3 ▸ Nat.mod_lt _ (by decide))
  have hlt := value.toNat_lt
  rw [h0, h1, h2, h3] at hfour
  unfold readFixed32 writeFixed32
  simp only [List.cons_append, List.nil_append]
  congr 2
  apply UInt32.toNat_inj.mp
  refine hfour.trans ?_
  omega

theorem readStringPiece_writeString (value : StdString) (rest : List UInt8) :
    readStringPiece (writeString value ++ rest) = (some value, rest) := by
  unfold readStringPiece writeString
  rw [List.append_assoc, readVarint64_writeVarint]
  simp only [StdList.toNat_size]
  rw [if_neg (by simp)]
  congr 2
  · apply StdList.ext
    simp
  · simp

/-! ## A number that is cut short -/

/-- Bytes that all announce another byte. -/
theorem readVarint64_of_flags {bytes : List UInt8} (h : ∀ b ∈ bytes, 128 ≤ b.toNat) :
    (readVarint64 bytes).1 = none :=
  fst_of_succeeded_none ((readVarint64_eq_decode bytes).trans (decode_eq_none_iff.mpr (.inl h)))

theorem writeVarint_take_flags (value : UInt64) : ∀ {k : Nat}, k < (writeVarint value).length →
    ∀ b ∈ (writeVarint value).take k, 128 ≤ b.toNat := by
  induction hn : value.toNat using Nat.strongRecOn generalizing value with
  | ind n ih =>
    subst hn
    intro k hk b hb
    cases k with
    | zero => simp at hb
    | succ k =>
      by_cases hle : 128 ≤ value.toNat
      · rw [writeVarint_cons hle] at hk hb
        rw [List.take_succ_cons, List.mem_cons] at hb
        rcases hb with rfl | hb
        · rw [UInt8.toNat_ofNat']
          omega
        · exact ih _ (by rw [toNat_shiftRight_seven]; omega) (value >>> 7) rfl
            (by simpa using hk) b hb
      · rw [writeVarint_singleton (by omega)] at hk
        simp at hk

theorem length_writeVarint_le (value : UInt64) : ∀ k, value.toNat < 2 ^ (7 * (k + 1)) →
    (writeVarint value).length ≤ k + 1 := by
  induction hn : value.toNat using Nat.strongRecOn generalizing value with
  | ind n ih =>
    subst hn
    intro k hk
    by_cases hle : 128 ≤ value.toNat
    · cases k with
      | zero => omega
      | succ k =>
        have hrest := ih _ (by rw [toNat_shiftRight_seven]; omega) (value >>> 7) rfl k (by
          rw [toNat_shiftRight_seven]
          rw [show 7 * (k + 1 + 1) = 7 + 7 * (k + 1) by omega, Nat.pow_add] at hk
          omega)
        rw [writeVarint_cons hle, List.length_cons]
        omega
    · rw [writeVarint_singleton (by omega), List.length_singleton]
      omega

theorem two_le_length_writeVarint {value : UInt64} (hle : 128 ≤ value.toNat) :
    2 ≤ (writeVarint value).length := by
  have hrest := List.length_pos_iff.mpr (writeVarint_ne_nil (value >>> 7))
  rw [writeVarint_cons hle, List.length_cons]
  omega

/-- No proper prefix of a number is a number. -/
theorem readVarint64_take (value : UInt64) {k : Nat} (hk : k < (writeVarint value).length) :
    (readVarint64 ((writeVarint value).take k)).1 = none :=
  readVarint64_of_flags (writeVarint_take_flags value hk)

end Jumanpp.Util
