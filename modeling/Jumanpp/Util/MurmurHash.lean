import Jumanpp.Lib.LittleEndian

/-!
# The hash of a string

`murmurhash3_memory` is to compute the first word of `MurmurHash3_x64_128`.  Each full block of sixteen
bytes is copied into a pair of words that is zero before, and the copy is as long as a `size_t` is.
-/

namespace Jumanpp.Util.MurmurHash

open Jumanpp.Lib

structure OWORD where
  first : UInt64
  second : UInt64
  deriving DecidableEq

def OWORDSIZE : Nat := 16

/-- What `sizeof(OWORDSIZE)` is: `OWORDSIZE` is a `size_t` itself. -/
def sizeofOWORDSIZE : Nat := 8

def rotl64 (x r : UInt64) : UInt64 := (x <<< r) ||| (x >>> (64 - r))

def fmix64 (k : UInt64) : UInt64 :=
  let k := k ^^^ (k >>> 33)
  let k := k * 0xff51afd7ed558ccd
  let k := k ^^^ (k >>> 33)
  let k := k * 0xc4ceb9fe1a85ec53
  k ^^^ (k >>> 33)

def MURMUR_CONSTANT : OWORD := ⟨0x87c37b91114253d5, 0x4cf5ad432745937f⟩

def mur1_oword (block : OWORD) : OWORD where
  first := rotl64 (block.first * MURMUR_CONSTANT.first) 31 * MURMUR_CONSTANT.second
  second := rotl64 (block.second * MURMUR_CONSTANT.second) 33 * MURMUR_CONSTANT.first

def mur2_oword (block val : OWORD) : OWORD :=
  let first := (rotl64 (val.first ^^^ block.first) 27 + val.second) * 5 + 0x52dce729
  let second := (rotl64 (val.second ^^^ block.second) 31 + first) * 5 + 0x38495ab5
  ⟨first, second⟩

def murmur_oword (block val : OWORD) : OWORD := mur2_oword (mur1_oword block) val

/-- The statement of the label `n + 1`. -/
def tailByte (tail : List UInt8) (n : Nat) (key : OWORD) : OWORD :=
  let byte := (tail.getD n 0).toUInt64
  if 8 ≤ n then { key with second := key.second ^^^ byte <<< UInt64.ofNat (8 * (n - 8)) }
  else { key with first := key.first ^^^ byte <<< UInt64.ofNat (8 * n) }

/-- The switch from the label `n` on: it falls through to the labels below. -/
def fallThrough (tail : List UInt8) : Nat → OWORD → OWORD
  | 0, key => key
  | n + 1, key => fallThrough tail n (tailByte tail n key)

def get_tail (tail : List UInt8) (len : Nat) (key : OWORD) : OWORD :=
  fallThrough tail (len % 16) key

/-- A block as `memcpy` leaves it. -/
def loadBlock (s : List UInt8) (i : Nat) : OWORD :=
  let copied := (s.drop (i * OWORDSIZE)).take sizeofOWORDSIZE
  ⟨LittleEndian.word (copied.take 8), LittleEndian.word (copied.drop 8)⟩

/-- The loop over the blocks; the counter has 32 bits and the number of blocks 64. -/
def blockLoop (s : List UInt8) (block_size : Nat) : Nat → UInt32 → OWORD → Option OWORD
  | 0, _, _ => none
  | fuel + 1, i, value =>
      if i.toNat < block_size then
        blockLoop s block_size fuel (i + 1) (murmur_oword (loadBlock s i.toNat) value)
      else some value

/-- What is done after the blocks. -/
def finish (s : List UInt8) (block_size : Nat) (value : OWORD) : UInt64 :=
  let len := UInt64.ofNat s.length
  let tail := mur1_oword (get_tail (s.drop (block_size * OWORDSIZE)) s.length ⟨0, 0⟩)
  let first := value.first ^^^ tail.first ^^^ len
  let second := value.second ^^^ tail.second ^^^ len
  let first := first + second
  let second := second + first
  fmix64 first + fmix64 second

/-- No value when the loop has not ended within `fuel` turns. -/
def murmurhash3_memory (fuel : Nat) (s : List UInt8) (seed : UInt64) : Option UInt64 :=
  let block_size := s.length / OWORDSIZE
  (blockLoop s block_size fuel 0 ⟨seed, seed⟩).map (finish s block_size)

/-- The hash of the surface of an unknown word, as the bits of an `i32`. -/
def hashUnkString (fuel : Nat) (sp : List UInt8) : Option UInt32 :=
  (murmurhash3_memory fuel sp 0xa76210bf).map fun hash => hash.toUInt32 ||| 0x80000000

/-! ## The algorithm -/

namespace Algorithm

def c₁ : UInt64 := 0x87c37b91114253d5
def c₂ : UInt64 := 0x4cf5ad432745937f

def rotate (x : UInt64) (r : Nat) : UInt64 := ⟨x.toBitVec.rotateLeft r⟩

def mix₁ (k : UInt64) : UInt64 := rotate (k * c₁) 31 * c₂

def mix₂ (k : UInt64) : UInt64 := rotate (k * c₂) 33 * c₁

/-- One block of two words. -/
def body (h k : UInt64 × UInt64) : UInt64 × UInt64 :=
  let h₁ := (rotate (h.1 ^^^ mix₁ k.1) 27 + h.2) * 5 + 0x52dce729
  (h₁, (rotate (h.2 ^^^ mix₂ k.2) 31 + h₁) * 5 + 0x38495ab5)

/-- Both halves of the `i`-th block. -/
def block (s : List UInt8) (i : Nat) : UInt64 × UInt64 :=
  (LittleEndian.word ((s.drop (16 * i)).take 8), LittleEndian.word ((s.drop (16 * i + 8)).take 8))

def blocks (s : List UInt8) : List (UInt64 × UInt64) := (List.range (s.length / 16)).map (block s)

/-- The bytes after the last full block, in two halves as well. -/
def tail (s : List UInt8) : UInt64 × UInt64 := block s (s.length / 16)

def avalanche (k : UInt64) : UInt64 :=
  let k := (k ^^^ (k >>> 33)) * 0xff51afd7ed558ccd
  let k := (k ^^^ (k >>> 33)) * 0xc4ceb9fe1a85ec53
  k ^^^ (k >>> 33)

/-- The first word of `MurmurHash3_x64_128`, both words of the state starting with the seed. -/
def firstWord (s : List UInt8) (seed : UInt64) : UInt64 :=
  let h := (blocks s).foldl body (seed, seed)
  let len := UInt64.ofNat s.length
  let h₁ := h.1 ^^^ mix₁ (tail s).1 ^^^ len
  let h₂ := h.2 ^^^ mix₂ (tail s).2 ^^^ len
  avalanche (h₁ + h₂) + avalanche (h₂ + (h₁ + h₂))

end Algorithm

/-- The value is the first word of the algorithm, and no block enters with another half than its own. -/
structure HashesAllBytes (s : List UInt8) (seed : UInt64) : Prop where
  halves : ∀ i < s.length / OWORDSIZE,
    ((loadBlock s i).first, (loadBlock s i).second) = Algorithm.block s i
  value : ∃ fuel, murmurhash3_memory fuel s seed = some (Algorithm.firstWord s seed)

/-! ## One block -/

theorem rotl64_27 (x : UInt64) : rotl64 x 27 = Algorithm.rotate x 27 := rfl

theorem rotl64_31 (x : UInt64) : rotl64 x 31 = Algorithm.rotate x 31 := rfl

theorem rotl64_33 (x : UInt64) : rotl64 x 33 = Algorithm.rotate x 33 := rfl

def OWORD.pair (o : OWORD) : UInt64 × UInt64 := (o.first, o.second)

theorem mur1_oword_eq (block : OWORD) :
    mur1_oword block = ⟨Algorithm.mix₁ block.first, Algorithm.mix₂ block.second⟩ := by
  rw [mur1_oword, rotl64_31, rotl64_33]
  rfl

theorem pair_murmur_oword (block val : OWORD) :
    (murmur_oword block val).pair = Algorithm.body val.pair block.pair := by
  rw [murmur_oword, mur1_oword_eq, mur2_oword, rotl64_27, rotl64_31]
  rfl

/-! ## The tail -/

theorem tailByte_eq {tail : List UInt8} {n : Nat} (hn : n < tail.length) (hle : tail.length ≤ 16)
    (key : OWORD) :
    LittleEndian.word ((tail.take (n + 1)).take 8) ^^^ key.first =
        LittleEndian.word ((tail.take n).take 8) ^^^ (tailByte tail n key).first ∧
      LittleEndian.word ((tail.take (n + 1)).drop 8) ^^^ key.second =
        LittleEndian.word ((tail.take n).drop 8) ^^^ (tailByte tail n key).second := by
  have hbyte : tail.getD n 0 = tail[n] := List.getD_eq_getElem _ _ hn
  have htake : tail.take (n + 1) = tail.take n ++ [tail[n]] := by
    rw [List.take_append_getElem hn]
  have hlen : (tail.take n).length = n := by
    rw [List.length_take]
    omega
  rw [tailByte, hbyte, htake]
  by_cases h8 : 8 ≤ n
  · have hdrop : ((tail.take n).drop 8).length = n - 8 := by
      rw [List.length_drop, hlen]
    rw [if_pos h8, List.take_append_of_le_length (by omega), List.drop_append_of_le_length (by omega),
      LittleEndian.word_append_singleton (by omega), hdrop]
    exact ⟨rfl, by rw [UInt64.xor_assoc, UInt64.xor_comm (_ <<< _)]⟩
  · have hall : (tail.take n ++ [tail[n]]).take 8 = tail.take n ++ [tail[n]] := by
      apply List.take_of_length_le
      rw [List.length_append, hlen, List.length_singleton]
      omega
    rw [if_neg h8, hall, LittleEndian.word_append_singleton (by omega), hlen,
      List.take_of_length_le (by omega : (tail.take n).length ≤ 8),
      List.drop_eq_nil_of_le (by omega : (tail.take n).length ≤ 8), List.drop_eq_nil_of_le (by
        rw [List.length_append, hlen, List.length_singleton]
        omega)]
    exact ⟨by rw [UInt64.xor_assoc, UInt64.xor_comm (_ <<< _)], rfl⟩

/-- Each label puts one byte to its place, whatever those above it have put. -/
theorem fallThrough_eq {tail : List UInt8} {n : Nat} (hn : n ≤ tail.length)
    (hle : tail.length ≤ 16) (key : OWORD) :
    fallThrough tail n key =
      ⟨LittleEndian.word ((tail.take n).take 8) ^^^ key.first,
        LittleEndian.word ((tail.take n).drop 8) ^^^ key.second⟩ := by
  induction n generalizing key with
  | zero => simp [fallThrough]
  | succ n ih =>
      obtain ⟨hfirst, hsecond⟩ := tailByte_eq (by omega : n < tail.length) hle key
      rw [fallThrough, ih (by omega), hfirst, hsecond]

theorem get_tail_eq (s : List UInt8) :
    get_tail (s.drop (s.length / OWORDSIZE * OWORDSIZE)) s.length ⟨0, 0⟩ =
      ⟨(Algorithm.tail s).1, (Algorithm.tail s).2⟩ := by
  have hdrop : s.length / OWORDSIZE * OWORDSIZE = 16 * (s.length / 16) := Nat.mul_comm _ _
  have hlen : (s.drop (16 * (s.length / 16))).length = s.length % 16 := by
    rw [List.length_drop]
    omega
  rw [hdrop, get_tail, fallThrough_eq (by omega) (by omega), ← hlen, List.take_length,
    UInt64.xor_zero, UInt64.xor_zero, List.drop_drop]
  have hrest : (s.drop (16 * (s.length / 16) + 8)).take 8 = s.drop (16 * (s.length / 16) + 8) := by
    apply List.take_of_length_le
    rw [List.length_drop]
    omega
  rw [Algorithm.tail, Algorithm.block, hrest]

/-- What follows the blocks is what the algorithm does. -/
theorem finish_eq (s : List UInt8) (value : OWORD) :
    finish s (s.length / OWORDSIZE) value =
      (let len := UInt64.ofNat s.length
      let h₁ := value.first ^^^ Algorithm.mix₁ (Algorithm.tail s).1 ^^^ len
      let h₂ := value.second ^^^ Algorithm.mix₂ (Algorithm.tail s).2 ^^^ len
      Algorithm.avalanche (h₁ + h₂) + Algorithm.avalanche (h₂ + (h₁ + h₂))) := by
  rw [finish, get_tail_eq, mur1_oword_eq]
  rfl

/-! ## The blocks -/

/-- What the loop does with the blocks from the `i`-th on. -/
def foldBlocks (s : List UInt8) (i k : Nat) (value : OWORD) : OWORD :=
  (List.range' i k).foldl (fun value j => murmur_oword (loadBlock s j) value) value

theorem foldBlocks_succ (s : List UInt8) (i k : Nat) (value : OWORD) :
    foldBlocks s i (k + 1) value = foldBlocks s (i + 1) k (murmur_oword (loadBlock s i) value) := by
  rw [foldBlocks, List.range'_succ, List.foldl_cons, foldBlocks]

theorem blockLoop_eq {s : List UInt8} {block_size : Nat} (hsize : block_size < 2 ^ 32) {k : Nat}
    {i : UInt32} (hi : i.toNat + k = block_size) (value : OWORD) :
    blockLoop s block_size (k + 1) i value = some (foldBlocks s i.toNat k value) := by
  induction k generalizing i value with
  | zero =>
      rw [blockLoop, if_neg (by omega)]
      rfl
  | succ k ih =>
      have hnext : (i + 1).toNat = i.toNat + 1 := by
        rw [UInt32.toNat_add]
        exact Nat.mod_eq_of_lt (by
          show i.toNat + 1 < 2 ^ 32
          omega)
      rw [blockLoop, if_pos (by omega), ih (by omega), hnext, foldBlocks_succ]

/-- A counter of 32 bits is below such a number of blocks for ever. -/
theorem blockLoop_none {s : List UInt8} {block_size : Nat} (hsize : 2 ^ 32 ≤ block_size) (fuel : Nat)
    (i : UInt32) (value : OWORD) : blockLoop s block_size fuel i value = none := by
  induction fuel generalizing i value with
  | zero => rfl
  | succ fuel ih =>
      rw [blockLoop, if_pos (i.toNat_lt.trans_le hsize)]
      exact ih _ _

theorem blockLoop_add {s : List UInt8} {block_size fuel : Nat} {i : UInt32} {value r : OWORD}
    (h : blockLoop s block_size fuel i value = some r) (more : Nat) :
    blockLoop s block_size (fuel + more) i value = some r := by
  induction fuel generalizing i value with
  | zero => simp [blockLoop] at h
  | succ fuel ih =>
      rw [Nat.succ_add, blockLoop]
      rw [blockLoop] at h
      by_cases hlt : i.toNat < block_size
      · rw [if_pos hlt] at h ⊢
        exact ih h
      · rw [if_neg hlt] at h ⊢
        exact h

/-- The value does not depend on the number of turns that were allowed. -/
theorem murmurhash3_memory_unique {s : List UInt8} {seed : UInt64} {fuel fuel' : Nat} {h h' : UInt64}
    (hfuel : murmurhash3_memory fuel s seed = some h)
    (hfuel' : murmurhash3_memory fuel' s seed = some h') : h = h' := by
  obtain ⟨r, hr, rfl⟩ := Option.map_eq_some_iff.mp hfuel
  obtain ⟨r', hr', rfl⟩ := Option.map_eq_some_iff.mp hfuel'
  have heq := blockLoop_add hr fuel'
  rw [Nat.add_comm, blockLoop_add hr' fuel] at heq
  rw [Option.some.inj heq]

theorem pair_foldBlocks {s : List UInt8} {n : Nat}
    (h : ∀ i < n, (loadBlock s i).pair = Algorithm.block s i) (i k : Nat) (hik : i + k ≤ n)
    (value : OWORD) :
    (foldBlocks s i k value).pair =
      ((List.range' i k).map (Algorithm.block s)).foldl Algorithm.body value.pair := by
  induction k generalizing i value with
  | zero => rfl
  | succ k ih =>
      rw [foldBlocks_succ, List.range'_succ, List.map_cons, List.foldl_cons, ← h i (by omega),
        ← pair_murmur_oword]
      exact ih (i + 1) (by omega) _

theorem loadBlock_eq (s : List UInt8) (i : Nat) :
    loadBlock s i = ⟨LittleEndian.word ((s.drop (16 * i)).take 8), 0⟩ := by
  have hcopied : ((s.drop (i * OWORDSIZE)).take sizeofOWORDSIZE).drop 8 = [] := by
    apply List.drop_eq_nil_of_le
    rw [List.length_take]
    exact Nat.min_le_left _ _
  rw [loadBlock, hcopied, List.take_take, show i * OWORDSIZE = 16 * i from Nat.mul_comm _ _]
  rfl

theorem pair_loadBlock_iff (s : List UInt8) (i : Nat) :
    (loadBlock s i).pair = Algorithm.block s i ↔ ∀ b ∈ (s.drop (16 * i + 8)).take 8, b = 0 := by
  rw [← LittleEndian.word_eq_zero_iff (List.length_take_le 8 _), loadBlock_eq, Algorithm.block,
    OWORD.pair, Prod.mk.injEq]
  exact ⟨fun h => h.2.symm, fun h => ⟨rfl, h.symm⟩⟩

/-! ## The hash -/

theorem murmurhash3_memory_eq {s : List UInt8} (hlen : s.length < 2 ^ 36)
    (h : ∀ i < s.length / OWORDSIZE, (loadBlock s i).pair = Algorithm.block s i) (seed : UInt64) :
    murmurhash3_memory (s.length / OWORDSIZE + 1) s seed = some (Algorithm.firstWord s seed) := by
  have hsize : s.length / OWORDSIZE < 2 ^ 32 := by
    unfold OWORDSIZE
    omega
  have hfold : (foldBlocks s 0 (s.length / OWORDSIZE) ⟨seed, seed⟩).pair =
      (Algorithm.blocks s).foldl Algorithm.body (seed, seed) := by
    rw [Algorithm.blocks, List.range_eq_range']
    exact pair_foldBlocks h 0 (s.length / OWORDSIZE) (Nat.le_of_eq (Nat.zero_add _)) ⟨seed, seed⟩
  rw [murmurhash3_memory, blockLoop_eq hsize (Nat.zero_add _)]
  show some (finish s _ (foldBlocks s 0 (s.length / OWORDSIZE) ⟨seed, seed⟩)) = _
  rw [finish_eq, Algorithm.firstWord, ← hfold]
  rfl

theorem murmurhash3_memory_none {s : List UInt8} (hlen : 2 ^ 36 ≤ s.length) (fuel : Nat)
    (seed : UInt64) : murmurhash3_memory fuel s seed = none := by
  rw [murmurhash3_memory, blockLoop_none (by unfold OWORDSIZE; omega)]
  rfl

theorem blockLoop_congr {s t : List UInt8} {block_size : Nat}
    (h : ∀ i < block_size, loadBlock s i = loadBlock t i) (fuel : Nat) (i : UInt32) (value : OWORD) :
    blockLoop s block_size fuel i value = blockLoop t block_size fuel i value := by
  induction fuel generalizing i value with
  | zero => rfl
  | succ fuel ih =>
      rw [blockLoop, blockLoop]
      by_cases hlt : i.toNat < block_size
      · rw [if_pos hlt, if_pos hlt, h _ hlt, ih]
      · rw [if_neg hlt, if_neg hlt]

/-- The second halves of the full blocks have no influence on the hash. -/
theorem murmurhash3_memory_congr {s t : List UInt8} (hlen : s.length = t.length)
    (hfirst : ∀ i < s.length / 16, (s.drop (16 * i)).take 8 = (t.drop (16 * i)).take 8)
    (hrest : s.drop (s.length / 16 * 16) = t.drop (s.length / 16 * 16)) (fuel : Nat) (seed : UInt64) :
    murmurhash3_memory fuel s seed = murmurhash3_memory fuel t seed := by
  have hblocks : ∀ i < s.length / OWORDSIZE, loadBlock s i = loadBlock t i := by
    intro i hi
    rw [loadBlock_eq, loadBlock_eq, hfirst i hi]
  have hfinish : finish s (s.length / OWORDSIZE) = finish t (s.length / OWORDSIZE) := by
    funext value
    rw [finish, finish, hlen, ← hlen, show s.drop (s.length / OWORDSIZE * OWORDSIZE) =
      t.drop (s.length / OWORDSIZE * OWORDSIZE) from hrest]
  rw [murmurhash3_memory, murmurhash3_memory, ← hlen, blockLoop_congr hblocks, hfinish]

/-- As an `i32` the hash of an unknown word is negative, so it is never an entry of the dictionary. -/
theorem hashUnkString_negative {fuel : Nat} {sp : List UInt8} {h : UInt32}
    (hsp : hashUnkString fuel sp = some h) : h.toInt32 < 0 := by
  obtain ⟨hash, -, rfl⟩ := Option.map_eq_some_iff.mp hsp
  rw [Int32.lt_iff_toInt_lt]
  apply BitVec.toInt_neg_of_msb_true
  show (hash.toUInt32.toBitVec ||| 0x80000000#32).msb = true
  rw [BitVec.msb_or]
  exact Bool.or_true _

/-- The strings whose hash is the one of the algorithm, with all their bytes in it. -/
theorem hashesAllBytes_iff (s : List UInt8) (seed : UInt64) :
    HashesAllBytes s seed ↔ s.length < 2 ^ 36 ∧
      ∀ i < s.length / 16, ∀ b ∈ (s.drop (16 * i + 8)).take 8, b = 0 := by
  constructor
  · intro h
    refine ⟨?_, fun i hi => (pair_loadBlock_iff s i).mp (h.halves i hi)⟩
    by_contra hlen
    obtain ⟨fuel, hfuel⟩ := h.value
    rw [murmurhash3_memory_none (by omega)] at hfuel
    cases hfuel
  · rintro ⟨hlen, hzero⟩
    have hhalves : ∀ i < s.length / OWORDSIZE, (loadBlock s i).pair = Algorithm.block s i :=
      fun i hi => (pair_loadBlock_iff s i).mpr (hzero i hi)
    exact ⟨hhalves, _, murmurhash3_memory_eq hlen hhalves seed⟩

/-- A block that is zero but for the first byte of its second half. -/
def secondHalf : List UInt8 := List.replicate 8 0 ++ 1 :: List.replicate 7 0

theorem secondHalf_hash_ne :
    ¬ ∃ fuel, murmurhash3_memory fuel secondHalf 0 = some (Algorithm.firstWord secondHalf 0) := by
  rintro ⟨fuel, hfuel⟩
  have hzero : murmurhash3_memory 2 secondHalf 0 =
      some (Algorithm.firstWord (List.replicate 16 0) 0) := by
    decide +kernel
  have hne : Algorithm.firstWord (List.replicate 16 0) 0 ≠ Algorithm.firstWord secondHalf 0 := by
    decide +kernel
  exact hne (murmurhash3_memory_unique hzero hfuel)

end Jumanpp.Util.MurmurHash
