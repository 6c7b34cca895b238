import Mathlib.Data.List.Basic
import Mathlib.Tactic.Common

/-!
# Code points and their classes

The input is decoded from UTF-8 into code points, each with its class (a set of flags) and the bytes
that it was read from.
-/

namespace Jumanpp.Util

/-- Flags of 32 bits. -/
abbrev CharacterClass := BitVec 32

namespace CharacterClass

def SPACE : CharacterClass := 0x00000001
def IDEOGRAPHIC_PUNC : CharacterClass := 0x00000002
def KANJI : CharacterClass := 0x00000004
def FIGURE : CharacterClass := 0x00000008
def PERIOD : CharacterClass := 0x00000010
def MIDDLE_DOT : CharacterClass := 0x00000020
def COMMA : CharacterClass := 0x00000040
def ALPH : CharacterClass := 0x00000080
def SYMBOL : CharacterClass := 0x00000100
def KATAKANA : CharacterClass := 0x00000200
def HIRAGANA : CharacterClass := 0x00000400
def KANJI_FIGURE : CharacterClass := 0x00000800
def SLASH : CharacterClass := 0x00001000
def COLON : CharacterClass := 0x00002000
def ERA : CharacterClass := 0x00004000
def CHOON : CharacterClass := 0x00008000
def HANKAKU_KANA : CharacterClass := 0x00010000
def BRACKET : CharacterClass := 0x00020000
def FIGURE_EXCEPTION : CharacterClass := 0x00040000
def FIGURE_DIGIT : CharacterClass := 0x00080000
def SMALL_KANA : CharacterClass := 0x00100000

def FAMILY_NUM_PERIOD : CharacterClass := PERIOD ||| MIDDLE_DOT
def FAMILY_DOUBLE : CharacterClass :=
  KATAKANA ||| HIRAGANA ||| HANKAKU_KANA ||| SMALL_KANA ||| KANJI ||| CHOON
def FAMILY_EXCEPTION : CharacterClass := FIGURE ||| KANJI_FIGURE ||| FIGURE_EXCEPTION
def FAMILY_PROLONGABLE : CharacterClass := KANJI ||| HIRAGANA ||| KATAKANA
def FAMILY_FULL_KANA : CharacterClass := HIRAGANA ||| KATAKANA
def FAMILY_OTHERS : CharacterClass := 0x00000000
def FAMILY_ANYTHING : CharacterClass := 0x7fffffff

end CharacterClass

def IsCompatibleCharClass (realCharClass familyOrTarget : CharacterClass) : Bool :=
  realCharClass &&& familyOrTarget != CharacterClass.FAMILY_OTHERS

def lowercase : List Nat :=
  [0x3041, 0x3043, 0x3045, 0x3047, 0x3049, 0x3063, 0x3083, 0x3085, 0x3087, 0x308E, 0x3095, 0x3096,
    0x30A1, 0x30A3, 0x30A5, 0x30A7, 0x30A9, 0x30C3, 0x30E3, 0x30E5, 0x30E7, 0x30EE, 0x30F5, 0x30F6]

def brackets : List Nat :=
  [0x0028, 0x0029, 0x005B, 0x005D, 0x007B, 0x007D, 0x0F3A, 0x0F3B, 0x0F3C, 0x0F3D, 0x169B, 0x169C,
    0x2045, 0x2046, 0x207D, 0x207E, 0x208D, 0x208E, 0x2308, 0x2309, 0x230A, 0x230B, 0x2329, 0x232A,
    0x2768, 0x2769, 0x276A, 0x276B, 0x276C, 0x276D, 0x276E, 0x276F, 0x2770, 0x2771, 0x2772, 0x2773,
    0x2774, 0x2775, 0x27C5, 0x27C6, 0x27E6, 0x27E7, 0x27E8, 0x27E9, 0x27EA, 0x27EB, 0x27EC, 0x27ED,
    0x27EE, 0x27EF, 0x2983, 0x2984, 0x2985, 0x2986, 0x2987, 0x2988, 0x2989, 0x298A, 0x298B, 0x298C,
    0x298D, 0x2990, 0x298F, 0x298E, 0x2991, 0x2992, 0x2993, 0x2994, 0x2995, 0x2996, 0x2997, 0x2998,
    0x29D8, 0x29D9, 0x29DA, 0x29DB, 0x29FC, 0x29FD, 0x2E22, 0x2E23, 0x2E24, 0x2E25, 0x2E26, 0x2E27,
    0x2E28, 0x2E29, 0x3008, 0x3009, 0x300A, 0x300B, 0x300C, 0x300D, 0x300E, 0x300F, 0x3010, 0x3011,
    0x3014, 0x3015, 0x3016, 0x3017, 0x3018, 0x3019, 0x301A, 0x301B, 0xFE59, 0xFE5A, 0xFE5B, 0xFE5C,
    0xFE5D, 0xFE5E, 0xFF08, 0xFF09, 0xFF3B, 0xFF3D, 0xFF5B, 0xFF5D, 0xFF5F, 0xFF60, 0xFF62, 0xFF63]

open CharacterClass in
def getCodeType (code : Nat) : CharacterClass :=
  if code ∈ [0x20, 0x3000, 0xA0, 0x1680, 0x180E, 0x202F, 0x205F, 0xFEFF] ∨
      0x2000 ≤ code ∧ code ≤ 0x200B then
    SPACE
  else if code > 0x3000 ∧ code < 0x3003 then
    IDEOGRAPHIC_PUNC
  else if 0x337B ≤ code ∧ code ≤ 0x337E then
    SYMBOL ||| ERA
  -- hiragana and the iteration marks ゝ, ゞ and ゟ
  else if code > 0x303f ∧ code < 0x30a0 ∨ code ∈ [0x309D, 0x309E, 0x309F] then
    if code ∈ lowercase then HIRAGANA ||| SMALL_KANA else HIRAGANA
  -- katakana and the iteration marks ヽ, ヾ and ヿ
  else if code > 0x309f ∧ code < 0x30fb ∨ code ∈ [0x30FD, 0x30FE, 0x30FF] then
    if code ∈ lowercase then KATAKANA ||| SMALL_KANA else KATAKANA
  -- ー, 〜, ～ and ∼
  else if code ∈ [0x30FC, 0x301C, 0xFF5E, 0x223C] then
    FAMILY_FULL_KANA ||| CHOON
  else if code = 0xFF70 then
    HANKAKU_KANA ||| CHOON
  else if 0xFF66 ≤ code ∧ code ≤ 0xFF9F then
    HANKAKU_KANA
  else if code = 0x00B7 ∨ code = 0x30fb then
    MIDDLE_DOT
  else if code = 0x002C ∨ code = 0xff0c then
    COMMA
  else if code = 0x002F ∨ code = 0xff0f then
    SLASH
  else if code = 0x003A ∨ code = 0xff1a then
    COLON
  else if code = 0xff0e then
    PERIOD
  else if code > 0x2f ∧ code < 0x3a ∨ code > 0xff0f ∧ code < 0xff1a then
    FIGURE
  -- ○〇零一二三四五六七八九
  else if code ∈ [0x25cb, 0x3007, 0x96f6, 0x4e00, 0x4e8c, 0x4e09, 0x56db, 0x4e94, 0x516d, 0x4e03,
      0x516b, 0x4e5d] then
    KANJI_FIGURE ||| KANJI
  -- 十百千万億兆数何幾
  else if code ∈ [0x5341, 0x767e, 0x5343, 0x4e07, 0x5104, 0x5146, 0x6570, 0x4F55, 0x5E7E] then
    if code = 0x6570 ∨ code = 0x4F55 ∨ code = 0x5E7E then FIGURE_EXCEPTION ||| KANJI
    else KANJI_FIGURE ||| FIGURE_DIGIT
  else if code ≥ 0x40 ∧ code ≤ 0x5b ∨ code ≥ 0x60 ∧ code ≤ 0x7b ∨ code ≥ 0xbf ∧ code ≤ 0x0100 ∨
      code ≥ 0xff20 ∧ code ≤ 0xff3b ∨ code ≥ 0xff40 ∧ code ≤ 0xff5b ∨
      code ≥ 0x370 ∧ code ≤ 0x3ff ∨ code ≥ 0x400 ∧ code ≤ 0x4ff then
    ALPH
  else if code > 0x4dff ∧ code < 0xa000 ∨ code = 0x3005 ∨ code = 0x3007 then
    KANJI
  else if code ∈ brackets then
    BRACKET
  else
    SYMBOL

structure CodePointInfo where
  codepoint : Nat
  utf8Length : Nat
deriving DecidableEq

/-- `((b & ~0x3f) ^ 0x80) == 0`. -/
def isTrail (b : UInt8) : Bool :=
  ((b &&& ~~~0x3f) ^^^ 0x80) == 0

def trailBits (b : UInt8) : Nat :=
  (b &&& 0x3f).toNat

/-- The first code point of some bytes; the length is 0 when there is none. -/
def getCodepoint : List UInt8 → CodePointInfo
  | [] => ⟨0, 0⟩
  | b0 :: rest =>
      if b0 > 0xef then
        match rest with
        | b1 :: b2 :: b3 :: _ =>
            if ((b0 &&& ~~~0x7) ^^^ 0xf0) == 0 && isTrail b1 && isTrail b2 && isTrail b3 then
              ⟨(b0 &&& 0x07).toNat <<< 18 ||| trailBits b1 <<< 12 ||| trailBits b2 <<< 6 |||
                trailBits b3, 4⟩
            else ⟨0, 0⟩
        | _ => ⟨0, 0⟩
      else if b0 > 0xdf then
        match rest with
        | b1 :: b2 :: _ =>
            if ((b0 &&& ~~~0xf) ^^^ 0xe0) == 0 && isTrail b1 && isTrail b2 then
              ⟨(b0 &&& 0x0f).toNat <<< 12 ||| trailBits b1 <<< 6 ||| trailBits b2, 3⟩
            else ⟨0, 0⟩
        | _ => ⟨0, 0⟩
      else if b0 > 0x7f then
        match rest with
        | b1 :: _ =>
            if ((b0 &&& ~~~0x1f) ^^^ 0xc0) == 0 && isTrail b1 then
              ⟨(b0 &&& 0x1f).toNat <<< 6 ||| trailBits b1, 2⟩
            else ⟨0, 0⟩
        | _ => ⟨0, 0⟩
      else ⟨(b0 &&& 0x7f).toNat, 1⟩

structure InputCodepoint where
  codepoint : Nat
  charClass : CharacterClass
  bytes : List UInt8
deriving DecidableEq

namespace InputCodepoint

def hasClass (cp : InputCodepoint) (queryClass : CharacterClass) : Bool :=
  IsCompatibleCharClass cp.charClass queryClass

/-- `InputCodepoint{sp}`. -/
def ofBytes (bytes : List UInt8) : InputCodepoint :=
  let codepoint := (getCodepoint bytes).codepoint
  ⟨codepoint, getCodeType codepoint, bytes⟩

end InputCodepoint

/-- The loop of `preprocessRawData`; a turn takes at least one byte. -/
def preprocessFrom : Nat → List UInt8 → Option (List InputCodepoint)
  | _, [] => some []
  | 0, _ => none
  | turns + 1, bytes =>
      let ret := getCodepoint bytes
      if ret.utf8Length = 0 then none
      else (preprocessFrom turns (bytes.drop ret.utf8Length)).map
        (⟨ret.codepoint, getCodeType ret.codepoint, bytes.take ret.utf8Length⟩ :: ·)

/-- The code points of some bytes, or nothing when they are not UTF-8. -/
def preprocessRawData (utf8data : List UInt8) : Option (List InputCodepoint) :=
  preprocessFrom utf8data.length utf8data

theorem length_preprocessFrom {turns : Nat} {bytes : List UInt8} {points : List InputCodepoint}
    (h : preprocessFrom turns bytes = some points) : points.length ≤ bytes.length := by
  induction turns generalizing bytes points with
  | zero =>
      cases bytes with
      | nil => cases h; exact Nat.le_refl 0
      | cons => cases h
  | succ turns ih =>
      cases bytes with
      | nil => cases h; exact Nat.le_refl 0
      | cons b bytes =>
          simp only [preprocessFrom] at h
          split at h
          next => cases h
          next hlength =>
            obtain ⟨rest, hrest, rfl⟩ := Option.map_eq_some_iff.mp h
            have hle := ih hrest
            rw [List.length_drop] at hle
            simp only [List.length_cons] at hle ⊢
            omega

/-- Each code point is read from at least one byte. -/
theorem mem_preprocessFrom {turns : Nat} {bytes : List UInt8} {points : List InputCodepoint}
    (h : preprocessFrom turns bytes = some points) :
    ∀ cp ∈ points, cp.charClass = getCodeType cp.codepoint ∧ cp.bytes ≠ [] := by
  induction turns generalizing bytes points with
  | zero =>
      cases bytes with
      | nil => cases h; exact fun cp hcp => nomatch hcp
      | cons => cases h
  | succ turns ih =>
      cases bytes with
      | nil => cases h; exact fun cp hcp => nomatch hcp
      | cons b bytes =>
          simp only [preprocessFrom] at h
          split at h
          next => cases h
          next hlength =>
            obtain ⟨rest, hrest, rfl⟩ := Option.map_eq_some_iff.mp h
            intro cp hcp
            obtain rfl | hcp := List.mem_cons.mp hcp
            · refine ⟨rfl, fun hnil => ?_⟩
              obtain hzero | hnil := List.take_eq_nil_iff.mp hnil
              · exact hlength hzero
              · cases hnil
            · exact ih hrest cp hcp

theorem compatible_ite {p : Prop} [Decidable p] {c1 c2 query : CharacterClass}
    (h1 : IsCompatibleCharClass c1 query = true) (h2 : IsCompatibleCharClass c2 query = true) :
    IsCompatibleCharClass (if p then c1 else c2) query = true := by
  split <;> assumption

/-- Every character belongs to some class. -/
theorem getCodeType_anything (code : Nat) :
    IsCompatibleCharClass (getCodeType code) CharacterClass.FAMILY_ANYTHING = true := by
  unfold getCodeType
  repeat' refine compatible_ite ?_ ?_
  all_goals decide

/-- ASCII text has a code point for each byte. -/
theorem preprocessFrom_replicate {b : UInt8} (hb : b ≤ 0x7f) (n : Nat) :
    preprocessFrom n (List.replicate n b) = some (List.replicate n (InputCodepoint.ofBytes [b])) := by
  have hinfo : ∀ rest, getCodepoint (b :: rest) = ⟨(b &&& 0x7f).toNat, 1⟩ := by
    intro rest
    have hle : b.toNat ≤ 0x7f := hb
    have hsmall : ∀ k : UInt8, 0x7f ≤ k.toNat → ¬b > k := by
      intro k hk
      rw [gt_iff_lt, UInt8.not_lt, UInt8.le_iff_toNat_le]
      exact Nat.le_trans hle hk
    simp only [getCodepoint]
    rw [if_neg (hsmall _ (by decide)), if_neg (hsmall _ (by decide)), if_neg (hsmall _ (by decide))]
  induction n with
  | zero => rfl
  | succ n ih =>
      rw [List.replicate_succ, List.replicate_succ]
      unfold preprocessFrom
      simp only [hinfo, List.drop_succ_cons, List.drop_zero, ih, List.take_succ_cons,
        List.take_zero, Option.map_some]
      unfold InputCodepoint.ofBytes
      rw [hinfo]
      rfl

end Jumanpp.Util
