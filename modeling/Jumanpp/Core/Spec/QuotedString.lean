import Jumanpp.Lib.Buffer
import Jumanpp.Util.CharBuffer
import Jumanpp.Util.CsvRoundTrip

/-!
# Quoted strings of the spec language

A quoted string stands between quotes and has each of its own quotes doubled.  `qstring` finds where the
literal ends, and the action `StoreQuotedStringParam` makes the string of it.  The input is modelled by
the bytes from the current position to its end.
-/

namespace Jumanpp.Core.Spec

open Jumanpp.Lib Jumanpp.Util

/-- `'"'`. -/
def quote : UInt8 := 34

/-! ## The grammar rule -/

/-- The loop of `qstring::match` from `ptr` on; `strlen` is `ptr - in.current()`. -/
def qstringLoop : List UInt8 → Nat → Option Nat
  | [], _ => none
  | [c], strlen => if c = quote then some (strlen + 1) else none
  | c :: nextChar :: rest, strlen =>
      if c = quote then
        if nextChar = quote then qstringLoop rest (strlen + 2) else some (strlen + 1)
      else qstringLoop (nextChar :: rest) (strlen + 1)

/-- `qstring::match`: how far the input is bumped. -/
def qstring : List UInt8 → Option Nat
  | first :: second :: rest =>
      if first ≠ quote then none
      -- the empty string at the end of the input
      else if rest = [] ∧ second = quote then some 2
      else qstringLoop (second :: rest) 1
  | _ => none

/-! ## The action -/

inductive ParseStop
  | parse_error (message : String)
  /-- Memory behind the page is written or read. -/
  | outOfPage
  deriving DecidableEq

/-- What the action uses of the parser.  `stringParam` has the bytes that the `StringPiece` refers to. -/
structure SpecParserImpl where
  charBuffer : CharBuffer charBufferPage
  stringParam : List UInt8

variable {pageSize : Nat}

def writeChar (page : Page pageSize) (i : Nat) (c : UInt8) : Option (Page pageSize) :=
  if h : i < pageSize then some (page.set i c h) else none

/-- The body of the unescaping loop.  Of the page `chars` is the part from `begin_` on, and nothing
keeps `tail` below its size. -/
def unescapeTurn (begin_ head : Nat) (s : Page pageSize × Nat) : Option (Page pageSize × Nat) :=
  (s.1[begin_ + head]?).bind fun c =>
    (writeChar s.1 (begin_ + s.2) c).bind fun page =>
      (page[begin_ + head]?).map fun c =>
        (page, if c = quote then s.2 + 1 + 1 else s.2 + 1)

/-- The page and `tail` after the loop. -/
def unescape (page : Page pageSize) (begin_ size : Nat) : Option (Page pageSize × Nat) :=
  let start := ((page.toList.drop begin_).take size).findIdx (· == quote)
  forRange (unescapeTurn begin_) (start + 1) (size - (start + 1)) (page, start)

/-- `StoreQuotedStringParam::apply` on the bytes that the rule has matched. -/
def storeQuotedStringParam (sp : SpecParserImpl) (next : Page charBufferPage)
    (matched : List UInt8) : Except ParseStop SpecParserImpl :=
  let quoted := (matched.drop 1).dropLast
  if quoted.any (· == quote) = false then .ok { sp with stringParam := quoted }
  else
    match sp.charBuffer.importMutable next quoted with
    | none => .error (.parse_error "failed to import quoted string")
    | some (charBuffer, begin_) =>
        match unescape charBuffer.current begin_ quoted.length with
        | none => .error .outOfPage
        | some (page, tail) =>
            if begin_ + tail ≤ charBufferPage then
              .ok { charBuffer := { charBuffer with current := page }
                    stringParam := (page.toList.drop begin_).take tail }
            else .error .outOfPage

/-- The rule and its action: the parser afterwards and the rest of the input. -/
def parseQstringParam (sp : SpecParserImpl) (next : Page charBufferPage) (input : List UInt8) :
    Except ParseStop (Option (SpecParserImpl × List UInt8)) :=
  match qstring input with
  | none => .ok none
  | some strlen => do
      let sp ← storeQuotedStringParam sp next (input.take strlen)
      pure (some (sp, input.drop strlen))

/-! ## Literals -/

/-- The literal of a string. -/
def literal (s : List UInt8) : List UInt8 :=
  quote :: Csv.escape quote s ++ [quote]

/-- Exactly `s` is stored, and `rest` is what is left of the input. -/
def SpecParserImpl.ParsesTo (sp : SpecParserImpl) (next : Page charBufferPage)
    (input s rest : List UInt8) : Prop :=
  ∃ sp', parseQstringParam sp next input = .ok (some (sp', rest)) ∧ sp'.stringParam = s

theorem qstringLoop_escape (s rest : List UInt8) (hrest : rest.head? ≠ some quote) (strlen : Nat) :
    qstringLoop (Csv.escape quote s ++ quote :: rest) strlen =
      some (strlen + (Csv.escape quote s).length + 1) := by
  induction s generalizing strlen with
  | nil =>
      cases rest with
      | nil => simp [Csv.escape, qstringLoop]
      | cons nextChar rest =>
          have hnext : nextChar ≠ quote := by simpa using hrest
          simp [Csv.escape, qstringLoop, hnext]
  | cons c s ih =>
      rw [Csv.escape_cons]
      by_cases hc : c = quote
      · rw [if_pos hc]
        show qstringLoop (quote :: quote :: (Csv.escape quote s ++ quote :: rest)) strlen = _
        rw [qstringLoop, if_pos rfl, if_pos rfl, ih]
        simp
        omega
      · rw [if_neg hc]
        have hstep : ∀ tail : List UInt8, tail ≠ [] →
            qstringLoop (c :: tail) strlen = qstringLoop tail (strlen + 1) := by
          intro tail htail
          cases tail with
          | nil => exact absurd rfl htail
          | cons next tail => rw [qstringLoop, if_neg hc]
        show qstringLoop (c :: (Csv.escape quote s ++ quote :: rest)) strlen = _
        rw [hstep _ (by simp), ih]
        simp
        omega

/-- The rule matches the whole literal and nothing behind it. -/
theorem qstring_literal (s rest : List UInt8) (hrest : rest.head? ≠ some quote) :
    qstring (literal s ++ rest) = some (literal s).length := by
  have htext : literal s ++ rest = quote :: (Csv.escape quote s ++ quote :: rest) := by
    simp [literal]
  have hloop := qstringLoop_escape s rest hrest 1
  have hlength : (literal s).length = 1 + (Csv.escape quote s).length + 1 := by
    simp [literal]
    omega
  rw [htext, hlength, ← hloop]
  cases htail : Csv.escape quote s ++ quote :: rest with
  | nil => simp at htail
  | cons second tail =>
      rw [qstring, if_neg (by simp)]
      split_ifs with hempty
      · obtain ⟨rfl, rfl⟩ := hempty
        rfl
      · rfl

/-- Every quote of the string is one byte more. -/
theorem length_escape (s : List UInt8) :
    (Csv.escape quote s).length = s.length + s.count quote := by
  induction s with
  | nil => rfl
  | cons c s ih =>
      rw [Csv.escape_cons]
      by_cases hc : c = quote
      · simp [hc, ih]
        omega
      · simp [hc, ih]
        omega

theorem quoted_literal (s : List UInt8) : ((literal s).drop 1).dropLast = Csv.escape quote s := by
  simp [literal]

theorem parseQstringParam_literal (sp : SpecParserImpl) (next : Page charBufferPage)
    (s rest : List UInt8) (hrest : rest.head? ≠ some quote) :
    parseQstringParam sp next (literal s ++ rest) =
      (storeQuotedStringParam sp next (literal s)).map fun sp => some (sp, rest) := by
  unfold parseQstringParam
  rw [qstring_literal s rest hrest]
  simp only [List.take_left, List.drop_left]
  cases storeQuotedStringParam sp next (literal s) with
  | error e => rfl
  | ok sp => rfl

theorem parsesTo_of_not_mem (sp : SpecParserImpl) (next : Page charBufferPage) {s rest : List UInt8}
    (hrest : rest.head? ≠ some quote) (hs : quote ∉ s) :
    sp.ParsesTo next (literal s ++ rest) s rest := by
  have hany : s.any (· == quote) = false := by
    rw [List.any_eq_false]
    intro c hc
    simp only [beq_iff_eq]
    exact fun h => hs (h ▸ hc)
  refine ⟨{ sp with stringParam := s }, ?_, rfl⟩
  rw [parseQstringParam_literal sp next s rest hrest]
  unfold storeQuotedStringParam
  rw [quoted_literal, Csv.escape_of_not_mem quote hs]
  simp only [if_pos hany]
  rfl

/-! ## The unescaping loop

At the first quote `head` is already at the second quote of the pair.  It is copied back, and then `tail`
is moved past it instead of `head`: from there on `tail` is never behind `head`. -/

theorem tail_lt_of_turn {begin_ head : Nat} {s s' : Page pageSize × Nat}
    (h : unescapeTurn begin_ head s = some s') : s.2 + 1 ≤ s'.2 := by
  unfold unescapeTurn at h
  simp only [Option.bind_eq_some_iff, Option.map_eq_some_iff] at h
  obtain ⟨c, -, page, -, c', -, rfl⟩ := h
  show s.2 + 1 ≤ if c' = quote then s.2 + 1 + 1 else s.2 + 1
  split_ifs
  · omega
  · omega

/-- The turn at a quote whose copy goes before it. -/
theorem tail_of_turn_quote {begin_ head : Nat} {page : Page pageSize} {tail : Nat}
    {s' : Page pageSize × Nat} (hquote : page[begin_ + head]? = some quote) (htail : tail < head)
    (h : unescapeTurn begin_ head (page, tail) = some s') : s'.2 = tail + 1 + 1 := by
  unfold unescapeTurn at h
  simp only [Option.bind_eq_some_iff, Option.map_eq_some_iff] at h
  obtain ⟨c, hread, page', hwrite, c', hread', rfl⟩ := h
  unfold writeChar at hwrite
  split_ifs at hwrite with hbegin
  cases hwrite
  have hne : begin_ + tail ≠ begin_ + head := by omega
  rw [Vector.getElem?_set_ne hbegin hne, hquote] at hread'
  cases hread'
  rfl

theorem chars_eq {page : Page pageSize} {begin_ : Nat} {text : List UInt8}
    (hcopy : ∀ i < text.length, page[begin_ + i]? = text[i]?) :
    (page.toList.drop begin_).take text.length = text := by
  apply List.ext_getElem?
  intro i
  by_cases hi : i < text.length
  · rw [List.getElem?_take_of_lt hi, List.getElem?_drop, Vector.getElem?_toList, hcopy i hi]
  · rw [List.getElem?_take_eq_none (by omega), List.getElem?_eq_none (by omega)]

/-- The result is not shorter than the escaped text. -/
theorem le_tail_of_unescape {page page' : Page pageSize} {begin_ tail : Nat}
    {text front back : List UInt8} (hcopy : ∀ i < text.length, page[begin_ + i]? = text[i]?)
    (htext : text = front ++ quote :: quote :: back) (hfront : quote ∉ front)
    (h : unescape page begin_ text.length = some (page', tail)) : text.length ≤ tail := by
  have hnone : ¬ front.findIdx (· == quote) < front.length := by
    rw [List.findIdx_lt_length]
    rintro ⟨c, hc, heq⟩
    exact hfront (beq_iff_eq.mp heq ▸ hc)
  have hstart : text.findIdx (· == quote) = front.length := by
    rw [htext, List.findIdx_append, if_neg hnone, List.findIdx_cons]
    simp
  have hlength : text.length = front.length + 2 + back.length := by
    rw [htext]
    simp
    omega
  have hsecond : text[front.length + 1]? = some quote := by
    rw [htext]
    simp
  unfold unescape at h
  rw [chars_eq hcopy, hstart, forRange_of_pos _ _ (by omega)] at h
  obtain ⟨s, hturn, hrest⟩ := Option.bind_eq_some_iff.mp h
  have hquote : page[begin_ + (front.length + 1)]? = some quote := by
    rw [hcopy _ (by omega), hsecond]
  have hs := tail_of_turn_quote hquote (by omega) hturn
  -- from the second turn on, `head ≤ tail`
  have hend := forRange_of_some (unescapeTurn begin_) _ _ (fun head s => head ≤ s.2) (by omega)
    (fun head s s' _ _ hle hturn => by
      have hlt := tail_lt_of_turn hturn
      omega) hrest
  omega

theorem not_parsesTo_of_mem (sp : SpecParserImpl) (next : Page charBufferPage) {s rest : List UInt8}
    (hrest : rest.head? ≠ some quote) (hs : quote ∈ s) :
    ¬ sp.ParsesTo next (literal s ++ rest) s rest := by
  rintro ⟨sp', hparse, hparam⟩
  obtain ⟨front, back, hsplit, hfront⟩ := List.eq_append_cons_of_mem hs
  have hescape : Csv.escape quote s = front ++ quote :: quote :: Csv.escape quote back := by
    rw [hsplit, Csv.escape_append, Csv.escape_of_not_mem quote hfront, Csv.escape_cons, if_pos rfl]
    rfl
  have hlonger : s.length < (Csv.escape quote s).length := by
    have hcount := List.count_pos_iff.mpr hs
    rw [length_escape]
    omega
  have hany : ¬ (Csv.escape quote s).any (· == quote) = false := by
    rw [hescape]
    simp
  rw [parseQstringParam_literal sp next s rest hrest] at hparse
  unfold storeQuotedStringParam at hparse
  rw [quoted_literal] at hparse
  simp only [if_neg hany] at hparse
  cases himport : sp.charBuffer.importMutable next (Csv.escape quote s) with
  | none =>
      rw [himport] at hparse
      cases hparse
  | some copied =>
      obtain ⟨charBuffer, begin_⟩ := copied
      have hcopy := fun i hi => @CharBuffer.getElem?_importMutable _ _ _ _ _ _ himport i hi
      simp only [himport] at hparse
      cases hloop : unescape charBuffer.current begin_ (Csv.escape quote s).length with
      | none =>
          rw [hloop] at hparse
          cases hparse
      | some result =>
          obtain ⟨page, tail⟩ := result
          have hle := le_tail_of_unescape hcopy hescape hfront hloop
          simp only [hloop] at hparse
          split_ifs at hparse with hpage
          · cases hparse
            have hlength := congrArg List.length hparam
            rw [List.length_take, List.length_drop, Vector.length_toList] at hlength
            omega
          · cases hparse

/-- The parser before the first string. -/
def noParameters : SpecParserImpl := ⟨CharBuffer.empty, []⟩

/-- The literal of a string with one quote, at the end of the input. -/
theorem literal_quote_not_parsed :
    ¬ noParameters.ParsesTo noParameters.charBuffer.current (literal [97, quote, 98] ++ []) [97, quote, 98] [] :=
  not_parsesTo_of_mem _ _ (by decide) (by decide)

/-- A quoted string with a quote in it never gives that string. -/
theorem parseQstringParam_iff (sp : SpecParserImpl) (next : Page charBufferPage) (s rest : List UInt8)
    (hrest : rest.head? ≠ some quote) :
    sp.ParsesTo next (literal s ++ rest) s rest ↔ quote ∉ s := by
  constructor
  · intro h hs
    exact not_parsesTo_of_mem sp next hrest hs h
  · intro hs
    exact parsesTo_of_not_mem sp next hrest hs

theorem parseQstringParam_iff_space :
    noParameters.ParsesTo noParameters.charBuffer.current (literal [97, 98] ++ [32]) [97, 98] [32] ↔
      quote ∉ [(97 : UInt8), 98] :=
  parseQstringParam_iff _ _ _ _ (by decide)

end Jumanpp.Core.Spec
