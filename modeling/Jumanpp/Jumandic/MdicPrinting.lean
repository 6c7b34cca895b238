import Jumanpp.Lib.Splitting
import Jumanpp.Util.CsvRoundTrip

/-!
# Printing a row of the dictionary

A field is quoted when it contains a comma or a quote, and for no other reason: a line break that stands
in a field without them ends the line for the reader.
-/

namespace Jumanpp.Jumandic.Output

open Jumanpp.Lib Jumanpp.Util.Csv

def comma : Byte := 44

def doubleQuote : Byte := 34

def space : Byte := 32

def colon : Byte := 58

/-! ## The printers -/

/-- The loop over the quotes: `piece` goes from `beg` to `it`, and a quote that has been found is printed
once with the piece before it and once with the piece that it begins. -/
def printPieces (piece : List Byte) : List Byte → List Byte
  | [] => piece
  | found :: rest =>
      piece ++ [doubleQuote] ++
        printPieces (found :: rest.takeWhile (· ≠ doubleQuote)) (rest.dropWhile (· ≠ doubleQuote))
termination_by rest => rest.length
decreasing_by
  have hlength := (List.dropWhile_sublist (l := rest) (· ≠ doubleQuote)).length_le
  simp only [List.length_cons] at hlength ⊢
  omega

/-- `printQuoted`, which both printers have. -/
def printQuoted (sp : List Byte) : List Byte :=
  printPieces (sp.takeWhile (· ≠ doubleQuote)) (sp.dropWhile (· ≠ doubleQuote))

def printMaybeQuoted (data : List Byte) : List Byte :=
  if comma ∉ data ∧ doubleQuote ∉ data then data
  else [doubleQuote] ++ printQuoted data ++ [doubleQuote]

/-- What a `KVListIterator` shows.  The importer has cut the keys and the values at the separators. -/
structure KVItem where
  key : List Byte
  value : Option (List Byte)
  space_key : space ∉ key
  colon_key : colon ∉ key
  space_value : ∀ v ∈ value, space ∉ v

namespace KVItem

variable (item : KVItem)

def pair : List Byte × Option (List Byte) := (item.key, item.value)

/-- The test of the first loop of `printMaybeQuoteStringList`. -/
def special (sp : List Byte) : Bool :=
  sp.any fun c => c == doubleQuote || c == comma

def shouldQuote : Bool :=
  special item.key || item.value.any special

def print (printPiece : List Byte → List Byte) : List Byte :=
  printPiece item.key ++
    match item.value with
    | none => []
    | some value => colon :: printPiece value

end KVItem

/-- The loop over the items; `hasNext` is asked after each of them. -/
def printItems (printPiece : List Byte → List Byte) : List KVItem → List Byte
  | [] => []
  | [item] => item.print printPiece
  | item :: next :: items => item.print printPiece ++ space :: printItems printPiece (next :: items)

def printMaybeQuoteStringList (items : List KVItem) : List Byte :=
  if items.any KVItem.shouldQuote then [doubleQuote] ++ printItems printQuoted items ++ [doubleQuote]
  else printItems id items

/-! ## What is printed -/

theorem printPieces_eq (piece rest : List Byte) (h : ∀ c ∈ rest.head?, c = doubleQuote) :
    printPieces piece rest = piece ++ escape doubleQuote rest := by
  induction hlength : rest.length using Nat.strong_induction_on generalizing piece rest with
  | h n ih =>
      cases rest with
      | nil =>
          rw [printPieces]
          exact (List.append_nil piece).symm
      | cons found rest =>
          have hfound : found = doubleQuote := h found rfl
          have hhead : ∀ c ∈ (rest.dropWhile (· ≠ doubleQuote)).head?, c = doubleQuote := by
            intro c hc
            have hnot := List.head?_dropWhile_not (· ≠ doubleQuote) rest
            rw [Option.mem_def.mp hc] at hnot
            simpa using hnot
          have hle := (List.dropWhile_sublist (l := rest) (· ≠ doubleQuote)).length_le
          have htake : doubleQuote ∉ rest.takeWhile (· ≠ doubleQuote) := by
            intro hmem
            simpa using List.mem_takeWhile_imp hmem
          rw [List.length_cons] at hlength
          rw [printPieces, ih _ (by omega) _ _ hhead rfl, hfound, escape_cons, if_pos rfl,
            List.append_assoc]
          conv_rhs => rw [← List.takeWhile_append_dropWhile (p := (· ≠ doubleQuote)) (l := rest),
            escape_append, escape_of_not_mem doubleQuote htake]
          simp

theorem printQuoted_eq (sp : List Byte) : printQuoted sp = escape doubleQuote sp := by
  have hhead : ∀ c ∈ (sp.dropWhile (· ≠ doubleQuote)).head?, c = doubleQuote := by
    intro c hc
    have hnot := List.head?_dropWhile_not (· ≠ doubleQuote) sp
    rw [Option.mem_def.mp hc] at hnot
    simpa using hnot
  have htake : doubleQuote ∉ sp.takeWhile (· ≠ doubleQuote) := by
    intro hmem
    simpa using List.mem_takeWhile_imp hmem
  unfold printQuoted
  rw [printPieces_eq _ _ hhead]
  conv_rhs => rw [← List.takeWhile_append_dropWhile (p := (· ≠ doubleQuote)) (l := sp),
    escape_append, escape_of_not_mem doubleQuote htake]

/-- The field is printed as it is. -/
def Bare (data : List Byte) : Prop :=
  comma ∉ data ∧ doubleQuote ∉ data

instance : DecidablePred Bare := fun data =>
  inferInstanceAs (Decidable (comma ∉ data ∧ doubleQuote ∉ data))

theorem printMaybeQuoted_eq (data : List Byte) :
    printMaybeQuoted data =
      if Bare data then data else (Field.quoted data : Field .rfc4180).text := by
  unfold printMaybeQuoted Bare
  rw [printQuoted_eq]
  rfl

/-- The text of a list before it is quoted. -/
def listText (items : List KVItem) : List Byte :=
  printItems id items

theorem special_iff (sp : List Byte) : KVItem.special sp = false ↔ Bare sp := by
  unfold KVItem.special Bare
  rw [List.any_eq_false]
  constructor
  · intro h
    refine ⟨fun hmem => ?_, fun hmem => ?_⟩
    · exact absurd (h _ hmem) (by decide)
    · exact absurd (h _ hmem) (by decide)
  · rintro ⟨hcomma, hquote⟩ c hc
    have hne : c ≠ comma := ne_of_mem_of_not_mem hc hcomma
    have hne' : c ≠ doubleQuote := ne_of_mem_of_not_mem hc hquote
    simp [hne, hne']

theorem bare_append (left right : List Byte) : Bare (left ++ right) ↔ Bare left ∧ Bare right := by
  unfold Bare
  simp only [List.mem_append, not_or]
  exact and_and_and_comm

theorem bare_cons {c : Byte} (hc : c ≠ comma ∧ c ≠ doubleQuote) (data : List Byte) :
    Bare (c :: data) ↔ Bare data := by
  unfold Bare
  simp only [List.mem_cons, not_or]
  constructor
  · rintro ⟨⟨-, hcomma⟩, -, hquote⟩
    exact ⟨hcomma, hquote⟩
  · rintro ⟨hcomma, hquote⟩
    exact ⟨⟨hc.1.symm, hcomma⟩, hc.2.symm, hquote⟩

theorem shouldQuote_iff (item : KVItem) : item.shouldQuote = false ↔ Bare (item.print id) := by
  unfold KVItem.shouldQuote KVItem.print
  rw [Bool.or_eq_false_iff, special_iff, bare_append]
  cases item.value with
  | none => exact and_congr_right fun _ => iff_of_true rfl ⟨List.not_mem_nil, List.not_mem_nil⟩
  | some value =>
      refine and_congr_right fun _ => ?_
      rw [bare_cons (by decide)]
      exact special_iff value

/-- The list is quoted when its text would be. -/
theorem any_shouldQuote_iff (items : List KVItem) :
    items.any KVItem.shouldQuote = false ↔ Bare (listText items) := by
  unfold listText
  fun_induction printItems id items with
  | case1 => exact iff_of_true rfl ⟨List.not_mem_nil, List.not_mem_nil⟩
  | case2 item =>
      rw [List.any_cons, List.any_nil, Bool.or_false]
      exact shouldQuote_iff item
  | case3 item next items ih =>
      rw [List.any_cons, Bool.or_eq_false_iff, ih, bare_append, bare_cons (by decide),
        shouldQuote_iff]

theorem printItems_printQuoted (items : List KVItem) :
    printItems printQuoted items = escape doubleQuote (listText items) := by
  have hitem (item : KVItem) : item.print printQuoted = escape doubleQuote (item.print id) := by
    unfold KVItem.print
    rw [escape_append, printQuoted_eq]
    cases item.value with
    | none => rfl
    | some value =>
        show _ ++ colon :: printQuoted value = _ ++ escape doubleQuote (colon :: value)
        rw [escape_cons, if_neg (by decide), printQuoted_eq]
        rfl
  unfold listText
  fun_induction printItems id items with
  | case1 => rfl
  | case2 item => exact hitem item
  | case3 item next items ih =>
      rw [printItems, hitem, ih, escape_append, escape_cons, if_neg (by decide)]
      rfl

/-- Both printers quote a text alike. -/
theorem printMaybeQuoteStringList_eq (items : List KVItem) :
    printMaybeQuoteStringList items = printMaybeQuoted (listText items) := by
  unfold printMaybeQuoteStringList
  rw [printMaybeQuoted_eq]
  cases hquote : items.any KVItem.shouldQuote with
  | false => rw [if_pos ((any_shouldQuote_iff items).mp hquote)]; rfl
  | true =>
      have hbare : ¬Bare (listText items) := fun h => by
        rw [(any_shouldQuote_iff items).mpr h] at hquote
        cases hquote
      rw [if_neg hbare, printItems_printQuoted]
      rfl

/-! ## The items of a printed list -/

/-- An item as the importer reads it. -/
def parseItem (entry : List Byte) : List Byte × Option (List Byte) :=
  match splitFirst [colon] entry with
  | none => (entry, none)
  | some (key, value) => (key, some value)

/-- The loop of `StringKeyValueListFieldImporter`. -/
def parseItems (sp : List Byte) : List (List Byte × Option (List Byte)) :=
  (pieces [space] sp).map parseItem

/-- An item of which nothing is printed. -/
def KVItem.Blank (item : KVItem) : Prop :=
  item.key = [] ∧ item.value = none

theorem parseItem_print (item : KVItem) : parseItem (item.print id) = item.pair := by
  unfold parseItem KVItem.print KVItem.pair
  cases hvalue : item.value with
  | none =>
      simp only [id, List.append_nil]
      rw [splitFirst_of_not_mem item.colon_key]
  | some value =>
      simp only [id]
      rw [splitFirst_append_cons item.colon_key]

theorem space_print (item : KVItem) : space ∉ item.print id := by
  unfold KVItem.print
  have hvalue := item.space_value
  cases hitem : item.value with
  | none => simpa using item.space_key
  | some value =>
      have hspace := hvalue value hitem
      simp only [id, List.mem_append, List.mem_cons, not_or]
      exact ⟨item.space_key, by decide, hspace⟩

theorem print_eq_nil_iff (item : KVItem) : item.print id = [] ↔ item.Blank := by
  unfold KVItem.print KVItem.Blank
  cases item.value with
  | none => simp
  | some value => simp

/-- An item at the end of which nothing is printed is lost behind its separator. -/
theorem parseItems_listText (items : List KVItem) :
    parseItems (listText items) = (if ∃ item ∈ items.getLast?, item.print id = [] then items.dropLast
      else items).map KVItem.pair := by
  unfold listText parseItems
  fun_induction printItems id items with
  | case1 => simp
  | case2 item =>
      by_cases hblank : item.print id = []
      · rw [if_pos ⟨item, rfl, hblank⟩, hblank, pieces_nil]
        rfl
      · rw [if_neg (by simpa using hblank), pieces_of_splitFirst_none hblank
          (splitFirst_of_not_mem (space_print item)), List.map_singleton, parseItem_print]
        rfl
  | case3 item next items ih =>
      rw [pieces_of_splitFirst (by simp) (splitFirst_append_cons (space_print item) _), List.map_cons,
        ih, parseItem_print, List.getLast?_cons_cons]
      split <;> rfl

end Jumanpp.Jumandic.Output
