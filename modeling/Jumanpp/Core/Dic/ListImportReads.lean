import Jumanpp.Core.Dic.ListImport
import Jumanpp.Lib.Loops

/-!
# Reading back an imported list

Both passes split a list at spaces; the separator that the field declares is used by neither.
-/

namespace Jumanpp.Core.Dic

open Jumanpp.Lib Jumanpp.Util

/-! ## Numbers -/

theorem toInt32_signExtended (v : Int32) : v.toInt64.toUInt64.toUInt32.toInt32 = v := by
  apply Int32.toBitVec_inj.1
  show BitVec.setWidth 32 (BitVec.signExtend 64 v.toBitVec) = v.toBitVec
  apply BitVec.eq_of_getLsbD_eq
  intro i hi
  have h64 : i < 64 := by omega
  rw [BitVec.getLsbD_setWidth, BitVec.getLsbD_signExtend, if_pos hi]
  simp [hi, h64]

theorem ofNat_sub_one {n : Nat} (h : n < 2 ^ 31) (hpos : 0 < n) :
    (Int32.ofNat n - 1).toInt.toNat = n - 1 := by
  obtain ⟨m, rfl⟩ : ∃ m, n = m + 1 := ⟨n - 1, by omega⟩
  have hsub : Int32.ofNat (m + 1) - 1 = Int32.ofNat m := by
    rw [Int32.ofNat_add]
    simp
  rw [hsub, Int32.toInt_ofNat_of_lt (by omega)]
  rfl

namespace IntListTraversal

theorem readOneCumulative_delta {length position : Int} {rest : List UInt8} {begin_ : Nat}
    (last v : Int32) (h : position < length) :
    readOneCumulative
        ⟨length, position, writeVarint (v - last).toInt64.toUInt64 ++ rest, begin_⟩ last =
      (some v, ⟨length, position + 1, rest, begin_⟩) := by
  have hsum : last + (v - last) = v := by
    rw [Int32.add_comm, Int32.sub_add_cancel]
  unfold readOneCumulative readOne
  simp only [readVarint64_writeVarint, if_pos h, Option.map_some, toInt32_signExtended, hsum]

theorem readOneCumulative_end {length position : Int} (unread : List UInt8) (begin_ : Nat)
    (last : Int32) (h : length ≤ position) :
    (readOneCumulative ⟨length, position, unread, begin_⟩ last).1 = none := by
  unfold readOneCumulative readOne
  simp only [if_neg (show ¬ position < length by omega), Option.map_none]

theorem decodes_deltas {length position : Int} (rest : List UInt8) (begin_ : Nat) (last : Int32)
    (values : List Int32) (h : position + values.length = length) :
    Decodes ⟨length, position,
      ((deltas last values).flatMap fun v => writeVarint v.toInt64.toUInt64) ++ rest, begin_⟩
      last values := by
  induction values generalizing position last with
  | nil =>
      apply readOneCumulative_end
      simp at h
      omega
  | cons v values ih =>
      rw [List.length_cons] at h
      have hturn := @readOneCumulative_delta length position
        (((deltas v values).flatMap fun v => writeVarint v.toInt64.toUInt64) ++ rest) begin_ last v
        (by omega)
      rw [deltas, List.flatMap_cons, List.append_assoc, Decodes, hturn]
      exact ⟨rfl, ih v (by push_cast at h; omega)⟩

theorem Decodes.unique {t : IntListTraversal} {last : Int32} {values values' : List Int32}
    (h : t.Decodes last values) (h' : t.Decodes last values') : values = values' := by
  induction values generalizing t last values' with
  | nil =>
      cases values' with
      | nil => rfl
      | cons v' values' =>
          have hv := h'.1
          rw [h] at hv
          cases hv
  | cons v values ih =>
      cases values' with
      | nil =>
          have hv := h.1
          rw [h'] at hv
          cases hv
      | cons v' values' =>
          have hv : v = v' := Option.some.inj (h.1.symm.trans h'.1)
          subst hv
          rw [ih h.2 h'.2]

end IntListTraversal

theorem DecodesTo.unique {data : List UInt8} {ptr : Int32} {values values' : List Int32}
    (h : DecodesTo data ptr values) (h' : DecodesTo data ptr values') : values = values' := by
  obtain ⟨t, hlist, hvalues⟩ := h
  obtain ⟨t', hlist', hvalues'⟩ := h'
  rw [hlist] at hlist'
  cases hlist'
  exact hvalues.unique hvalues'

/-! ## The written list -/

/-- Where the pointer and the number of values fit, the list is read back sorted. -/
theorem decodesTo_writePtrsAsDeltas (values : List Int32) (buffer later : List UInt8)
    (hbuffer : buffer.length < 2 ^ 31) (hvalues : values.length < 2 ^ 31) (hpos : 0 < values.length) :
    DecodesTo (writePtrsAsDeltas values buffer ++ later) (Int32.ofNat buffer.length)
      (sorted values) := by
  have hstart : (Int32.ofNat (sorted values).length - 1).toInt.toNat = (sorted values).length - 1 := by
    rw [length_sorted]
    exact ofNat_sub_one hvalues hpos
  have hptr := Int32.toInt_ofNat_of_lt hbuffer
  have hsize : (UInt64.ofNat (deltas 0 (sorted values)).length).toUInt32.toInt32.toInt =
      (sorted values).length := by
    rw [length_deltas, length_sorted, toInt_of_lt hvalues]
  unfold DecodesTo listAt writePtrsAsDeltas
  simp only [hstart, deltaLoop_eq_deltas, hptr, Int.toNat_natCast]
  rw [if_neg (by omega), List.append_assoc, List.drop_left, List.append_assoc,
    readVarint64_writeVarint]
  refine ⟨_, rfl, ?_⟩
  apply IntListTraversal.decodes_deltas
  rw [hsize]
  omega

/-- Nothing stands at the pointer of an empty list. -/
theorem listAt_of_read {data : List UInt8} {ptr : Int32} {size : UInt64} {rest : List UInt8}
    (hptr : ¬ ptr.toInt < 0)
    (hread : readVarint64 (data.drop ptr.toInt.toNat) = (some size, rest)) :
    listAt data ptr =
      some ⟨size.toUInt32.toInt32.toInt, 0, rest, (data.drop ptr.toInt.toNat).length⟩ := by
  rw [listAt, if_neg hptr, hread]

theorem decodesTo_zero {buffer : List UInt8} (h : writeVarint 0 <+: buffer) (later : List UInt8) :
    DecodesTo (buffer ++ later) 0 [] := by
  obtain ⟨rest, rfl⟩ := h
  unfold DecodesTo
  have hread : readVarint64 ((writeVarint 0 ++ (rest ++ later)).drop (0 : Int32).toInt.toNat) =
      (some 0, rest ++ later) :=
    readVarint64_writeVarint 0 (rest ++ later)
  rw [List.append_assoc, listAt_of_read (by decide) hread]
  refine ⟨_, rfl, ?_⟩
  apply IntListTraversal.readOneCumulative_end
  decide

/-! ## The loop over the keys -/

theorem forKeys_eq_foldl {σ : Type} (body : σ → List UInt8 → σ) (s : σ) (sp : List UInt8) :
    forKeys body s sp = (pieces [space] sp).foldl body s := by
  fun_induction forKeys body s sp with
  | case1 s => rw [pieces_nil, List.foldl_nil]
  | case2 s c sp key hend =>
      have hnone : splitFirst [space] (c :: sp) = none := by
        rw [splitFirst_singleton, hend]
      have hkey : key = c :: sp := by
        have happend := List.takeWhile_append_dropWhile (p := fun x => decide (x ≠ space)) (l := c :: sp)
        rw [hend, List.append_nil] at happend
        exact happend
      rw [pieces_of_splitFirst_none (by simp) hnone, hkey, List.foldl_cons, List.foldl_nil]
  | case3 s c sp key d rest hfound ih =>
      have hsome : splitFirst [space] (c :: sp) = some (key, rest) := by
        rw [splitFirst_singleton, hfound]
      rw [pieces_of_splitFirst (by simp) hsome, List.foldl_cons, ih]

theorem StringListFieldImporter.values_eq (imp : StringListFieldImporter) (sp : List UInt8) :
    imp.values sp = (pieces [space] sp).map (valueAt imp.mapping) := by
  have happend : ∀ (keys : List (List UInt8)) (values : List Int32),
      keys.foldl (fun values key => values ++ [valueAt imp.mapping key]) values =
        values ++ keys.map (valueAt imp.mapping) := by
    intro keys
    induction keys with
    | nil => simp
    | cons key keys ih =>
        intro values
        rw [List.foldl_cons, ih]
        simp
  rw [values, forKeys_eq_foldl, happend, List.nil_append]

/-! ## The first pass -/

namespace StringStorage

theorem mem_keys_increaseFieldValueCount {storage : StringStorage} {sp key : List UInt8} :
    key ∈ (storage.increaseFieldValueCount sp).2.keys ↔
      key ∈ storage.keys ∨ key = sp ∧ sp.length ≤ charBufferPage := by
  unfold increaseFieldValueCount
  split_ifs with hknown hpage
  · show key ∈ (storage.mapping.map (countOne sp)).map (·.1.elems) ↔ _
    rw [keys_countOne]
    constructor
    · exact .inl
    · rintro (h | ⟨rfl, -⟩)
      · exact h
      · exact hknown
  · unfold keys
    rw [List.map_append, List.mem_append, List.map_singleton, List.mem_singleton]
    simp only [hpage, and_true]
  · simp only [hpage, and_false, or_false]

theorem mem_keys_foldl {keys : List (List UInt8)} {storage : StringStorage} {key : List UInt8} :
    key ∈ (keys.foldl (fun storage key => (storage.increaseFieldValueCount key).2) storage).keys ↔
      key ∈ storage.keys ∨ key ∈ keys ∧ key.length ≤ charBufferPage := by
  induction keys generalizing storage with
  | nil => simp
  | cons first keys ih =>
      rw [List.foldl_cons, ih, mem_keys_increaseFieldValueCount, List.mem_cons]
      constructor
      · rintro ((h | ⟨rfl, hpage⟩) | ⟨h, hpage⟩)
        · exact .inl h
        · exact .inr ⟨.inl rfl, hpage⟩
        · exact .inr ⟨.inr h, hpage⟩
      · rintro (h | ⟨rfl | h, hpage⟩)
        · exact .inl (.inl h)
        · exact .inl (.inr ⟨rfl, hpage⟩)
        · exact .inr ⟨h, hpage⟩

/-- The strings that the first pass counts for a list are those between spaces. -/
theorem mem_keys_importFieldValue {ignore sp key : List UInt8} {storage : StringStorage}
    (hignore : ignore ≠ sp) : key ∈ (storage.importFieldValue ignore sp).2.keys ↔
      key ∈ storage.keys ∨ key ∈ pieces [space] sp ∧ key.length ≤ charBufferPage := by
  unfold importFieldValue
  rw [if_neg hignore]
  show key ∈ (forKeys _ storage sp).keys ↔ _
  rw [forKeys_eq_foldl, mem_keys_foldl]

theorem keys_makeStorage {storage : StringStorage} {forSort : List (StdString × Int32)}
    (hsorted : storage.Sorted forSort) :
    ((storage.makeStorage forSort).1.map (·.1.elems)).Perm storage.keys := by
  have hkeys : ((storage.makeStorage forSort).1.map (·.1.elems)) = forSort.map (·.1.elems) := by
    rw [stored_eq, List.map_map]
    show (storage.positions forSort).map (·.2.elems) = _
    have hsnd := congrArg (List.map StdList.elems)
      (map_snd_layout storage.alignmentPower 1 (forSort.map (·.1)))
    rw [List.map_map, List.map_map] at hsnd
    exact hsnd
  rw [hkeys]
  exact hsorted.1.map _

/-- No two strings have one pointer. -/
theorem Fits.nodup_values {storage : StringStorage} {forSort : List (StdString × Int32)}
    (h : storage.Fits forSort) : ((storage.makeStorage forSort).1.map (·.2)).Nodup := by
  have hincreasing := (List.pairwise_cons.mp h.coincides.1).2
  rw [List.pairwise_map] at hincreasing
  rw [stored_eq, List.map_map, List.Nodup, List.pairwise_map]
  apply hincreasing.imp
  intro a b hlt heq
  have htoInt := congrArg Int32.toInt heq
  simp only [Function.comp, pairOf] at htoInt
  omega

end StringStorage

theorem find_ne_none_iff {mapping : List (StdString × Int32)} {sp : List UInt8} :
    find mapping sp ≠ none ↔ sp ∈ mapping.map (·.1.elems) := by
  unfold find
  rw [Ne, Option.map_eq_none_iff, List.find?_eq_none]
  simp

theorem exists_entry {mapping : List (StdString × Int32)} {sp : List UInt8}
    (h : sp ∈ mapping.map (·.1.elems)) :
    ∃ entry ∈ mapping, entry.1.elems = sp ∧ entry.2 = valueAt mapping sp := by
  have hne := find_ne_none_iff.mpr h
  unfold valueAt
  unfold find at hne ⊢
  cases hfind : mapping.find? (·.1.elems = sp) with
  | none =>
      rw [hfind] at hne
      exact absurd rfl hne
  | some entry =>
      have hentry := List.find?_some hfind
      exact ⟨entry, List.mem_of_find?_eq_some hfind, of_decide_eq_true hentry, rfl⟩

theorem valueAt_injOn {mapping : List (StdString × Int32)} (h : (mapping.map (·.2)).Nodup) :
    Set.InjOn (valueAt mapping) {sp | sp ∈ mapping.map (·.1.elems)} := by
  intro p hp q hq heq
  obtain ⟨e, he, rfl, hvalue⟩ := exists_entry hp
  obtain ⟨e', he', rfl, hvalue'⟩ := exists_entry hq
  have hsame : e = e' := List.inj_on_of_nodup_map h he he' (by rw [hvalue, hvalue', heq])
  rw [hsame]

/-- Lists of keys that have the same values are the same lists. -/
theorem perm_of_perm_map {α β : Type} {f : α → β} {s : Set α} (hf : Set.InjOn f s) {a b : List α}
    (ha : ∀ x ∈ a, x ∈ s) (hb : ∀ x ∈ b, x ∈ s) (h : (a.map f).Perm (b.map f)) : a.Perm b := by
  cases a with
  | nil =>
      rw [List.map_nil] at h
      rw [List.map_eq_nil_iff.mp h.symm.eq_nil]
  | cons x a =>
      have : Nonempty α := ⟨x⟩
      have hinv : ∀ l : List α, (∀ x ∈ l, x ∈ s) → (l.map f).map (Function.invFunOn f s) = l := by
        intro l hl
        rw [List.map_map]
        exact (List.map_congr_left fun x hx => hf.leftInvOn_invFunOn (hl x hx)).trans (List.map_id l)
      have hperm := h.map (Function.invFunOn f s)
      rw [hinv _ ha, hinv _ hb] at hperm
      exact hperm

/-! ## The items -/

theorem mapM_find_eq_some_iff {mapping : List (StdString × Int32)} {items : List (List UInt8)}
    {ptrs : List Int32} : items.mapM (find mapping) = some ptrs ↔
      (∀ item ∈ items, find mapping item ≠ none) ∧ ptrs = items.map (valueAt mapping) := by
  rw [mapM_eq_some_iff]
  induction items generalizing ptrs with
  | nil => simp
  | cons item items ih =>
      cases ptrs with
      | nil => simp
      | cons ptr ptrs =>
          rw [List.forall₂_cons, ih, List.map_cons, List.cons.injEq, List.forall_mem_cons]
          constructor
          · rintro ⟨hptr, hstored, hptrs⟩
            exact ⟨⟨by rw [hptr]; simp, hstored⟩, by rw [valueAt, hptr]; rfl, hptrs⟩
          · rintro ⟨⟨hstored, hrest⟩, hptr, hptrs⟩
            obtain ⟨value, hvalue⟩ := Option.ne_none_iff_exists'.mp hstored
            rw [valueAt, hvalue] at hptr
            exact ⟨by rw [hvalue, hptr]; rfl, hrest, hptrs⟩

namespace StringListFieldImporter

variable (imp : StringListFieldImporter) (separator text later : List UInt8)

/-- All items have a pointer. -/
def Stored : Prop :=
  ∀ item ∈ pieces separator text, find imp.mapping item ≠ none

/-- The position and the number of pieces are values of an `i32`. -/
def Addressable : Prop :=
  imp.buffer.length < 2 ^ 31 ∧ (pieces [space] text).length < 2 ^ 31

instance : Decidable (imp.Addressable text) :=
  inferInstanceAs (Decidable (imp.buffer.length < 2 ^ 31 ∧ (pieces [space] text).length < 2 ^ 31))

/-- What stands between spaces has the pointers of the items. -/
def SplitsAlike : Prop :=
  ((pieces [space] text).map (valueAt imp.mapping)).Perm
    ((pieces separator text).map (valueAt imp.mapping))

/-- The cut pointer or the cut number leads by chance to a list of the pointers of the items. -/
def Coincides : Prop :=
  DecodesTo (writePtrsAsDeltas (imp.values text) imp.buffer ++ later) (Int32.ofNat imp.buffer.length)
    (sorted ((pieces separator text).map (valueAt imp.mapping)))

variable {imp separator text later}

theorem writesItems_empty (h : text = [] ∨ imp.ignore = text) :
    imp.WritesItems separator text later := by
  have hitems : itemsOf separator imp.ignore text = [] := by
    unfold itemsOf
    split_ifs with hignore
    · rfl
    · rcases h with rfl | h
      · exact pieces_nil separator
      · exact absurd h hignore
  have hptr : imp.fieldPointer text = (0, imp) := by
    unfold fieldPointer
    rw [if_pos h.symm]
  unfold WritesItems
  rw [hitems, hptr]
  have hsorted : sorted [] = [] := List.mergeSort_nil
  refine ⟨[], rfl, ?_⟩
  rw [hsorted]
  exact decodesTo_zero imp.injected later

theorem writesItems_nonempty (htext : text ≠ []) (hignore : imp.ignore ≠ text) :
    imp.WritesItems separator text later ↔
      imp.Stored separator text ∧ imp.Coincides separator text later := by
  unfold WritesItems
  rw [itemsOf, if_neg hignore, fieldPointer, if_neg (not_or.mpr ⟨hignore, htext⟩)]
  constructor
  · rintro ⟨ptrs, hptrs, hdecodes⟩
    obtain ⟨hstored, rfl⟩ := mapM_find_eq_some_iff.mp hptrs
    exact ⟨hstored, hdecodes⟩
  · rintro ⟨hstored, hdecodes⟩
    exact ⟨_, mapM_find_eq_some_iff.mpr ⟨hstored, rfl⟩, hdecodes⟩

theorem pieces_space_ne_nil (htext : text ≠ []) : pieces [space] text ≠ [] := by
  cases hsplit : splitFirst [space] text with
  | none =>
      rw [pieces_of_splitFirst_none htext hsplit]
      simp
  | some parts =>
      rw [pieces_of_splitFirst (by simp) hsplit]
      simp

/-- The list that is written decodes to what stands between spaces. -/
theorem coincides_iff_splitsAlike (htext : text ≠ []) (h : imp.Addressable text) :
    imp.Coincides separator text later ↔ imp.SplitsAlike separator text := by
  have hlength : (imp.values text).length = (pieces [space] text).length := by
    rw [values_eq, List.length_map]
  have hpos := List.length_pos_of_ne_nil (pieces_space_ne_nil htext)
  have hwritten := decodesTo_writePtrsAsDeltas (imp.values text) imp.buffer later h.1
    (by rw [hlength]; exact h.2) (by omega)
  unfold Coincides SplitsAlike
  rw [← values_eq, ← sorted_eq_iff]
  constructor
  · intro hdecodes
    exact hwritten.unique hdecodes
  · intro heq
    rw [← heq]
    exact hwritten

/-- Which texts are imported as the items between the declared separators. -/
theorem writesItems_iff (imp : StringListFieldImporter) (separator text later : List UInt8) :
    imp.WritesItems separator text later ↔
      text = [] ∨ imp.ignore = text ∨ imp.Stored separator text ∧
        if imp.Addressable text then imp.SplitsAlike separator text
        else imp.Coincides separator text later := by
  by_cases hempty : text = [] ∨ imp.ignore = text
  · constructor
    · intro _
      exact hempty.elim .inl fun h => .inr (.inl h)
    · intro _
      exact writesItems_empty hempty
  · obtain ⟨htext, hignore⟩ := not_or.mp hempty
    rw [writesItems_nonempty htext hignore]
    simp only [htext, hignore, false_or]
    by_cases haddr : imp.Addressable text
    · rw [if_pos haddr, coincides_iff_splitsAlike htext haddr]
    · rw [if_neg haddr]

/-- In a storage of which no pointer is cut, after the first pass over the text: the code imports the
items just where splitting at spaces gives the items. -/
theorem writesItems_iff_pieces {storage : StringStorage} {forSort : List (StdString × Int32)}
    (hsorted : storage.Sorted forSort) (hfits : storage.Fits forSort)
    (hmapping : imp.mapping = (storage.makeStorage forSort).1)
    (hcounted : ∀ key ∈ pieces [space] text, key ∈ storage.keys) (haddr : imp.Addressable text) :
    imp.WritesItems separator text later ↔
      text = [] ∨ imp.ignore = text ∨ (pieces [space] text).Perm (pieces separator text) := by
  have hkeys : ∀ key, key ∈ imp.mapping.map (·.1.elems) ↔ key ∈ storage.keys := by
    intro key
    rw [hmapping]
    exact (StringStorage.keys_makeStorage hsorted).mem_iff
  have hinj := @valueAt_injOn imp.mapping (by rw [hmapping]; exact hfits.nodup_values)
  have hspace : ∀ key ∈ pieces [space] text, key ∈ imp.mapping.map (·.1.elems) := by
    intro key hkey
    exact (hkeys key).mpr (hcounted key hkey)
  rw [writesItems_iff, if_pos haddr]
  unfold SplitsAlike Stored
  simp only [find_ne_none_iff]
  apply or_congr_right
  apply or_congr_right
  constructor
  · rintro ⟨hstored, hperm⟩
    exact perm_of_perm_map hinj hspace hstored hperm
  · intro hperm
    refine ⟨?_, hperm.map _⟩
    intro item hitem
    exact hspace item (hperm.mem_iff.mpr hitem)

/-- After the row "a,b" alone has been imported. -/
def oneRow : StringListFieldImporter where
  mapping := [(⟨[97, 44, 98], by decide⟩, 1)]
  ignore := []
  buffer := writeVarint 0
  injected := List.prefix_rfl

/-- With the separator "," the row has the items "a" and "b", which nothing has stored. -/
theorem oneRow_not_writesItems : ¬ oneRow.WritesItems [44] [97, 44, 98] [] := by
  rw [writesItems_nonempty (by decide) (by decide)]
  rintro ⟨hstored, -⟩
  have hitems : pieces [44] [97, 44, 98] = ([97] : List UInt8) :: pieces [44] [98] :=
    pieces_of_splitFirst (by decide) (by decide)
  apply hstored [97]
  · rw [hitems]
    exact List.mem_cons_self
  · rfl

end StringListFieldImporter

end Jumanpp.Core.Dic
