import Jumanpp.Core.Dic.StringStorage

/-!
# Reading the strings back

The padding between two strings is skipped by aligning the position in the same way as the writer did.
A pointer has 31 bits: the strings come back as long as no position needs more.
-/

namespace Jumanpp.Core.Dic

open Jumanpp.Util

/-! ## Aligned positions -/

theorem align_eq (val p : Nat) :
    Align val (2 ^ p) = if val % 2 ^ p = 0 then val else val / 2 ^ p * 2 ^ p + 2 ^ p := by
  rw [Align, Nat.and_two_pow_sub_one_eq_mod]

theorem le_align (val p : Nat) : val ≤ Align val (2 ^ p) := by
  have hdiv := Nat.div_add_mod' val (2 ^ p)
  have hlt := Nat.mod_lt val (Nat.two_pow_pos p)
  rw [align_eq]
  split <;> omega

theorem align_lt (val p : Nat) : Align val (2 ^ p) < val + 2 ^ p := by
  have hdiv := Nat.div_add_mod' val (2 ^ p)
  have hpos := Nat.two_pow_pos p
  rw [align_eq]
  split <;> omega

theorem dvd_align (val p : Nat) : 2 ^ p ∣ Align val (2 ^ p) := by
  rw [align_eq]
  split
  next h => exact Nat.dvd_of_mod_eq_zero h
  next => exact Nat.dvd_add (Nat.dvd_mul_left _ _) (Nat.dvd_refl _)

theorem align_shiftRight_mul (val p : Nat) : (Align val (2 ^ p) >>> p) * 2 ^ p = Align val (2 ^ p) := by
  rw [Nat.shiftRight_eq_div_pow, Nat.div_mul_cancel (dvd_align val p)]

/-! ## The layout -/

/-- The strings with their positions, when the buffer has `position` bytes. -/
def layout (power : Nat) : Nat → List StdString → List (Nat × StdString)
  | _, [] => []
  | position, sp :: rest =>
      let aligned := Align position (2 ^ power)
      (aligned, sp) :: layout power (aligned + (writeString sp).length) rest

/-- The bytes behind the first `position` ones. -/
def layoutBytes (power : Nat) : Nat → List StdString → List UInt8
  | _, [] => []
  | position, sp :: rest =>
      let aligned := Align position (2 ^ power)
      List.replicate (aligned - position) 0 ++ (writeString sp ++
        layoutBytes power (aligned + (writeString sp).length) rest)

def pairOf (power : Nat) (entry : Nat × StdString) : StdString × Int32 :=
  (entry.2, pointerOf power entry.1)

theorem writeVarint_zero : writeVarint 0 = [0] :=
  writeVarint_singleton (by decide)

theorem length_padded {buf : List UInt8} {power : Nat} :
    (buf ++ List.replicate (Align buf.length (2 ^ power) - buf.length) 0).length =
      Align buf.length (2 ^ power) := by
  have hle := le_align buf.length power
  rw [List.length_append, List.length_replicate]
  omega

theorem storeStrings_eq (power : Nat) (strings : List StdString) (buf : List UInt8) :
    storeStrings power strings buf =
      ((layout power buf.length strings).map (pairOf power),
        buf ++ layoutBytes power buf.length strings) := by
  induction strings generalizing buf with
  | nil => rw [storeStrings, layout, layoutBytes, List.map_nil, List.append_nil]
  | cons sp rest ih =>
      have hpadding : (List.replicate (Align buf.length (2 ^ power) - buf.length)
          (writeVarint 0)).flatten =
            List.replicate (Align buf.length (2 ^ power) - buf.length) 0 := by
        rw [writeVarint_zero, List.flatten_replicate_singleton]
      rw [storeStrings, layout, layoutBytes]
      simp only [hpadding]
      rw [ih, List.length_append, length_padded]
      simp only [List.map_cons, pairOf, List.append_assoc]

/-- The empty string is written as any other one, at the position 0. -/
theorem makeStorage_eq (storage : StringStorage) (forSort : List (StdString × Int32)) :
    storage.makeStorage forSort =
      ((layout storage.alignmentPower 1 (forSort.map (·.1))).map (pairOf storage.alignmentPower),
        layoutBytes storage.alignmentPower 0 (StdList.empty :: forSort.map (·.1))) := by
  have hempty : writeString StdList.empty = [0] :=
    congrArg (· ++ []) writeVarint_zero
  have hzero : Align 0 (2 ^ storage.alignmentPower) = 0 := by
    rw [align_eq, if_pos (Nat.zero_mod _)]
  unfold StringStorage.makeStorage
  rw [storeStrings_eq, layoutBytes, hempty, hzero]
  rfl

theorem layout_empty (power : Nat) (strings : List StdString) :
    layout power 0 (StdList.empty :: strings) = (0, StdList.empty) :: layout power 1 strings := by
  have hempty : writeString StdList.empty = [0] :=
    congrArg (· ++ []) writeVarint_zero
  have hzero : Align 0 (2 ^ power) = 0 := by
    rw [align_eq, if_pos (Nat.zero_mod _)]
  rw [layout, hempty, hzero]
  rfl

/-! ## Strings at their positions -/

theorem drop_layoutBytes {power : Nat} {strings : List StdString} {entry : Nat × StdString}
    {buf : List UInt8} (hmem : entry ∈ layout power buf.length strings) :
    ∃ rest, (buf ++ layoutBytes power buf.length strings).drop entry.1 =
      writeString entry.2 ++ rest := by
  induction strings generalizing buf with
  | nil => cases hmem
  | cons sp strings ih =>
      have hpadded := @length_padded buf power
      rw [layout] at hmem
      rw [layoutBytes]
      rw [← List.append_assoc]
      generalize buf ++ List.replicate (Align buf.length (2 ^ power) - buf.length) 0 = padded
        at hpadded ⊢
      rw [← hpadded] at hmem ⊢
      rcases List.mem_cons.mp hmem with rfl | hmem
      · exact ⟨_, List.drop_left⟩
      · rw [← List.length_append] at hmem ⊢
        rw [← List.append_assoc]
        exact ih hmem

theorem map_snd_layout (power position : Nat) (strings : List StdString) :
    (layout power position strings).map (·.2) = strings := by
  induction strings generalizing position with
  | nil => rfl
  | cons sp strings ih => rw [layout, List.map_cons, ih]

theorem aligned_of_mem_layout {power position : Nat} {strings : List StdString}
    {entry : Nat × StdString} (hmem : entry ∈ layout power position strings) :
    (entry.1 >>> power) * 2 ^ power = entry.1 ∧ position ≤ entry.1 := by
  induction strings generalizing position with
  | nil => cases hmem
  | cons sp strings ih =>
      rw [layout] at hmem
      have hle := le_align position power
      rcases List.mem_cons.mp hmem with rfl | hmem
      · exact ⟨align_shiftRight_mul position power, hle⟩
      · obtain ⟨haligned, hposition⟩ := ih hmem
        exact ⟨haligned, by omega⟩

theorem length_writeString_pos (sp : StdString) : 0 < (writeString sp).length := by
  have hpos := List.length_pos_iff.mpr (writeVarint_ne_nil sp.size)
  rw [writeString, List.length_append]
  omega

theorem length_writeString_le (sp : StdString) :
    (writeString sp).length ≤ sp.elems.length + 10 := by
  have hle := length_writeVarint_le sp.size 9 (by
    have hlt := sp.size.toNat_lt
    omega)
  rw [writeString, List.length_append]
  omega

/-- The pointers without the conversion increase. -/
theorem pairwise_layout (power position : Nat) (strings : List StdString) :
    (layout power position strings).Pairwise fun a b => a.1 >>> power < b.1 >>> power := by
  induction strings generalizing position with
  | nil => exact .nil
  | cons sp strings ih =>
      rw [layout]
      refine List.pairwise_cons.mpr ⟨fun entry hmem => ?_, ih _⟩
      obtain ⟨haligned, hle⟩ := aligned_of_mem_layout hmem
      have hpos := length_writeString_pos sp
      have hmul := align_shiftRight_mul position power
      refine Nat.lt_of_mul_lt_mul_right (a := 2 ^ power) ?_
      show Align position (2 ^ power) >>> power * 2 ^ power < _
      rw [haligned, hmul]
      omega

/-! ## Pointers -/

theorem toInt_pointerOf {power position : Nat} (h : position >>> power < 2 ^ 31) :
    (pointerOf power position).toInt = (position >>> power : Nat) :=
  Int32.toInt_ofNat_of_lt h

theorem toInt_pointerOf_neg {power position : Nat} (hle : 2 ^ 31 ≤ position >>> power)
    (hlt : position >>> power < 2 ^ 32) : (pointerOf power position).toInt < 0 := by
  unfold pointerOf
  generalize position >>> power = k at hle hlt
  rw [Int32.toInt_ofNat', Int.bmod_def, show Int32.size = 4294967296 from rfl]
  split <;> omega

theorem readAt_pointerOf {data rest : List UInt8} {power position : Nat} {sp : StdString}
    (haligned : (position >>> power) * 2 ^ power = position) (h : position >>> power < 2 ^ 31)
    (hdata : data.drop position = writeString sp ++ rest) :
    readAt data power (pointerOf power position) = some sp := by
  have hreal : (pointerOf power position).toInt * 2 ^ power = (position : Int) := by
    rw [toInt_pointerOf h]
    exact_mod_cast haligned
  unfold readAt
  simp only
  rw [hreal, if_neg (by omega), Int.toNat_natCast, hdata, readStringPiece_writeString]

theorem valueOf_of_mem {mapping : List (StdString × Int32)}
    (hnodup : (mapping.map (·.1.elems)).Nodup) {entry : StdString × Int32} (hmem : entry ∈ mapping) :
    valueOf mapping entry.1 = entry.2 := by
  induction mapping with
  | nil => cases hmem
  | cons first mapping ih =>
      obtain ⟨hfirst, hrest⟩ := List.nodup_cons.mp hnodup
      rw [valueOf]
      rcases List.mem_cons.mp hmem with rfl | hmem
      · rw [if_pos rfl]
      · rw [if_neg]
        · exact ih hrest hmem
        · intro heq
          exact hfirst (List.mem_map.mpr ⟨entry, hmem, heq.symm⟩)

/-- Pointers that increase after the conversion have not been cut, unless a string is so long that the
next pointer can be behind the negative numbers. -/
theorem fits_of_increasing {power position q : Nat} {strings : List StdString}
    (hshort : ∀ sp ∈ strings, sp.elems.length + 10 < 2 ^ 31) (hq : q < 2 ^ 31)
    (hposition : position + 2 ^ power ≤ (q + 2 ^ 31) * 2 ^ power)
    (hincreasing : ((q : Int) :: (layout power position strings).map fun entry =>
      (pointerOf power entry.1).toInt).Pairwise (· < ·)) :
    ∀ entry ∈ layout power position strings, entry.1 >>> power < 2 ^ 31 := by
  induction strings generalizing position q with
  | nil => exact fun _ h => nomatch h
  | cons sp strings ih =>
      rw [layout] at hincreasing ⊢
      rw [List.map_cons] at hincreasing
      obtain ⟨hfirst, hrest⟩ := List.pairwise_cons.mp hincreasing
      have hlt := align_lt position power
      have hmul := align_shiftRight_mul position power
      generalize Align position (2 ^ power) = aligned at *
      have hnext : (q : Int) < (pointerOf power aligned).toInt := hfirst _ List.mem_cons_self
      have hbound : aligned >>> power < q + 2 ^ 31 := by
        refine Nat.lt_of_mul_lt_mul_right (a := 2 ^ power) ?_
        omega
      have hfits : aligned >>> power < 2 ^ 31 := by
        by_contra hge
        have hneg := toInt_pointerOf_neg (Nat.not_lt.mp hge) (by omega)
        omega
      rw [toInt_pointerOf hfits] at hrest
      intro entry hmem
      rcases List.mem_cons.mp hmem with rfl | hmem
      · exact hfits
      · refine ih (fun s hs => hshort s (List.mem_cons_of_mem _ hs)) hfits ?_ hrest entry hmem
        have hlength := length_writeString_le sp
        have hsp := hshort sp List.mem_cons_self
        have hpos := Nat.two_pow_pos power
        rw [Nat.add_mul, hmul]
        omega

/-! ## The traversal -/

namespace StringStorageTraversal

theorem next_of_drop {t : StringStorageTraversal} {sp : StdString} {rest : List UInt8}
    (h : t.data.drop t.position = writeString sp ++ rest) :
    t.hasNext = true ∧ t.next = (some sp, { t with
      lastPosition := pointerOf t.alignPower t.position
      position := Align (t.position + (writeString sp).length) t.alignment }) := by
  have hlength := congrArg List.length h
  have hpos := length_writeString_pos sp
  rw [List.length_drop, List.length_append] at hlength
  refine ⟨decide_eq_true (by omega), ?_⟩
  unfold next
  simp only [h, readStringPiece_writeString, Option.isSome_some, ↓reduceIte, List.length_append,
    Nat.add_sub_cancel]

theorem enumerates_layout {t : StringStorageTraversal} {buf : List UInt8} {strings : List StdString}
    (hdata : t.data = buf ++ layoutBytes t.alignPower buf.length strings)
    (hposition : t.position = Align buf.length (2 ^ t.alignPower))
    (halignment : t.alignment = 2 ^ t.alignPower) :
    t.Enumerates ((layout t.alignPower buf.length strings).map fun entry =>
      (pointerOf t.alignPower entry.1, entry.2)) := by
  induction strings generalizing t buf with
  | nil =>
      rw [layoutBytes, List.append_nil] at hdata
      refine decide_eq_false ?_
      have hle := le_align buf.length t.alignPower
      rw [hdata, hposition]
      omega
  | cons sp strings ih =>
      have hpadded := @length_padded buf t.alignPower
      generalize hbuf : buf ++ List.replicate (Align buf.length (2 ^ t.alignPower) - buf.length) 0 =
        padded at hpadded
      rw [layoutBytes] at hdata
      rw [← List.append_assoc, hbuf] at hdata
      have hdrop : t.data.drop t.position = writeString sp ++ layoutBytes t.alignPower
          (Align buf.length (2 ^ t.alignPower) + (writeString sp).length) strings := by
        rw [hdata, hposition, ← hpadded, List.drop_left]
      obtain ⟨hhas, hnext⟩ := next_of_drop hdrop
      have hlength : (padded ++ writeString sp).length =
          Align buf.length (2 ^ t.alignPower) + (writeString sp).length := by
        rw [List.length_append, hpadded]
      rw [layout, List.map_cons]
      refine ⟨hhas, congrArg Prod.fst hnext, ?_, ?_⟩
      · rw [hnext, hposition]
      · rw [hnext, ← hlength]
        refine ih ?_ ?_ halignment
        · rw [hlength]
          exact hdata.trans (List.append_assoc _ _ _).symm
        · show Align (t.position + _) t.alignment = _
          rw [hlength, halignment, hposition]

theorem Enumerates.unique {t : StringStorageTraversal} {pairs pairs' : List (Int32 × StdString)}
    (h : t.Enumerates pairs) (h' : t.Enumerates pairs') : pairs = pairs' := by
  induction pairs generalizing t pairs' with
  | nil =>
      cases pairs' with
      | nil => rfl
      | cons pair rest => exact absurd (h'.1.symm.trans h) (by decide)
  | cons pair rest ih =>
      cases pairs' with
      | nil => exact absurd (h.1.symm.trans h') (by decide)
      | cons pair' rest' =>
          obtain ⟨-, hnext, hlast, hrest⟩ := h
          obtain ⟨-, hnext', hlast', hrest'⟩ := h'
          have hpair : pair = pair' :=
            Prod.ext (hlast.symm.trans hlast') (Option.some.inj (hnext.symm.trans hnext'))
          rw [hpair, ih hrest hrest']

end StringStorageTraversal

/-! ## The storage -/

namespace StringStorage

variable (storage : StringStorage) (forSort : List (StdString × Int32))

/-- Each stored string is read at its pointer, and the traversal yields the empty string at the pointer 0
and then the stored pairs in the order of their pointers. -/
def RoundTrips : Prop :=
  (∀ entry ∈ storage.mapping, readAt (storage.makeStorage forSort).2 storage.alignmentPower
    (valueOf (storage.makeStorage forSort).1 entry.1) = some entry.1) ∧
  ∃ t pairs, StringStorageTraversal.new (storage.makeStorage forSort).2 storage.alignmentPower =
      some t ∧
    t.Enumerates ((0, StdList.empty) :: pairs) ∧
    (pairs.map Prod.swap).Perm (storage.makeStorage forSort).1 ∧
    ((0 : Int) :: pairs.map (·.1.toInt)).Pairwise (· < ·)

/-- The strings with their positions. -/
def positions : List (Nat × StdString) :=
  layout storage.alignmentPower 1 (forSort.map (·.1))

/-- No pointer needs more than 31 bits. -/
def Fits : Prop :=
  ∀ entry ∈ storage.positions forSort, entry.1 >>> storage.alignmentPower < 2 ^ 31

/-- The pointers that are left of the positions increase, and at each of them the bytes are by chance
those of the string. -/
def Coincides : Prop :=
  ((0 : Int) :: (storage.positions forSort).map fun entry =>
    (pointerOf storage.alignmentPower entry.1).toInt).Pairwise (· < ·) ∧
  ∀ entry ∈ storage.positions forSort, readAt (storage.makeStorage forSort).2
    storage.alignmentPower (pointerOf storage.alignmentPower entry.1) = some entry.2

variable {storage forSort}

theorem data_eq : (storage.makeStorage forSort).2 =
    layoutBytes storage.alignmentPower 0 (StdList.empty :: forSort.map (·.1)) :=
  congrArg Prod.snd (makeStorage_eq storage forSort)

theorem stored_eq : (storage.makeStorage forSort).1 =
    (storage.positions forSort).map (pairOf storage.alignmentPower) :=
  congrArg Prod.fst (makeStorage_eq storage forSort)

theorem Fits.coincides (h : storage.Fits forSort) : storage.Coincides forSort := by
  constructor
  · have hfull := pairwise_layout storage.alignmentPower 0 (StdList.empty :: forSort.map (·.1))
    rw [layout_empty] at hfull
    have hmap : (storage.positions forSort).map (fun entry =>
        (pointerOf storage.alignmentPower entry.1).toInt) = (storage.positions forSort).map
          fun entry => ((entry.1 >>> storage.alignmentPower : Nat) : Int) :=
      List.map_congr_left fun entry hentry => toInt_pointerOf (h entry hentry)
    obtain ⟨hfirst, hrest⟩ := List.pairwise_cons.mp hfull
    rw [hmap]
    refine List.pairwise_cons.mpr ⟨fun i hi => ?_, ?_⟩
    · obtain ⟨entry, hentry, rfl⟩ := List.mem_map.mp hi
      have hpos := hfirst entry hentry
      rw [Nat.zero_shiftRight] at hpos
      exact_mod_cast hpos
    · rw [List.pairwise_map]
      exact hrest.imp fun hlt => by exact_mod_cast hlt
  · intro entry hentry
    obtain ⟨haligned, -⟩ := aligned_of_mem_layout hentry
    have hmem : entry ∈ layout storage.alignmentPower ([] : List UInt8).length
        (StdList.empty :: forSort.map (·.1)) := by
      rw [List.length_nil, layout_empty]
      exact List.mem_cons_of_mem _ hentry
    obtain ⟨rest, hdrop⟩ := drop_layoutBytes hmem
    rw [data_eq]
    exact readAt_pointerOf haligned (h entry hentry) hdrop

theorem enumerates_positions {t : StringStorageTraversal}
    (h : StringStorageTraversal.new (storage.makeStorage forSort).2 storage.alignmentPower = some t) :
    t.Enumerates ((0, StdList.empty) :: (storage.positions forSort).map fun entry =>
      (pointerOf storage.alignmentPower entry.1, entry.2)) := by
  unfold StringStorageTraversal.new at h
  split at h
  next =>
    cases h
    have hall := @StringStorageTraversal.enumerates_layout
      ⟨(storage.makeStorage forSort).2, 0, 0, storage.alignmentPower, 2 ^ storage.alignmentPower⟩ []
      (StdList.empty :: forSort.map (·.1)) data_eq (by rw [List.length_nil, align_eq,
        if_pos (Nat.zero_mod _)]) rfl
    rw [List.length_nil, layout_empty, List.map_cons] at hall
    have hzero : pointerOf storage.alignmentPower 0 = 0 := by
      unfold pointerOf
      rw [Nat.zero_shiftRight]
      rfl
    simp only [hzero] at hall
    exact hall
  next => cases h

/-- Each string has one value in the map. -/
theorem valueOf_stored (hsorted : storage.Sorted forSort) {entry : Nat × StdString}
    (hentry : entry ∈ storage.positions forSort) :
    valueOf (storage.makeStorage forSort).1 entry.2 =
      pointerOf storage.alignmentPower entry.1 := by
  have hkeys : ((storage.makeStorage forSort).1.map (·.1.elems)) =
      forSort.map (·.1.elems) := by
    rw [stored_eq, List.map_map]
    show (storage.positions forSort).map (·.2.elems) = _
    have hsnd := congrArg (List.map StdList.elems)
      (map_snd_layout storage.alignmentPower 1 (forSort.map (·.1)))
    rw [List.map_map, List.map_map] at hsnd
    exact hsnd
  have hnodup : ((storage.makeStorage forSort).1.map (·.1.elems)).Nodup := by
    rw [hkeys]
    exact (hsorted.1.map _).nodup_iff.mpr storage.mapping_nodup
  refine @valueOf_of_mem _ hnodup (pairOf storage.alignmentPower entry) ?_
  rw [stored_eq]
  exact List.mem_map_of_mem hentry

theorem roundTrips_iff_coincides (hsorted : storage.Sorted forSort) :
    storage.RoundTrips forSort ↔ storage.alignmentPower < 32 ∧ storage.Coincides forSort := by
  have hsnd := map_snd_layout storage.alignmentPower 1 (forSort.map (·.1))
  constructor
  · rintro ⟨hread, t, pairs, hnew, henumerates, -, hincreasing⟩
    have hpower : storage.alignmentPower < 32 := by
      by_contra hge
      unfold StringStorageTraversal.new at hnew
      rw [if_neg hge] at hnew
      cases hnew
    obtain ⟨-, rfl⟩ := List.cons.inj (henumerates.unique (enumerates_positions hnew))
    rw [List.map_map] at hincreasing
    refine ⟨hpower, hincreasing, fun entry hentry => ?_⟩
    have hkey : entry.2 ∈ forSort.map (·.1) := by
      rw [← hsnd]
      exact List.mem_map_of_mem hentry
    obtain ⟨stored, hstored, hsame⟩ := List.mem_map.mp hkey
    have hvalue := hread stored (hsorted.1.mem_iff.mp hstored)
    rw [hsame, valueOf_stored hsorted hentry] at hvalue
    exact hvalue
  · rintro ⟨hpower, hincreasing, hread⟩
    have hnew : StringStorageTraversal.new (storage.makeStorage forSort).2 storage.alignmentPower =
        some _ := if_pos hpower
    refine ⟨fun stored hstored => ?_, _, _, hnew, enumerates_positions hnew, ?_, ?_⟩
    · have hkey : stored.1 ∈ (storage.positions forSort).map (·.2) := by
        rw [positions, hsnd]
        exact List.mem_map_of_mem (hsorted.1.mem_iff.mpr hstored)
      obtain ⟨entry, hentry, hsame⟩ := List.mem_map.mp hkey
      rw [← hsame, valueOf_stored hsorted hentry]
      exact hread entry hentry
    · rw [List.map_map, stored_eq]
      exact List.Perm.refl _
    · rw [List.map_map]
      exact hincreasing

/-- The strings come back as long as the shift of the reader is defined and the pointers are not cut.
Cut pointers that do not show need a string of about two gigabytes. -/
theorem roundTrips_iff (hsorted : storage.Sorted forSort) :
    storage.RoundTrips forSort ↔ storage.alignmentPower < 32 ∧ (storage.Fits forSort ∨
      (∃ entry ∈ storage.mapping, 2 ^ 31 ≤ entry.1.elems.length + 10) ∧
        storage.Coincides forSort) := by
  rw [roundTrips_iff_coincides hsorted]
  refine and_congr_right fun _ => ?_
  constructor
  · intro hcoincides
    by_cases hlong : ∃ entry ∈ storage.mapping, 2 ^ 31 ≤ entry.1.elems.length + 10
    · exact .inr ⟨hlong, hcoincides⟩
    · refine .inl ?_
      have hshort (sp : StdString) (hsp : sp ∈ forSort.map (·.1)) :
          sp.elems.length + 10 < 2 ^ 31 := by
        obtain ⟨entry, hentry, rfl⟩ := List.mem_map.mp hsp
        by_contra hge
        exact hlong ⟨entry, hsorted.1.mem_iff.mp hentry, Nat.not_lt.mp hge⟩
      have hpos := Nat.two_pow_pos storage.alignmentPower
      exact fits_of_increasing hshort (Nat.two_pow_pos 31) (by omega) hcoincides.1
  · rintro (hfits | ⟨-, hcoincides⟩)
    · exact hfits.coincides
    · exact hcoincides

end StringStorage

/-- Two strings, the second more frequent. -/
def twoStrings (alignmentPower : Nat) : StringStorage where
  mapping := [(⟨[0x61, 0x62], by decide⟩, 1), (⟨[0x63], by decide⟩, 2)]
  alignmentPower := alignmentPower
  mapping_nodup := by decide

theorem sorted_twoStrings (alignmentPower : Nat) :
    (twoStrings alignmentPower).Sorted (twoStrings 0).mapping.reverse :=
  ⟨List.reverse_perm _, by decide⟩

namespace StringStorage

theorem roundTrips_iff_twoStrings :
    (twoStrings 2).RoundTrips (twoStrings 0).mapping.reverse :=
  (roundTrips_iff (sorted_twoStrings 2)).mpr ⟨by decide, .inl (by unfold Fits; decide +kernel)⟩

/-- The writer takes the alignment, and the reader cannot shift by it. -/
theorem wide_alignment_not_roundTrips :
    ¬(twoStrings 32).RoundTrips (twoStrings 0).mapping.reverse := by
  rintro ⟨-, t, pairs, hnew, -⟩
  unfold StringStorageTraversal.new at hnew
  rw [if_neg (show ¬(twoStrings 32).alignmentPower < 32 from Nat.lt_irrefl 32)] at hnew
  cases hnew

end StringStorage

end Jumanpp.Core.Dic
