import Jumanpp.Util.FlatRepEntries

/-!
# The size of the hash table

A new array gets the entries of the old one, and there is always room for one entry more.
-/

namespace Jumanpp.Util

open Jumanpp.Lib

namespace FlatRep

variable {K V : Type} {hash : K → Nat} {t u : FlatRep K V} {k : K} {v : V}

/-- The loop of `Init` ends for this number of entries. -/
def Fits (n : Nat) : Prop := 5 * n < 4 * 2 ^ 31

theorem lgFor_spec {n lg : Nat} (h : lgFor n = some lg) : n ≤ 2 ^ (lg + 3) * 4 / 5 := by
  have hfound := List.find?_some h
  have hlt : 5 * n < 4 * (2 ^ lg * 8) := of_decide_eq_true hfound
  rw [pow_add]
  omega

theorem exists_lgFor {n : Nat} (h : Fits n) : ∃ lg, lgFor n = some lg := by
  refine Option.isSome_iff_exists.mp (List.find?_isSome.mpr ⟨28, List.mem_range.mpr (by decide), ?_⟩)
  refine decide_eq_true ?_
  unfold Fits at h
  omega

theorem blank_capacity (lg : Nat) : (blank K V lg).capacity = 2 ^ (lg + 3) := capacity_eq _

theorem blank_inv (lg : Nat) : (blank K V lg).Inv hash where
  reach := fun i x k v h => by
    have hmem := List.eq_of_mem_replicate (List.mem_of_getElem? h)
    cases hmem
  nodup := by
    have hnil : (blank K V lg).entries = [] := by
      rw [entries, List.filterMap_eq_nil_iff]
      intro slot hslot
      rw [List.eq_of_mem_replicate hslot]
      rfl
    rw [hnil]
    exact List.nodup_nil
  notEmpty_eq := by
    show 0 + (List.replicate (2 ^ (lg + 3)) Slot.empty).countP Slot.isEmpty =
      (List.replicate (2 ^ (lg + 3)) (Slot.empty : Slot K V)).length
    rw [List.countP_replicate, List.length_replicate, Nat.zero_add]
    rfl
  deleted_eq := by
    show 0 = (List.replicate (2 ^ (lg + 3)) Slot.empty).countP Slot.isDeleted
    rw [List.countP_replicate]
    rfl
  room := Nat.zero_le _
  grow_eq := .inr (by rw [blank_capacity]; rfl)

theorem blank_entries (lg : Nat) : (blank K V lg).entries = [] := by
  rw [entries, List.filterMap_eq_nil_iff]
  intro slot hslot
  rw [List.eq_of_mem_replicate hslot]
  rfl

theorem Inv.freshInsert (h : t.Inv hash) (hspace : t.notEmpty < t.capacity * 4 / 5)
    (hkey : ∀ w, (k, w) ∉ t.entries) (v : V) :
    ∃ u, t.freshInsert hash k v = some u ∧ u.Inv hash ∧ u.entries.Perm ((k, v) :: t.entries) ∧
      u.lglen = t.lglen ∧ u.notEmpty = t.notEmpty + 1 ∧ u.grow = t.grow := by
  obtain ⟨p, -, hempty, hbefore, hinsert⟩ := @freshInsert_eq _ _ hash t k h.hasEmpty v
  obtain ⟨hinv, hperm⟩ := @Inv.occupy _ _ hash t
    { t.withSlot (t.probeFor hash k p) (.occupied (marker hash k) k v) with
      notEmpty := t.notEmpty + 1 } k v _ _ h hempty rfl ⟨p, rfl, hbefore⟩ hkey rfl rfl rfl rfl rfl hspace
  exact ⟨_, hinsert, hinv, hperm, rfl, rfl, rfl⟩

theorem Inv.copyEntries {slots : List (Slot K V)} (h : t.Inv hash)
    (hspace : t.notEmpty + (slots.filterMap Slot.entry).length ≤ t.capacity * 4 / 5)
    (hnodup : ((slots.filterMap Slot.entry ++ t.entries).map Prod.fst).Nodup) :
    ∃ u, t.copyEntries hash slots = some u ∧ u.Inv hash ∧
      u.entries.Perm (slots.filterMap Slot.entry ++ t.entries) ∧ u.lglen = t.lglen ∧
      u.notEmpty = t.notEmpty + (slots.filterMap Slot.entry).length ∧ u.grow = t.grow := by
  induction slots generalizing t with
  | nil => exact ⟨t, rfl, h, .refl _, rfl, rfl, rfl⟩
  | cons slot slots ih =>
      cases slot with
      | empty => exact ih h hspace hnodup
      | deleted => exact ih h hspace hnodup
      | occupied x k v =>
          rw [List.filterMap_cons_some (show (Slot.occupied x k v).entry = some (k, v) from rfl)] at *
          rw [List.length_cons] at hspace
          rw [List.cons_append, List.map_cons, List.nodup_cons] at hnodup
          have hkey : ∀ w, (k, w) ∉ t.entries := fun w hmem =>
            hnodup.1 (List.mem_map.mpr ⟨(k, w), List.mem_append_right _ hmem, rfl⟩)
          obtain ⟨u, hinsert, hinv, hperm, hlg, hnotEmpty, hgrow⟩ :=
            h.freshInsert (by omega) hkey v
          have hmiddle : (slots.filterMap Slot.entry ++ u.entries).Perm
              ((k, v) :: (slots.filterMap Slot.entry ++ t.entries)) :=
            (hperm.append_left _).trans List.perm_middle
          obtain ⟨w, hcopy, hinv', hperm', hlg', hnotEmpty', hgrow'⟩ := ih hinv
            (by rw [capacity_congr hlg]; omega)
            (by
              rw [(hmiddle.map Prod.fst).nodup_iff, List.map_cons, List.nodup_cons]
              exact hnodup)
          refine ⟨w, ?_, hinv', hperm'.trans hmiddle, hlg'.trans hlg, ?_, hgrow'.trans hgrow⟩
          · rw [FlatRep.copyEntries, hinsert]
            exact hcopy
          · rw [hnotEmpty', hnotEmpty, List.length_cons]
            omega

/-- A new array of a size that `Init` finds for `n` entries. -/
theorem Inv.resize {n : Nat} (h : t.Inv hash) (hn : t.size ≤ n) (hfits : Fits n) :
    ∃ u, t.resize hash n = some u ∧ u.Inv hash ∧ u.entries.Perm t.entries ∧ u.notEmpty = t.size ∧
      n ≤ u.capacity * 4 / 5 ∧ u.grow = u.capacity * 4 / 5 := by
  obtain ⟨lg, hlg⟩ := exists_lgFor hfits
  have hcapacity := lgFor_spec hlg
  have hblank : (blank K V lg).Inv hash := blank_inv lg
  have hsize := h.size_eq
  have hperm0 : t.slots.filterMap Slot.entry ++ (blank K V lg).entries = t.entries := by
    rw [blank_entries, List.append_nil]
    rfl
  have hspace : (blank K V lg).notEmpty + (t.slots.filterMap Slot.entry).length ≤
      (blank K V lg).capacity * 4 / 5 := by
    rw [blank_capacity]
    show 0 + t.entries.length ≤ _
    omega
  obtain ⟨u, hcopy, hinv, hperm, hlglen, hnotEmpty, hgrow⟩ :=
    hblank.copyEntries hspace (by rw [hperm0]; exact h.nodup)
  have hcapacity' : u.capacity = 2 ^ (lg + 3) := by rw [capacity_eq, hlglen]; rfl
  refine ⟨u, ?_, hinv, ?_, ?_, ?_, ?_⟩
  · rw [FlatRep.resize, init, hlg]
    exact hcopy
  · rw [← hperm0]
    exact hperm
  · rw [hnotEmpty, hsize]
    exact Nat.zero_add _
  · rw [hcapacity']
    exact hcapacity
  · rw [hgrow, hcapacity']
    rfl

/-- After it there is room for one entry more. -/
theorem Inv.maybeResize (h : t.Inv hash) (hfits : Fits (t.size + 1)) :
    ∃ u, t.maybeResize hash = some u ∧ u.Inv hash ∧ u.entries.Perm t.entries ∧
      u.notEmpty < u.capacity * 4 / 5 := by
  have hresize : ∃ u, t.resize hash (t.size + 1) = some u ∧ u.Inv hash ∧ u.entries.Perm t.entries ∧
      u.notEmpty < u.capacity * 4 / 5 := by
    obtain ⟨u, hu, hinv, hperm, hnotEmpty, hcapacity, -⟩ := h.resize (Nat.le_succ _) hfits
    exact ⟨u, hu, hinv, hperm, by omega⟩
  unfold FlatRep.maybeResize
  split_ifs with hroom hgrow
  · have hgrow := h.grow_eq
    exact ⟨t, rfl, h, .refl _, by omega⟩
  · have hinv : ({ t with grow := t.capacity * 4 / 5 } : FlatRep K V).Inv hash :=
      ⟨h.reach, h.nodup, h.notEmpty_eq, h.deleted_eq, h.room, .inr rfl⟩
    simp only
    split_ifs with hroom'
    · exact ⟨_, rfl, hinv, .refl _, hroom'⟩
    · exact hresize
  · exact hresize

end FlatRep

end Jumanpp.Util
