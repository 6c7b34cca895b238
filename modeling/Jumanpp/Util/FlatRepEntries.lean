import Jumanpp.Lib.Assoc
import Jumanpp.Util.FlatRepSearch

/-!
# The entries of the hash table

Each operation keeps the table searchable and changes its entries as it says, in any order.
-/

namespace Jumanpp.Util

open Jumanpp.Lib

namespace FlatRep

variable {K V : Type} {hash : K → Nat} {t u : FlatRep K V} {k : K} {v : V}

/-- The entries, in the order of the iterators. -/
def entries (t : FlatRep K V) : List (K × V) := t.slots.filterMap Slot.entry

variable (hash) in
/-- The search for the key gets to the slot. -/
def Reached (t : FlatRep K V) (i : Nat) (k : K) : Prop :=
  ∃ p, t.probeFor hash k p = i ∧ ∀ q < p, t.probed hash k q ≠ some .empty

variable (hash) in
structure Inv (t : FlatRep K V) : Prop where
  reach : ∀ i x k v, t.slots[i]? = some (.occupied x k v) → x = marker hash k ∧ t.Reached hash i k
  nodup : (t.entries.map Prod.fst).Nodup
  notEmpty_eq : t.notEmpty + t.slots.countP Slot.isEmpty = t.slots.length
  deleted_eq : t.deleted = t.slots.countP Slot.isDeleted
  room : t.notEmpty ≤ t.capacity * 4 / 5
  grow_eq : t.grow = 0 ∨ t.grow = t.capacity * 4 / 5

theorem length_eq_capacity (t : FlatRep K V) : t.slots.length = t.capacity := by
  rw [capacity_eq, t.length_slots]

theorem capacity_pos (t : FlatRep K V) : 0 < t.capacity := Nat.succ_pos _

theorem mem_entries : (k, v) ∈ t.entries ↔ ∃ (i : Nat) (x : Nat), t.slots[i]? = some (.occupied x k v) := by
  unfold entries
  rw [List.mem_filterMap]
  refine ⟨?_, ?_⟩
  · rintro ⟨slot, hmem, hentry⟩
    obtain ⟨i, hi⟩ := List.mem_iff_getElem?.mp hmem
    cases slot with
    | empty => cases hentry
    | deleted => cases hentry
    | occupied x key val =>
        cases hentry
        exact ⟨i, x, hi⟩
  · rintro ⟨i, x, hi⟩
    exact ⟨_, List.mem_of_getElem? hi, rfl⟩

theorem count_slots (slots : List (Slot K V)) :
    slots.countP Slot.isEmpty + slots.countP Slot.isDeleted +
      (slots.filterMap Slot.entry).length = slots.length := by
  induction slots with
  | nil => rfl
  | cons slot slots ih =>
      rw [List.countP_cons, List.countP_cons, List.filterMap_cons, List.length_cons]
      cases slot with
      | empty =>
          simp only [Slot.isEmpty, Slot.isDeleted, Slot.entry, if_true, Bool.false_eq_true, if_false]
          omega
      | deleted =>
          simp only [Slot.isEmpty, Slot.isDeleted, Slot.entry, if_true, Bool.false_eq_true, if_false]
          omega
      | occupied x key val =>
          simp only [Slot.isEmpty, Slot.isDeleted, Slot.entry, Bool.false_eq_true, if_false,
            List.length_cons]
          omega

theorem Inv.size_eq (h : t.Inv hash) : t.size = t.entries.length := by
  have hcount := count_slots t.slots
  have hnotEmpty := h.notEmpty_eq
  have hdeleted := h.deleted_eq
  unfold size entries
  omega

theorem Inv.hasEmpty (h : t.Inv hash) : t.HasEmpty := by
  have hroom := h.room
  have hpos := t.capacity_pos
  have hnotEmpty := h.notEmpty_eq
  rw [t.length_eq_capacity] at hnotEmpty
  have hcount : 0 < t.slots.countP Slot.isEmpty := by omega
  obtain ⟨slot, hmem, hslot⟩ := List.countP_pos_iff.mp hcount
  cases slot with
  | empty => exact hmem
  | deleted => cases hslot
  | occupied x key val => cases hslot

/-! ## What the searches find -/

theorem Inv.not_mem (h : t.Inv hash) {p : Nat} (hempty : t.probed hash k p = some .empty)
    (hbefore : ∀ q < p, ¬ Stops hash k (t.probed hash k q)) (v : V) : (k, v) ∉ t.entries := by
  intro hmem
  obtain ⟨i, x, hi⟩ := mem_entries.mp hmem
  obtain ⟨rfl, r, rfl, hpath⟩ := h.reach i x k v hi
  rcases Nat.lt_trichotomy r p with hlt | rfl | hlt
  · exact hbefore r hlt (.inr ⟨v, hi⟩)
  · rw [probed, hi] at hempty
    cases hempty
  · exact hpath p hlt hempty

theorem Inv.find_spec [DecidableEq K] (h : t.Inv hash) (k : K) :
    (t.find hash k = some none ∧ ∀ v, (k, v) ∉ t.entries) ∨
      ∃ i v, t.find hash k = some (some i) ∧ t.slots[i]? = some (.occupied (marker hash k) k v) := by
  obtain ⟨p, -, hbefore, ⟨hempty, hfind⟩ | ⟨v, hslot, hfind⟩⟩ := @find_eq _ _ hash t k _ h.hasEmpty
  · exact .inl ⟨hfind, h.not_mem hempty hbefore⟩
  · exact .inr ⟨_, v, hfind, hslot⟩

/-! ## A slot is filled or erased -/

theorem probeFor_congr (hlg : u.lglen = t.lglen) (k : K) (p : Nat) :
    u.probeFor hash k p = t.probeFor hash k p := by
  rw [probeFor, probeFor, hlg]

/-- A search goes over a slot that is not empty also when it changes. -/
theorem Reached.set {i j : Nat} {slot : Slot K V} (h : t.Reached hash i k)
    (hlg : u.lglen = t.lglen) (hslots : u.slots = t.slots.set j slot) (hslot : slot ≠ .empty) :
    u.Reached hash i k := by
  obtain ⟨p, hp, hpath⟩ := h
  refine ⟨p, (probeFor_congr hlg k p).trans hp, fun q hq hempty => ?_⟩
  rw [probed, probeFor_congr hlg, hslots] at hempty
  rcases eq_or_ne j (t.probeFor hash k q) with rfl | hne
  · rw [List.getElem?_set_self (probeFor_lt q)] at hempty
    exact hslot (Option.some.inj hempty)
  · rw [List.getElem?_set_ne hne] at hempty
    exact hpath q hq hempty

theorem occupied_ne_empty (x : Nat) (k : K) (v : V) : Slot.occupied x k v ≠ .empty :=
  fun h => by cases h

theorem deleted_ne_empty : (Slot.deleted : Slot K V) ≠ .empty := fun h => by cases h

theorem capacity_congr (hlg : u.lglen = t.lglen) : u.capacity = t.capacity := by
  rw [capacity_eq, capacity_eq, hlg]

theorem Inv.occupy {i : Nat} {slot : Slot K V} (h : t.Inv hash) (hi : t.slots[i]? = some slot)
    (hslot : slot.entry = none) (hreach : t.Reached hash i k) (hkey : ∀ v, (k, v) ∉ t.entries)
    (hslots : u.slots = t.slots.set i (.occupied (marker hash k) k v)) (hlg : u.lglen = t.lglen)
    (hnotEmpty : u.notEmpty = t.notEmpty + slot.isEmpty.toNat)
    (hdeleted : u.deleted + slot.isDeleted.toNat = t.deleted) (hgrow : u.grow = t.grow)
    (hroom : u.notEmpty ≤ t.capacity * 4 / 5) :
    u.Inv hash ∧ u.entries.Perm ((k, v) :: t.entries) := by
  have hperm : u.entries.Perm ((k, v) :: t.entries) := by
    have hset := @perm_filterMap_set _ _ Slot.entry t.slots i slot
      (.occupied (marker hash k) k v) hi
    rw [hslot] at hset
    unfold entries
    rw [hslots]
    exact hset
  have hempties : (t.slots.set i (.occupied (marker hash k) k v)).countP Slot.isEmpty +
      slot.isEmpty.toNat = t.slots.countP Slot.isEmpty := countP_set_of_getElem? hi
  have hdeleteds : (t.slots.set i (.occupied (marker hash k) k v)).countP Slot.isDeleted +
      slot.isDeleted.toNat = t.slots.countP Slot.isDeleted := countP_set_of_getElem? hi
  refine ⟨⟨fun j x key val hj => ?_, ?_, ?_, ?_, ?_, ?_⟩, hperm⟩
  · rw [hslots] at hj
    rcases eq_or_ne i j with rfl | hne
    · have hlt := (List.getElem?_eq_some_iff.mp hi).1
      rw [List.getElem?_set_self hlt] at hj
      cases hj
      exact ⟨rfl, hreach.set hlg hslots (occupied_ne_empty _ _ _)⟩
    · rw [List.getElem?_set_ne hne] at hj
      obtain ⟨hx, hreach'⟩ := h.reach j x key val hj
      exact ⟨hx, hreach'.set hlg hslots (occupied_ne_empty _ _ _)⟩
  · rw [(hperm.map Prod.fst).nodup_iff, List.map_cons, List.nodup_cons]
    refine ⟨fun hmem => ?_, h.nodup⟩
    obtain ⟨e, he, rfl⟩ := List.mem_map.mp hmem
    exact hkey e.2 he
  · rw [hslots, List.length_set, hnotEmpty]
    have hbefore := h.notEmpty_eq
    omega
  · rw [hslots]
    have hbefore := h.deleted_eq
    omega
  · rw [capacity_congr hlg]
    exact hroom
  · rw [hgrow, capacity_congr hlg]
    exact h.grow_eq

theorem Inv.erase {i x : Nat} (h : t.Inv hash) (hi : t.slots[i]? = some (.occupied x k v)) :
    (t.erase i).Inv hash ∧ t.entries.Perm ((k, v) :: (t.erase i).entries) := by
  have hperm : t.entries.Perm ((k, v) :: (t.erase i).entries) :=
    (@perm_filterMap_set _ _ Slot.entry t.slots i _ .deleted hi).symm
  have hempties : (t.slots.set i .deleted).countP Slot.isEmpty + false.toNat =
      t.slots.countP Slot.isEmpty + false.toNat := countP_set_of_getElem? hi
  have hdeleteds : (t.slots.set i .deleted).countP Slot.isDeleted + false.toNat =
      t.slots.countP Slot.isDeleted + true.toNat := countP_set_of_getElem? hi
  rw [Bool.toNat_false, Nat.add_zero, Nat.add_zero] at hempties
  rw [Bool.toNat_false, Bool.toNat_true, Nat.add_zero] at hdeleteds
  have hcapacity : (t.erase i).capacity = t.capacity := capacity_congr rfl
  refine ⟨⟨fun j y key val hj => ?_, ?_, ?_, ?_, hcapacity ▸ h.room, .inl rfl⟩, hperm⟩
  · have hj' : (t.slots.set i .deleted)[j]? = some (.occupied y key val) := hj
    rcases eq_or_ne i j with rfl | hne
    · have hlt := (List.getElem?_eq_some_iff.mp hi).1
      rw [List.getElem?_set_self hlt] at hj'
      cases hj'
    · rw [List.getElem?_set_ne hne] at hj'
      obtain ⟨hy, hreach⟩ := h.reach j y key val hj'
      exact ⟨hy, hreach.set rfl rfl deleted_ne_empty⟩
  · have hnodup := ((hperm.map Prod.fst).nodup_iff.mp h.nodup)
    exact (List.nodup_cons.mp hnodup).2
  · have hbefore := h.notEmpty_eq
    show t.notEmpty + (t.slots.set i .deleted).countP _ = (t.slots.set i .deleted).length
    rw [List.length_set]
    omega
  · have hbefore := h.deleted_eq
    show t.deleted + 1 = (t.slots.set i .deleted).countP _
    omega

/-- What a new entry does, whether it gets the first erased slot or the empty one. -/
theorem Inv.place {p : Nat} (h : t.Inv hash) (hspace : t.notEmpty < t.capacity * 4 / 5)
    (hempty : t.probed hash k p = some .empty)
    (hbefore : ∀ q < p, ¬ Stops hash k (t.probed hash k q)) {i : Nat}
    (hplace : t.place hash k v (t.firstDeleted hash k p) (t.probeFor hash k p) = (u, i)) :
    u.Inv hash ∧ u.entries.Perm ((k, v) :: t.entries) ∧
      u.slots[i]? = some (.occupied (marker hash k) k v) := by
  have hkey := h.not_mem hempty hbefore
  have hpath : ∀ q < p, t.probed hash k q ≠ some .empty := fun q hq hq' => hbefore q hq (.inl hq')
  unfold FlatRep.place at hplace
  cases hdel : t.firstDeleted hash k p with
  | none =>
      rw [hdel] at hplace
      obtain ⟨rfl, rfl⟩ := Prod.mk.inj hplace
      obtain ⟨hinv, hperm⟩ := @Inv.occupy _ _ hash t
        { t.withSlot (t.probeFor hash k p) (.occupied (marker hash k) k v) with
          notEmpty := t.notEmpty + 1 } k v _ _ h hempty rfl ⟨p, rfl, hpath⟩ hkey rfl rfl rfl rfl rfl hspace
      exact ⟨hinv, hperm, List.getElem?_set_self (probeFor_lt p)⟩
  | some j =>
      rw [hdel] at hplace
      obtain ⟨rfl, rfl⟩ := Prod.mk.inj hplace
      obtain ⟨q, hq, hprobe, hdeleted⟩ := firstDeleted_spec hdel
      have hpos : 0 < t.deleted := by
        rw [h.deleted_eq, List.countP_pos_iff]
        exact ⟨.deleted, List.mem_of_getElem? hdeleted, rfl⟩
      obtain ⟨hinv, hperm⟩ := @Inv.occupy _ _ hash t
        { t.withSlot j (.occupied (marker hash k) k v) with deleted := t.deleted - 1 } k v j _ h hdeleted
        rfl ⟨q, hprobe, fun r hr => hpath r (hr.trans hq)⟩ hkey rfl rfl rfl (Nat.sub_add_cancel hpos) rfl
        hspace.le
      exact ⟨hinv, hperm, List.getElem?_set_self (List.getElem?_eq_some_iff.mp hdeleted).1⟩

theorem Inv.findOrInsert_spec [DecidableEq K] (h : t.Inv hash)
    (hspace : t.notEmpty < t.capacity * 4 / 5) (k : K) (v : V) :
    (∃ i w, t.findOrInsert hash k v = some (true, t, i) ∧
        t.slots[i]? = some (.occupied (marker hash k) k w)) ∨
      ∃ u i, t.findOrInsert hash k v = some (false, u, i) ∧ (∀ w, (k, w) ∉ t.entries) ∧
        u.Inv hash ∧ u.entries.Perm ((k, v) :: t.entries) ∧
        u.slots[i]? = some (.occupied (marker hash k) k v) := by
  obtain ⟨p, -, hbefore, ⟨hempty, hfind⟩ | ⟨w, hslot, hfind⟩⟩ :=
    @findOrInsert_eq _ _ hash t k _ h.hasEmpty v
  · exact .inr ⟨_, _, hfind, h.not_mem hempty hbefore, h.place hspace hempty hbefore rfl⟩
  · exact .inl ⟨_, w, hfind, hslot⟩

/-! ## A value is written -/

/-- A write through the reference to a value. -/
def write (t : FlatRep K V) (i : Nat) (v : V) : FlatRep K V :=
  match t.slots[i]? with
  | some (.occupied x k _) => t.withSlot i (.occupied x k v)
  | _ => t

theorem Inv.write {i x : Nat} {w : V} (h : t.Inv hash) (hi : t.slots[i]? = some (.occupied x k w)) :
    (t.write i v).Inv hash ∧ ((k, w) :: (t.write i v).entries).Perm ((k, v) :: t.entries) ∧
      (k, v) ∈ (t.write i v).entries := by
  have hlt := (List.getElem?_eq_some_iff.mp hi).1
  have hwrite : t.write i v = t.withSlot i (.occupied x k v) := by
    unfold FlatRep.write
    rw [hi]
  rw [hwrite]
  have hperm : ((k, w) :: (t.withSlot i (.occupied x k v)).entries).Perm ((k, v) :: t.entries) :=
    @perm_filterMap_set _ _ Slot.entry t.slots i _ (.occupied x k v) hi
  have hempties : (t.slots.set i (.occupied x k v)).countP Slot.isEmpty + false.toNat =
      t.slots.countP Slot.isEmpty + false.toNat := countP_set_of_getElem? hi
  have hdeleteds : (t.slots.set i (.occupied x k v)).countP Slot.isDeleted + false.toNat =
      t.slots.countP Slot.isDeleted + false.toNat := countP_set_of_getElem? hi
  rw [Bool.toNat_false, Nat.add_zero, Nat.add_zero] at hempties hdeleteds
  have hcapacity : (t.withSlot i (.occupied x k v)).capacity = t.capacity := capacity_congr rfl
  refine ⟨⟨fun j y key val hj => ?_, ?_, ?_, ?_, hcapacity ▸ h.room, hcapacity ▸ h.grow_eq⟩, hperm,
    mem_entries.mpr ⟨i, x, List.getElem?_set_self hlt⟩⟩
  · have hj' : (t.slots.set i (.occupied x k v))[j]? = some (.occupied y key val) := hj
    rcases eq_or_ne i j with rfl | hne
    · rw [List.getElem?_set_self hlt] at hj'
      cases hj'
      obtain ⟨hx, hreach⟩ := h.reach i x k w hi
      exact ⟨hx, hreach.set rfl rfl (occupied_ne_empty _ _ _)⟩
    · rw [List.getElem?_set_ne hne] at hj'
      obtain ⟨hy, hreach⟩ := h.reach j y key val hj'
      exact ⟨hy, hreach.set rfl rfl (occupied_ne_empty _ _ _)⟩
  · exact ((List.perm_cons k).mp (hperm.map Prod.fst)).nodup_iff.mpr h.nodup
  · show t.notEmpty + (t.slots.set i _).countP _ = (t.slots.set i _).length
    rw [List.length_set, hempties]
    exact h.notEmpty_eq
  · exact h.deleted_eq.trans hdeleteds.symm

end FlatRep

end Jumanpp.Util
