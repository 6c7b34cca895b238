import Jumanpp.Util.FlatRep

/-!
# Searches in the hash table

As long as a slot is empty, each search ends: at the slot of the key, or at an empty slot if the
key is not in the table.
-/

namespace Jumanpp.Util

open Jumanpp.Lib

namespace FlatRep

variable {K V : Type} {hash : K → Nat} {t : FlatRep K V} {k : K} {v : V}

/-! ## Probes -/

theorem capacity_eq (t : FlatRep K V) : t.capacity = 2 ^ (t.lglen + 3) := by
  have hpos := Nat.two_pow_pos (t.lglen + 3)
  rw [capacity, mask, t.length_slots]
  omega

theorem and_mask (t : FlatRep K V) (n : Nat) : n &&& t.mask = n % 2 ^ (t.lglen + 3) := by
  rw [mask, t.length_slots, Nat.and_two_pow_sub_one_eq_mod]

variable (hash) in
/-- The slot of the probe for a key with this number. -/
def probeFor (t : FlatRep K V) (k : K) (p : Nat) : Nat :=
  probe (2 ^ (t.lglen + 3)) (hash k >>> 8) p

theorem probeFor_zero : t.probeFor hash k 0 = t.start hash k := by
  rw [start, and_mask]
  rfl

theorem probeFor_succ (p : Nat) :
    t.probeFor hash k (p + 1) = t.nextIndex (t.probeFor hash k p) (p + 1) := by
  rw [nextIndex, and_mask]
  exact probe_succ _ _ _

theorem probeFor_lt (p : Nat) : t.probeFor hash k p < t.slots.length := by
  rw [t.length_slots]
  exact probe_lt (Nat.two_pow_pos _) _ _

variable (hash) in
/-- The slot of the probe. -/
def probed (t : FlatRep K V) (k : K) (p : Nat) : Option (Slot K V) := t.slots[t.probeFor hash k p]?

theorem probed_ne_none (p : Nat) : t.probed hash k p ≠ none := by
  rw [probed, List.getElem?_eq_getElem (probeFor_lt p)]
  exact Option.some_ne_none _

variable (hash) in
/-- The search for a key does not go on from the slot. -/
def Stops (k : K) (slot : Option (Slot K V)) : Prop :=
  slot = some .empty ∨ ∃ v, slot = some (.occupied (marker hash k) k v)

variable (hash) in
/-- The first erased slot among the first probes. -/
def firstDeleted (t : FlatRep K V) (k : K) : Nat → Option Nat
  | 0 => none
  | n + 1 =>
    (t.firstDeleted k n).orElse fun _ =>
      match t.probed hash k n with
      | some .deleted => some (t.probeFor hash k n)
      | _ => none

theorem firstDeleted_spec {n i : Nat} (h : t.firstDeleted hash k n = some i) :
    ∃ p < n, t.probeFor hash k p = i ∧ t.slots[i]? = some .deleted := by
  induction n with
  | zero => cases h
  | succ n ih =>
      rw [firstDeleted] at h
      cases hbefore : t.firstDeleted hash k n with
      | none =>
          rw [hbefore] at h
          cases hslot : t.probed hash k n with
          | none => exact absurd hslot (probed_ne_none n)
          | some slot =>
              rw [hslot] at h
              cases slot with
              | empty => cases h
              | deleted =>
                  obtain rfl := Option.some.inj h
                  exact ⟨n, Nat.lt_succ_self n, rfl, hslot⟩
              | occupied x key val => cases h
      | some j =>
          rw [hbefore] at h
          obtain rfl : j = i := Option.some.inj h
          obtain ⟨p, hp, hrest⟩ := ih hbefore
          exact ⟨p, Nat.lt_succ_of_lt hp, hrest⟩

section Search

variable [DecidableEq K]

theorem findLoop_step {fuel p : Nat} (h : ¬ Stops hash k (t.probed hash k p)) :
    t.findLoop hash k (fuel + 1) (t.probeFor hash k p) (p + 1) =
      t.findLoop hash k fuel (t.probeFor hash k (p + 1)) (p + 2) := by
  unfold Stops at h
  rw [findLoop, probeFor_succ]
  cases hslot : t.slots[t.probeFor hash k p]? with
  | none => exact absurd hslot (probed_ne_none p)
  | some slot =>
      rw [probed, hslot] at h
      cases slot with
      | empty => exact absurd (.inl rfl) h
      | deleted => rfl
      | occupied x key val =>
          refine if_neg ?_
          rintro ⟨rfl, rfl⟩
          exact h (.inr ⟨val, rfl⟩)

theorem findLoop_skip (fuel : Nat) {n : Nat}
    (h : ∀ q < n, ¬ Stops hash k (t.probed hash k q)) :
    t.findLoop hash k (fuel + n) (t.start hash k) 1 =
      t.findLoop hash k fuel (t.probeFor hash k n) (n + 1) := by
  induction n generalizing fuel with
  | zero => rw [probeFor_zero, Nat.add_zero]
  | succ n ih =>
      have hbefore := ih (fuel + 1) fun q hq => h q (Nat.lt_succ_of_lt hq)
      rw [show fuel + (n + 1) = fuel + 1 + n by omega, hbefore, findLoop_step (h n (Nat.lt_succ_self n))]

theorem findOrInsertLoop_skip (fuel : Nat) {n : Nat}
    (h : ∀ q < n, ¬ Stops hash k (t.probed hash k q)) :
    t.findOrInsertLoop hash k v (fuel + n) (t.start hash k) 1 none =
      t.findOrInsertLoop hash k v fuel (t.probeFor hash k n) (n + 1) (t.firstDeleted hash k n) := by
  induction n generalizing fuel with
  | zero =>
      rw [probeFor_zero, Nat.add_zero]
      rfl
  | succ n ih =>
      have hbefore := ih (fuel + 1) fun q hq => h q (Nat.lt_succ_of_lt hq)
      have hn := h n (Nat.lt_succ_self n)
      rw [show fuel + (n + 1) = fuel + 1 + n by omega, hbefore, findOrInsertLoop, probeFor_succ,
        firstDeleted, probed]
      cases hslot : t.slots[t.probeFor hash k n]? with
      | none => exact absurd hslot (probed_ne_none n)
      | some slot =>
          rw [probed, hslot] at hn
          cases slot with
          | empty => exact absurd (.inl rfl) hn
          | deleted => rfl
          | occupied x key val =>
              have hne : ¬ (x = marker hash k ∧ key = k) := by
                rintro ⟨rfl, rfl⟩
                exact hn (.inr ⟨val, rfl⟩)
              refine (if_neg hne).trans ?_
              cases t.firstDeleted hash k n with
              | none => rfl
              | some i => rfl

end Search

theorem freshInsertLoop_skip (fuel : Nat) {n : Nat}
    (h : ∀ q < n, t.probed hash k q ≠ some .empty) :
    t.freshInsertLoop hash k v (fuel + n) (t.start hash k) 1 =
      t.freshInsertLoop hash k v fuel (t.probeFor hash k n) (n + 1) := by
  induction n generalizing fuel with
  | zero => rw [probeFor_zero, Nat.add_zero]
  | succ n ih =>
      have hbefore := ih (fuel + 1) fun q hq => h q (Nat.lt_succ_of_lt hq)
      have hn := h n (Nat.lt_succ_self n)
      rw [show fuel + (n + 1) = fuel + 1 + n by omega, hbefore, freshInsertLoop, probeFor_succ]
      cases hslot : t.slots[t.probeFor hash k n]? with
      | none => exact absurd hslot (probed_ne_none n)
      | some slot =>
          rw [probed, hslot] at hn
          cases slot with
          | empty => exact absurd rfl hn
          | deleted => rfl
          | occupied x key val => rfl

/-! ## Where the searches end -/

/-- Some slot is empty. -/
def HasEmpty (t : FlatRep K V) : Prop := .empty ∈ t.slots

theorem exists_first_stop {stop : Option (Slot K V) → Prop} (hempty : t.HasEmpty)
    (hstop : stop (some .empty)) :
    ∃ p < t.slots.length, stop (t.probed hash k p) ∧ ∀ q < p, ¬ stop (t.probed hash k q) := by
  classical
  obtain ⟨i, hi⟩ := List.mem_iff_getElem?.mp hempty
  have hlt := (List.getElem?_eq_some_iff.mp hi).1
  rw [t.length_slots] at hlt ⊢
  exact @exists_first_probe _ _ (fun i => stop t.slots[i]?) _ ⟨i, hlt, by rwa [hi]⟩

section Search

variable [DecidableEq K]

/-- The key is not in a slot that any search for it gets to. -/
theorem find_eq (hempty : t.HasEmpty) :
    ∃ p < t.slots.length, (∀ q < p, ¬ Stops hash k (t.probed hash k q)) ∧
      ((t.probed hash k p = some .empty ∧ t.find hash k = some none) ∨
        ∃ v, t.probed hash k p = some (.occupied (marker hash k) k v) ∧
          t.find hash k = some (some (t.probeFor hash k p))) := by
  obtain ⟨p, hp, hstop, hbefore⟩ :=
    @exists_first_stop _ _ hash t k (Stops hash k) hempty (.inl rfl)
  refine ⟨p, hp, hbefore, ?_⟩
  have hloop : t.find hash k =
      t.findLoop hash k (2 * t.slots.length - p - 1 + 1) (t.probeFor hash k p) (p + 1) := by
    rw [← findLoop_skip _ hbefore, find]
    congr 1
    omega
  rw [findLoop] at hloop
  rcases hstop with hstop | ⟨v, hstop⟩
  · refine .inl ⟨hstop, ?_⟩
    rw [probed] at hstop
    rw [hloop, hstop]
  · refine .inr ⟨v, hstop, ?_⟩
    rw [probed] at hstop
    rw [hloop, hstop]
    exact if_pos ⟨rfl, rfl⟩

theorem findOrInsert_eq (hempty : t.HasEmpty) (v : V) :
    ∃ p < t.slots.length, (∀ q < p, ¬ Stops hash k (t.probed hash k q)) ∧
      ((t.probed hash k p = some .empty ∧ t.findOrInsert hash k v =
          some (false, t.place hash k v (t.firstDeleted hash k p) (t.probeFor hash k p))) ∨
        ∃ w, t.probed hash k p = some (.occupied (marker hash k) k w) ∧
          t.findOrInsert hash k v = some (true, t, t.probeFor hash k p)) := by
  obtain ⟨p, hp, hstop, hbefore⟩ :=
    @exists_first_stop _ _ hash t k (Stops hash k) hempty (.inl rfl)
  refine ⟨p, hp, hbefore, ?_⟩
  have hloop : t.findOrInsert hash k v =
      t.findOrInsertLoop hash k v (2 * t.slots.length - p - 1 + 1) (t.probeFor hash k p) (p + 1)
        (t.firstDeleted hash k p) := by
    rw [← findOrInsertLoop_skip _ hbefore, findOrInsert]
    congr 1
    omega
  rw [findOrInsertLoop] at hloop
  rcases hstop with hstop | ⟨w, hstop⟩
  · refine .inl ⟨hstop, ?_⟩
    rw [probed] at hstop
    rw [hloop, hstop]
  · refine .inr ⟨w, hstop, ?_⟩
    rw [probed] at hstop
    rw [hloop, hstop]
    exact if_pos ⟨rfl, rfl⟩

end Search

theorem freshInsert_eq (hempty : t.HasEmpty) (v : V) :
    ∃ p < t.slots.length, t.probed hash k p = some .empty ∧
      (∀ q < p, t.probed hash k q ≠ some .empty) ∧
      t.freshInsert hash k v =
        some { t.withSlot (t.probeFor hash k p) (.occupied (marker hash k) k v) with
          notEmpty := t.notEmpty + 1 } := by
  obtain ⟨p, hp, hstop, hbefore⟩ :=
    @exists_first_stop _ _ hash t k (fun slot => slot = some .empty) hempty rfl
  refine ⟨p, hp, hstop, hbefore, ?_⟩
  have hloop : t.freshInsert hash k v =
      t.freshInsertLoop hash k v (2 * t.slots.length - p - 1 + 1) (t.probeFor hash k p) (p + 1) := by
    rw [← freshInsertLoop_skip _ hbefore, freshInsert]
    congr 1
    omega
  rw [freshInsertLoop] at hloop
  rw [probed] at hstop
  rw [hloop, hstop]

end FlatRep

end Jumanpp.Util
