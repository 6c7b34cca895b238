import Mathlib.Data.List.Basic
import Mathlib.Data.List.Range
import Mathlib.Data.Nat.ModEq
import Mathlib.Tactic.Common

/-!
# The bounded queue

A ring of slots between two counters of 32 bits that are never reduced.  While each item is put
into a slot in which no other one waits, the ring is a queue.
-/

namespace Jumanpp.Util

/-- Conversion to `unsigned int`. -/
def u32 (n : Nat) : Nat := n % 2 ^ 32

theorem u32_lt (n : Nat) : u32 n < 2 ^ 32 :=
  Nat.mod_lt _ (by decide)

theorem u32_of_lt {n : Nat} (h : n < 2 ^ 32) : u32 n = n :=
  Nat.mod_eq_of_lt h

theorem u32_full : u32 (0 + 2 ^ 32 - 0) = 0 := by
  decide

theorem u32_mod_of_dvd {n c : Nat} (h : c ∣ 2 ^ 32) : u32 n % c = n % c :=
  Nat.mod_mod_of_dvd n h

attribute [irreducible] u32

/-- Each method runs under the mutex of the queue. -/
structure BoundedQueue (α : Type) where
  items : List α
  head : Nat
  tail : Nat
  capa : Nat
  length_items : items.length = capa
  head_lt : head < 2 ^ 32
  tail_lt : tail < 2 ^ 32
  capa_lt : capa < 2 ^ 32
  size_le : u32 (head + 2 ^ 32 - tail) ≤ capa

namespace BoundedQueue

variable {α : Type}

/-- `bounded_queue()` and then `initialize`, where `resize` fills the slots with `blank`. -/
def initialized (blank : α) (max_size : Nat) : BoundedQueue α where
  items := List.replicate (u32 max_size) blank
  head := 0
  tail := 0
  capa := u32 max_size
  length_items := List.length_replicate
  head_lt := by decide
  tail_lt := by decide
  capa_lt := u32_lt _
  size_le := by rw [u32_full]; exact Nat.zero_le _

def size (q : BoundedQueue α) : Nat := u32 (q.head + 2 ^ 32 - q.tail)

def remaining (q : BoundedQueue α) : Nat := q.capa - q.size

/-- `none` is `false`: nothing was added. -/
def offer (q : BoundedQueue α) (item : α) (reserve : Nat) : Option (BoundedQueue α) :=
  if h : q.remaining ≤ reserve then none
  else some
    { q with
      items := q.items.set (q.head % q.capa) item
      head := u32 (q.head + 1)
      length_items := by rw [List.length_set, q.length_items]
      head_lt := u32_lt _
      size_le := by
        have hsize : u32 (u32 (q.head + 1) + 2 ^ 32 - q.tail) ≤ q.size + 1 := by
          have htail := q.tail_lt
          unfold u32 size u32
          omega
        unfold remaining at h
        omega }

/-- `none` while the caller is blocked. -/
def waitFor (q : BoundedQueue α) : Option (α × BoundedQueue α) :=
  if h : q.size = 0 then none
  else do
    let item ← q.items[q.tail % q.capa]?
    some (item, { q with
      tail := u32 (q.tail + 1)
      tail_lt := u32_lt _
      size_le := by
        have hsize : u32 (q.head + 2 ^ 32 - u32 (q.tail + 1)) + 1 = q.size := by
          have hhead := q.head_lt
          have htail := q.tail_lt
          unfold size u32 at *
          omega
        have hle := q.size_le
        unfold size at hsize
        omega })

/-! ## The waiting items -/

/-- The slot of the `i`-th waiting item. -/
def slot (q : BoundedQueue α) (i : Nat) : Nat := u32 (q.tail + i) % q.capa

/-- The waiting items, from the oldest one on. -/
def contents (q : BoundedQueue α) : List α :=
  (List.range q.size).filterMap fun i => q.items[q.slot i]?

/-- No item waits in the slot that the next one is put into. -/
def SlotFree (q : BoundedQueue α) : Prop :=
  ∀ i < q.size, q.slot i ≠ q.head % q.capa

instance (q : BoundedQueue α) : Decidable q.SlotFree :=
  inferInstanceAs (Decidable (∀ i < q.size, _))

theorem size_le_capa (q : BoundedQueue α) : q.size ≤ q.capa := q.size_le

theorem slot_size (q : BoundedQueue α) : q.slot q.size = q.head % q.capa := by
  have hslot : u32 (q.tail + q.size) = q.head := by
    have hhead := q.head_lt
    have htail := q.tail_lt
    unfold size u32 at *
    omega
  rw [slot, hslot]

theorem slot_lt {q : BoundedQueue α} (h : 0 < q.capa) (i : Nat) : q.slot i < q.items.length := by
  rw [q.length_items]
  exact Nat.mod_lt _ h

theorem length_slots {q : BoundedQueue α} {n : Nat} (hn : n ≤ q.size) :
    ((List.range n).filterMap fun i => q.items[q.slot i]?).length = n := by
  induction n with
  | zero => simp
  | succ n ih =>
      have hlt : q.slot n < q.items.length :=
        slot_lt (by have := q.size_le_capa; omega) n
      rw [List.range_succ, List.filterMap_append, List.length_append, ih (by omega)]
      simp [List.getElem?_eq_getElem hlt]

theorem length_contents (q : BoundedQueue α) : q.contents.length = q.size :=
  length_slots (Nat.le_refl _)

@[simp] theorem contents_initialized (blank : α) (max_size : Nat) :
    (initialized blank max_size).contents = [] := by
  rw [← List.length_eq_zero_iff, length_contents]
  exact u32_full

theorem capa_initialized (blank : α) (max_size : Nat) :
    (initialized blank max_size).capa = u32 max_size := rfl

theorem offer_eq_none_iff {q : BoundedQueue α} {item : α} :
    q.offer item 0 = none ↔ q.contents.length = q.capa := by
  have hle := q.size_le_capa
  rw [length_contents]
  unfold offer remaining
  split
  · simp; omega
  · simp; omega

theorem waitFor_eq_none_iff {q : BoundedQueue α} : q.waitFor = none ↔ q.contents = [] := by
  rw [← List.length_eq_zero_iff, length_contents]
  unfold waitFor
  split
  · next h => simp [h]
  · next h =>
      have hlt : q.tail % q.capa < q.items.length := by
        rw [q.length_items]
        exact Nat.mod_lt _ (by have := q.size_le_capa; omega)
      simp [List.getElem?_eq_getElem hlt, h]

theorem offer_capa {q q' : BoundedQueue α} {item : α} (h : q.offer item 0 = some q') :
    q'.capa = q.capa := by
  unfold offer at h
  split at h
  · cases h
  · rw [← Option.some.inj h]

theorem waitFor_capa {q q' : BoundedQueue α} {item : α} (h : q.waitFor = some (item, q')) :
    q'.capa = q.capa := by
  unfold waitFor at h
  split at h
  · cases h
  · obtain ⟨a, -, ha⟩ := Option.bind_eq_some_iff.mp h
    cases ha
    rfl

/-- What an accepted offer does to the fields. -/
theorem offer_fields {q q' : BoundedQueue α} {item : α} (h : q.offer item 0 = some q') :
    q'.items = q.items.set (q.head % q.capa) item ∧ q'.head = u32 (q.head + 1) ∧
      q'.tail = q.tail ∧ q'.capa = q.capa := by
  unfold offer at h
  split at h
  · cases h
  · obtain rfl := Option.some.inj h
    exact ⟨rfl, rfl, rfl, rfl⟩

theorem offer_size {q q' : BoundedQueue α} {item : α} (h : q.offer item 0 = some q') :
    q'.size = q.size + 1 ∧ q.size < q.capa := by
  have hspace : q.offer item 0 ≠ none := by
    rw [h]
    exact Option.some_ne_none q'
  rw [ne_eq, offer_eq_none_iff, length_contents] at hspace
  have hle := q.size_le_capa
  have hcapa := q.capa_lt
  obtain ⟨-, hhead, htail, -⟩ := offer_fields h
  have hlt := q.tail_lt
  unfold size u32 at *
  rw [hhead, htail]
  omega

theorem offer_isSome {q : BoundedQueue α} {item : α} (h : q.size < q.capa) :
    ∃ q', q.offer item 0 = some q' := by
  cases hoffer : q.offer item 0 with
  | some q' => exact ⟨q', rfl⟩
  | none =>
      rw [offer_eq_none_iff, length_contents] at hoffer
      omega

theorem waitFor_fields {q q' : BoundedQueue α} {item : α} (h : q.waitFor = some (item, q')) :
    q'.head = q.head ∧ q'.tail = u32 (q.tail + 1) := by
  unfold waitFor at h
  split at h
  · cases h
  · obtain ⟨first, -, h⟩ := Option.bind_eq_some_iff.mp h
    obtain ⟨rfl, rfl⟩ := Prod.mk.inj (Option.some.inj h)
    exact ⟨rfl, rfl⟩

theorem getElem?_contents (q : BoundedQueue α) {i : Nat} (hi : i < q.size) :
    q.contents[i]? = q.items[q.slot i]? := by
  have hslots : ∀ n ≤ q.size, ∀ i < n,
      ((List.range n).filterMap fun i => q.items[q.slot i]?)[i]? = q.items[q.slot i]? := by
    intro n
    induction n with
    | zero => intro _ i hi; omega
    | succ n ih =>
        intro hn i hi
        have hlt : q.slot n < q.items.length :=
          slot_lt (by have := q.size_le_capa; omega) n
        have hlength : ((List.range n).filterMap fun i => q.items[q.slot i]?).length = n :=
          length_slots (by omega)
        rw [List.range_succ, List.filterMap_append]
        by_cases hlast : i = n
        · subst hlast
          rw [List.getElem?_append_right (by omega), hlength]
          simp [List.getElem?_eq_getElem hlt]
        · rw [List.getElem?_append_left (by omega)]
          exact ih (by omega) i (by omega)
  exact hslots q.size (Nat.le_refl _) i hi

/-- An offer overwrites the waiting item whose slot it gets, if there is one. -/
theorem getElem?_contents_offer {q q' : BoundedQueue α} {item : α}
    (h : q.offer item 0 = some q') {i : Nat} (hi : i < q.size) :
    q'.contents[i]? = if q.slot i = q.head % q.capa then some item else q.contents[i]? := by
  obtain ⟨hitems, -, htail, hcapa⟩ := offer_fields h
  obtain ⟨hsize, hlt⟩ := offer_size h
  have hslot : q'.slot i = q.slot i := by
    unfold slot
    rw [htail, hcapa]
  rw [getElem?_contents q' (by omega), getElem?_contents q hi, hitems, hslot]
  split
  · next hsame =>
      rw [hsame, List.getElem?_set_self]
      rw [← hsame]
      exact slot_lt (by omega) i
  · next hne => exact List.getElem?_set_ne (Ne.symm hne)

/-- An item that is put into a free slot is the last one. -/
theorem contents_offer {q q' : BoundedQueue α} {item : α} (hfree : q.SlotFree)
    (h : q.offer item 0 = some q') : q'.contents = q.contents ++ [item] := by
  unfold offer at h
  split at h
  · cases h
  · next hspace =>
      have hle := q.size_le_capa
      have hcapa : 0 < q.capa := by
        unfold remaining at hspace
        omega
      have hslots : ∀ i ∈ List.range q.size,
          (q.items.set (q.head % q.capa) item)[q.slot i]? = q.items[q.slot i]? := by
        intro i hi
        exact List.getElem?_set_ne (hfree i (List.mem_range.mp hi)).symm
      have hlast : (q.items.set (q.head % q.capa) item)[q.slot q.size]? = some item := by
        rw [q.slot_size, List.getElem?_set_self (q.slot_size ▸ slot_lt hcapa _)]
      have hsize : u32 (u32 (q.head + 1) + 2 ^ 32 - q.tail) = q.size + 1 := by
        have htail := q.tail_lt
        have hcapa := q.capa_lt
        unfold remaining at hspace
        unfold size u32 at *
        omega
      obtain rfl := Option.some.inj h
      calc
        _ = (List.range (u32 (u32 (q.head + 1) + 2 ^ 32 - q.tail))).filterMap fun i =>
              (q.items.set (q.head % q.capa) item)[q.slot i]? := rfl
        _ = q.contents ++ [item] := by
          rw [hsize, List.range_succ, List.filterMap_append, List.filterMap_congr hslots]
          simp [hlast, contents]

/-- The item that is taken is the first one. -/
theorem contents_waitFor {q q' : BoundedQueue α} {item : α} (h : q.waitFor = some (item, q')) :
    q.contents = item :: q'.contents := by
  unfold waitFor at h
  split at h
  · cases h
  · next hne =>
      obtain ⟨first, hfirst, h⟩ := Option.bind_eq_some_iff.mp h
      obtain ⟨rfl, rfl⟩ := Prod.mk.inj (Option.some.inj h)
      have hsize : q.size = u32 (q.head + 2 ^ 32 - u32 (q.tail + 1)) + 1 := by
        have hhead := q.head_lt
        have htail := q.tail_lt
        unfold size u32 at *
        omega
      have hslot : ∀ i, q.slot (i + 1) = u32 (u32 (q.tail + 1) + i) % q.capa := by
        intro i
        unfold slot u32
        congr 1
        omega
      have hzero : q.slot 0 = q.tail % q.capa := by
        have htail := q.tail_lt
        rw [slot, Nat.add_zero, u32_of_lt htail]
      calc
        _ = (List.range q.size).filterMap fun i => q.items[q.slot i]? := rfl
        _ = first :: (List.range (u32 (q.head + 2 ^ 32 - u32 (q.tail + 1)))).filterMap fun i =>
              q.items[u32 (u32 (q.tail + 1) + i) % q.capa]? := by
          rw [hsize, List.range_succ_eq_map, List.filterMap_cons, hzero, hfirst,
            List.filterMap_map]
          simp only [Function.comp_def, Nat.succ_eq_add_one, hslot]
        _ = _ := rfl

/-! ## Counters that pass the last number -/

theorem add_mod_ne {c i j : Nat} (t : Nat) (hij : i < j) (hj : j < c) :
    (t + i) % c ≠ (t + j) % c := by
  intro heq
  have hcongr : i % c = j % c := Nat.ModEq.add_left_cancel' t heq
  rw [Nat.mod_eq_of_lt (hij.trans hj), Nat.mod_eq_of_lt hj] at hcongr
  omega

/-- The slots of a ring follow each other also where a counter starts again at zero if their number
divides that of the counters. -/
theorem slotFree_of_dvd {q : BoundedQueue α} (hdvd : q.capa ∣ 2 ^ 32) (hsize : q.size < q.capa) :
    q.SlotFree := by
  intro i hi
  rw [← q.slot_size, slot, slot, u32_mod_of_dvd hdvd, u32_mod_of_dvd hdvd]
  exact add_mod_ne q.tail hi hsize

/-- As long as no counter has started again, no two waiting items share a slot. -/
theorem slotFree_of_le {q : BoundedQueue α} (hle : q.tail ≤ q.head) (hsize : q.size < q.capa) :
    q.SlotFree := by
  have hhead := q.head_lt
  have hcount : q.tail + q.size = q.head := by
    unfold size u32
    omega
  intro i hi
  have hslot : u32 (q.tail + i) = q.tail + i := u32_of_lt (by omega)
  rw [slot, hslot, ← hcount]
  exact add_mod_ne q.tail hi hsize

-- the counters make evaluation by unfolding hopeless
attribute [irreducible] offer waitFor contents

end BoundedQueue

end Jumanpp.Util
