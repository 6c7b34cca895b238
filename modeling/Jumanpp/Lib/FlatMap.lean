import Mathlib.Data.List.Basic
import Mathlib.Data.List.Nodup
import Mathlib.Tactic.Common

/-!
# Maps that number their keys

A map is the list of its entries, the oldest first; a program that goes over a hash map sees them in some
other order.  A map can give each new key the number of the keys before it.
-/

namespace Jumanpp.Lib

structure FlatMap (κ β : Type) where
  entries : List (κ × β)
  nodup : (entries.map Prod.fst).Nodup

namespace FlatMap

variable {κ β : Type}

def empty : FlatMap κ β := ⟨[], List.nodup_nil⟩

def keys (m : FlatMap κ β) : List κ := m.entries.map Prod.fst

def size (m : FlatMap κ β) : Nat := m.entries.length

theorem size_eq (m : FlatMap κ β) : m.size = m.keys.length :=
  (List.length_map _).symm

theorem nodup_append {entries : List (κ × β)} (h : (entries.map Prod.fst).Nodup) {k : κ}
    (hk : k ∉ entries.map Prod.fst) (v : β) : ((entries ++ [(k, v)]).map Prod.fst).Nodup := by
  rw [List.map_append, List.nodup_append]
  refine ⟨h, List.nodup_singleton k, ?_⟩
  intro a ha b hb heq
  rw [List.map_singleton, List.mem_singleton] at hb
  apply hk
  show (k, v).1 ∈ _
  rw [← hb, ← heq]
  exact ha

variable [DecidableEq κ]

theorem any_keys_iff (m : FlatMap κ β) (k : κ) :
    (m.keys.any fun key => decide (key = k)) = true ↔ k ∈ m.keys := by
  rw [List.any_eq_true]
  constructor
  · rintro ⟨key, hkey, heq⟩
    rw [of_decide_eq_true heq] at hkey
    exact hkey
  · intro hk
    exact ⟨k, hk, decide_eq_true rfl⟩

instance (m : FlatMap κ β) (k : κ) : Decidable (k ∈ m.keys) :=
  decidable_of_iff _ (any_keys_iff m k)

def find (m : FlatMap κ β) (k : κ) : Option β :=
  (m.entries.find? (·.1 = k)).map Prod.snd

/-- The entry with its value replaced if it has the key. -/
def updateEntry (k : κ) (f : β → β) (e : κ × β) : κ × β :=
  if e.1 = k then (e.1, f e.2) else e

theorem fst_updateEntry (k : κ) (f : β → β) (e : κ × β) : (updateEntry k f e).1 = e.1 := by
  unfold updateEntry
  split_ifs
  · rfl
  · rfl

theorem map_fst_updateEntry (k : κ) (f : β → β) (entries : List (κ × β)) :
    (entries.map (updateEntry k f)).map Prod.fst = entries.map Prod.fst := by
  rw [List.map_map]
  exact List.map_congr_left fun e _ => fst_updateEntry k f e

theorem nodup_updateEntry {entries : List (κ × β)} (h : (entries.map Prod.fst).Nodup) (k : κ)
    (f : β → β) : ((entries.map (updateEntry k f)).map Prod.fst).Nodup := by
  rw [map_fst_updateEntry]
  exact h

/-- What is written through `operator[]`; a new key has the value `d` before. -/
def update (m : FlatMap κ β) (k : κ) (d : β) (f : β → β) : FlatMap κ β :=
  if h : k ∈ m.keys then
    ⟨m.entries.map (updateEntry k f), nodup_updateEntry m.nodup k f⟩
  else ⟨m.entries ++ [(k, f d)], nodup_append m.nodup h (f d)⟩

theorem find_eq_some_iff {m : FlatMap κ β} {k : κ} {v : β} :
    m.find k = some v ↔ (k, v) ∈ m.entries := by
  unfold find
  rw [Option.map_eq_some_iff]
  constructor
  · rintro ⟨⟨k', v'⟩, hfind, rfl⟩
    have hkey : k' = k := by simpa using List.find?_some hfind
    subst hkey
    exact List.mem_of_find?_eq_some hfind
  · intro hmem
    cases hfind : m.entries.find? (·.1 = k) with
    | none =>
        have hnone := List.find?_eq_none.mp hfind (k, v) hmem
        simp at hnone
    | some e =>
        have hkey : e.1 = k := by simpa using List.find?_some hfind
        have hsame := List.inj_on_of_nodup_map m.nodup (List.mem_of_find?_eq_some hfind) hmem hkey
        exact ⟨e, rfl, congrArg Prod.snd hsame⟩

theorem mem_keys_iff {m : FlatMap κ β} {k : κ} : k ∈ m.keys ↔ ∃ v, m.find k = some v := by
  simp only [find_eq_some_iff]
  unfold keys
  simp

theorem find_eq_none_iff {m : FlatMap κ β} {k : κ} : m.find k = none ↔ k ∉ m.keys := by
  rw [mem_keys_iff, Option.eq_none_iff_forall_ne_some]
  simp

theorem keys_update_of_mem {m : FlatMap κ β} {k : κ} (h : k ∈ m.keys) (d : β) (f : β → β) :
    (m.update k d f).keys = m.keys := by
  rw [update, dif_pos h]
  exact map_fst_updateEntry k f m.entries

theorem keys_update_of_not_mem {m : FlatMap κ β} {k : κ} (h : k ∉ m.keys) (d : β) (f : β → β) :
    (m.update k d f).keys = m.keys ++ [k] := by
  rw [update, dif_neg h]
  exact List.map_append

theorem find_update_self (m : FlatMap κ β) (k : κ) (d : β) (f : β → β) :
    (m.update k d f).find k = some (f ((m.find k).getD d)) := by
  rw [find_eq_some_iff]
  by_cases h : k ∈ m.keys
  · obtain ⟨v, hv⟩ := mem_keys_iff.mp h
    rw [update, dif_pos h, hv]
    have hmem := List.mem_map_of_mem (f := updateEntry k f) (find_eq_some_iff.mp hv)
    rw [updateEntry, if_pos rfl] at hmem
    exact hmem
  · rw [update, dif_neg h, find_eq_none_iff.mpr h]
    exact List.mem_append_right _ List.mem_cons_self

theorem find_update_ne (m : FlatMap κ β) {k k' : κ} (hne : k' ≠ k) (d : β) (f : β → β) :
    (m.update k d f).find k' = m.find k' := by
  apply Option.ext
  intro v
  rw [find_eq_some_iff, find_eq_some_iff]
  by_cases h : k ∈ m.keys
  · rw [update, dif_pos h, List.mem_map]
    constructor
    · rintro ⟨e, he, heq⟩
      have hkey : e.1 = k' := by rw [← fst_updateEntry k f e, heq]
      rw [updateEntry, if_neg (hkey ▸ hne)] at heq
      exact heq ▸ he
    · intro hmem
      exact ⟨(k', v), hmem, by rw [updateEntry, if_neg hne]⟩
  · rw [update, dif_neg h, List.mem_append, List.mem_singleton]
    constructor
    · rintro (hmem | heq)
      · exact hmem
      · exact absurd (congrArg Prod.fst heq) hne
    · exact .inl

theorem mem_keys_update {m : FlatMap κ β} {k k' : κ} {d : β} {f : β → β} :
    k' ∈ (m.update k d f).keys ↔ k' ∈ m.keys ∨ k' = k := by
  by_cases h : k ∈ m.keys
  · rw [keys_update_of_mem h]
    constructor
    · exact .inl
    · rintro (h' | rfl)
      · exact h'
      · exact h
  · rw [keys_update_of_not_mem h, List.mem_append, List.mem_singleton]

/-- A value that is put under a key only if the key is new. -/
theorem mem_entries_insert {m : FlatMap κ β} {k : κ} {v : β} {e : κ × β}
    (h : e ∈ (m.update k v fun old => old).entries) : e ∈ m.entries ∨ e = (k, v) := by
  unfold update at h
  split_ifs at h with hk
  · obtain ⟨e', he', rfl⟩ := List.mem_map.mp h
    have hsame : updateEntry k (fun old : β => old) e' = e' := by
      unfold updateEntry
      split_ifs
      · rfl
      · rfl
    rw [hsame]
    exact .inl he'
  · obtain h | h := List.mem_append.mp h
    · exact .inl h
    · exact .inr (List.mem_singleton.mp h)

/-! ## Removal -/

theorem nodup_filter {entries : List (κ × β)} (h : (entries.map Prod.fst).Nodup) (k : κ) :
    ((entries.filter fun e => decide (e.1 ≠ k)).map Prod.fst).Nodup :=
  h.sublist (List.filter_sublist.map Prod.fst)

def erase (m : FlatMap κ β) (k : κ) : FlatMap κ β :=
  ⟨m.entries.filter fun e => decide (e.1 ≠ k), nodup_filter m.nodup k⟩

theorem find_erase_self (m : FlatMap κ β) (k : κ) : (m.erase k).find k = none := by
  rw [find_eq_none_iff]
  intro hmem
  obtain ⟨e, he, hkey⟩ := List.mem_map.mp hmem
  exact of_decide_eq_true (List.mem_filter.mp he).2 hkey

theorem find_erase_ne (m : FlatMap κ β) {k k' : κ} (hne : k' ≠ k) : (m.erase k).find k' = m.find k' := by
  apply Option.ext
  intro v
  rw [find_eq_some_iff, find_eq_some_iff]
  exact ⟨fun h => (List.mem_filter.mp h).1, fun h => List.mem_filter.mpr ⟨h, decide_eq_true hne⟩⟩

/-! ## Numbers -/

/-- How many keys are before the key. -/
def position (m : FlatMap κ β) (k : κ) : Nat := m.keys.findIdx fun k' => decide (k' = k)

theorem position_lt {m : FlatMap κ β} {k : κ} (h : k ∈ m.keys) : m.position k < m.size := by
  rw [position, size_eq, List.findIdx_lt_length]
  exact ⟨k, h, decide_eq_true rfl⟩

theorem getElem?_position {m : FlatMap κ β} {k : κ} (h : k ∈ m.keys) :
    m.keys[m.position k]? = some k := by
  have hlt := position_lt h
  rw [size_eq] at hlt
  have hkey := List.findIdx_getElem (w := hlt)
  rw [List.getElem?_eq_getElem hlt]
  exact congrArg some (of_decide_eq_true hkey)

/-- Later keys do not change the position. -/
theorem position_stable {β' : Type} {m : FlatMap κ β} {m' : FlatMap κ β'} (h : m.keys <+: m'.keys)
    {k : κ} (hk : k ∈ m.keys) : m'.position k = m.position k := by
  obtain ⟨rest, hrest⟩ := h
  have hlt := position_lt hk
  rw [size_eq] at hlt
  rw [position, ← hrest, List.findIdx_append]
  exact if_pos hlt

theorem position_new {m m' : FlatMap κ β} {k : κ} (hk : k ∉ m.keys) (h : m'.keys = m.keys ++ [k]) :
    m'.position k = m.size := by
  have hnone : ¬ (m.keys.findIdx fun k' => decide (k' = k)) < m.keys.length := by
    rw [List.findIdx_lt_length]
    rintro ⟨k', hk', heq⟩
    exact hk (of_decide_eq_true heq ▸ hk')
  rw [position, h, List.findIdx_append, if_neg hnone, size_eq]
  simp

/-- Each entry has the number of the entries before it. -/
def Numbered (number : β → Int) (m : FlatMap κ β) : Prop :=
  ∀ k v, m.find k = some v → number v = m.position k

theorem numbered_empty (number : β → Int) : Numbered number (empty : FlatMap κ β) := by
  intro k v h
  cases h

/-- A key that is there keeps its number. -/
theorem Numbered.update_of_mem {number : β → Int} {m : FlatMap κ β} (h : m.Numbered number) {k : κ}
    (hk : k ∈ m.keys) (d : β) {f : β → β} (hold : ∀ v, m.find k = some v → number (f v) = number v) :
    (m.update k d f).Numbered number := by
  intro k' v' hfind
  have hposition : (m.update k d f).position k' = m.position k' := by
    rw [position, keys_update_of_mem hk]
    rfl
  rw [hposition]
  by_cases heq : k' = k
  · subst heq
    obtain ⟨v, hv⟩ := mem_keys_iff.mp hk
    rw [find_update_self, hv] at hfind
    cases hfind
    rw [Option.getD_some, hold v hv]
    exact h _ _ hv
  · rw [find_update_ne m heq] at hfind
    exact h _ _ hfind

/-- A new key gets the size of the map. -/
theorem Numbered.update {number : β → Int} {m : FlatMap κ β} (h : m.Numbered number) (k : κ) (d : β)
    {f : β → β} (hnew : number (f d) = m.size) (hold : ∀ v, m.find k = some v → number (f v) = number v) :
    (m.update k d f).Numbered number := by
  by_cases hk : k ∈ m.keys
  · exact h.update_of_mem hk d hold
  · intro k' v' hfind
    have hkeys := keys_update_of_not_mem hk d f
    by_cases heq : k' = k
    · subst heq
      rw [find_update_self, find_eq_none_iff.mpr hk] at hfind
      cases hfind
      rw [Option.getD_none, hnew, position_new hk hkeys]
    · rw [find_update_ne m heq] at hfind
      rw [position_stable (hkeys ▸ List.prefix_append _ _) (mem_keys_iff.mpr ⟨_, hfind⟩)]
      exact h _ _ hfind

theorem Numbered.lt {number : β → Int} {m : FlatMap κ β} (h : m.Numbered number) {k : κ} {v : β}
    (hfind : m.find k = some v) : 0 ≤ number v ∧ number v < m.size := by
  have hlt := position_lt (mem_keys_iff.mpr ⟨_, hfind⟩)
  rw [h k v hfind]
  omega

theorem Numbered.inj {number : β → Int} {m : FlatMap κ β} (h : m.Numbered number) {k k' : κ} {v v' : β}
    (hk : m.find k = some v) (hk' : m.find k' = some v') (heq : number v = number v') : k = k' := by
  rw [h k v hk, h k' v' hk', Int.natCast_inj] at heq
  have hget := getElem?_position (mem_keys_iff.mpr ⟨v, hk⟩)
  have hget' := getElem?_position (mem_keys_iff.mpr ⟨v', hk'⟩)
  rw [heq, hget'] at hget
  exact (Option.some.inj hget).symm

/-- Each number is that of some key. -/
theorem Numbered.exists_of_lt {number : β → Int} {m : FlatMap κ β} (h : m.Numbered number) {i : Nat}
    (hi : i < m.size) : ∃ k v, m.find k = some v ∧ number v = i := by
  rw [size_eq] at hi
  have hmem := List.getElem_mem hi
  obtain ⟨v, hv⟩ := mem_keys_iff.mp hmem
  refine ⟨m.keys[i], v, hv, ?_⟩
  have hget := getElem?_position hmem
  have hsame := (List.getElem?_inj hi m.nodup).mp ((List.getElem?_eq_getElem hi).trans hget.symm)
  rw [h _ _ hv, ← hsame]

end FlatMap

/-- An order in which a program may see the entries of its maps. -/
structure MapOrder (κ β : Type) where
  order : FlatMap κ β → List (κ × β)
  perm : ∀ m, (order m).Perm m.entries

/-- The order of insertion. -/
def MapOrder.inserted (κ β : Type) : MapOrder κ β :=
  ⟨FlatMap.entries, fun m => List.Perm.refl m.entries⟩

end Jumanpp.Lib
