import Jumanpp.Lib.FlatMap
import Mathlib.Data.List.Forall2
import Mathlib.Data.List.Induction
import Mathlib.Data.List.Perm.Basic

/-!
# Grouping by a key

A map that gets rows one after another, each under its key, has the groups of the rows it has got.
-/

namespace Jumanpp.Lib

variable {α β κ : Type} [DecidableEq κ] {key : α → κ} {rows : List α}

def rowsOf (key : α → κ) (rows : List α) (k : κ) : List α :=
  rows.filter fun x => decide (key x = k)

theorem mem_rowsOf {k : κ} {x : α} : x ∈ rowsOf key rows k ↔ x ∈ rows ∧ key x = k := by
  rw [rowsOf, List.mem_filter, decide_eq_true_iff]

theorem rowsOf_ne_nil_iff {k : κ} : rowsOf key rows k ≠ [] ↔ ∃ x ∈ rows, key x = k := by
  constructor
  · intro h
    obtain ⟨x, hx⟩ := List.exists_mem_of_ne_nil _ h
    exact ⟨x, mem_rowsOf.mp hx⟩
  · rintro ⟨x, hx⟩
    exact List.ne_nil_of_mem (mem_rowsOf.mpr hx)

theorem rowsOf_append_self (key : α → κ) (rows : List α) (x : α) :
    rowsOf key (rows ++ [x]) (key x) = rowsOf key rows (key x) ++ [x] := by
  have hlast : [x].filter (fun y => decide (key y = key x)) = [x] := by simp
  rw [rowsOf, List.filter_append, hlast]
  rfl

theorem rowsOf_append_ne {x : α} {k : κ} (h : k ≠ key x) :
    rowsOf key (rows ++ [x]) k = rowsOf key rows k := by
  have hlast : [x].filter (fun y => decide (key y = k)) = [] := by simp [Ne.symm h]
  rw [rowsOf, List.filter_append, hlast, List.append_nil]
  rfl

/-- Every key of a row has one group, which has all its rows in their order. -/
structure IsGrouping (key : α → κ) (rows : List α) (groups : List (κ × List α)) : Prop where
  nodup : (groups.map Prod.fst).Nodup
  mem_iff : ∀ k group, (k, group) ∈ groups ↔ group ≠ [] ∧ group = rowsOf key rows k

theorem IsGrouping.perm {groups groups' : List (κ × List α)} (h : IsGrouping key rows groups)
    (hperm : groups'.Perm groups) : IsGrouping key rows groups' where
  nodup := (hperm.map Prod.fst).nodup_iff.mpr h.nodup
  mem_iff k group := hperm.mem_iff.trans (h.mem_iff k group)

/-- The map has a value for each key of a row, and the value stands for the rows of the key. -/
def Groups (R : β → List α → Prop) (key : α → κ) (rows : List α) (m : FlatMap κ β) : Prop :=
  ∀ k, (m.find k = none ∧ rowsOf key rows k = []) ∨
    ∃ v, m.find k = some v ∧ rowsOf key rows k ≠ [] ∧ R v (rowsOf key rows k)

variable {R : β → List α → Prop} {m : FlatMap κ β}

theorem groups_empty : Groups R key [] (FlatMap.empty : FlatMap κ β) :=
  fun _ => .inl ⟨rfl, rfl⟩

theorem Groups.insert (h : Groups R key rows m) {x : α} {d : β} {f : β → β} (hnew : R (f d) [x])
    (hold : ∀ v group, group ≠ [] → R v group → R (f v) (group ++ [x])) :
    Groups R key (rows ++ [x]) (m.update (key x) d f) := by
  intro k
  by_cases hk : k = key x
  · subst hk
    have hne : rowsOf key rows (key x) ++ [x] ≠ [] := List.append_ne_nil_of_right_ne_nil _ (by simp)
    rw [rowsOf_append_self, FlatMap.find_update_self]
    refine .inr ⟨_, rfl, hne, ?_⟩
    obtain ⟨hfind, hrows⟩ | ⟨v, hfind, hrows, hv⟩ := h (key x)
    · rw [hfind, hrows]
      exact hnew
    · rw [hfind]
      exact hold v _ hrows hv
  · rw [rowsOf_append_ne hk, FlatMap.find_update_ne m hk]
    exact h k

/-- All rows of a list that are put under their keys. -/
theorem groups_foldl {d : β} {f : α → β → β} (hnew : ∀ x, R (f x d) [x])
    (hold : ∀ x v group, group ≠ [] → R v group → R (f x v) (group ++ [x])) (rows : List α) :
    Groups R key rows (rows.foldl (fun m x => m.update (key x) d (f x)) FlatMap.empty) := by
  induction rows using List.reverseRecOn with
  | nil => exact groups_empty
  | append_singleton rows x ih =>
      rw [List.foldl_append]
      exact ih.insert (hnew x) (hold x)

theorem Groups.mem_keys_iff (h : Groups R key rows m) (k : κ) :
    k ∈ m.keys ↔ rowsOf key rows k ≠ [] := by
  rw [FlatMap.mem_keys_iff]
  obtain ⟨hfind, hrows⟩ | ⟨v, hfind, hrows, -⟩ := h k
  · simp [hfind, hrows]
  · simp [hfind, hrows]

/-- The groups that the entries of the map stand for. -/
theorem Groups.isGrouping (h : Groups R key rows m) :
    IsGrouping key rows (m.entries.map fun e => (e.1, rowsOf key rows e.1)) where
  nodup := by
    rw [List.map_map]
    exact m.nodup
  mem_iff k group := by
    rw [List.mem_map]
    constructor
    · rintro ⟨e, he, heq⟩
      cases heq
      exact ⟨(h.mem_keys_iff _).mp (List.mem_map_of_mem he), rfl⟩
    · rintro ⟨hne, rfl⟩
      obtain ⟨e, he, rfl⟩ := List.mem_map.mp ((h.mem_keys_iff k).mpr hne)
      exact ⟨e, he, rfl⟩

theorem Groups.holds (h : Groups R key rows m) {e : κ × β} (he : e ∈ m.entries) :
    R e.2 (rowsOf key rows e.1) := by
  have hfind : m.find e.1 = some e.2 := FlatMap.find_eq_some_iff.mpr he
  obtain ⟨hnone, -⟩ | ⟨v, hsome, -, hv⟩ := h e.1
  · rw [hnone] at hfind
    cases hfind
  · rw [hsome] at hfind
    cases hfind
    exact hv

/-! ## Lists beside each other -/

theorem exists_perm_map {γ : Type} {f : α → γ} {l : List α} {l' : List γ} (h : l'.Perm (l.map f)) :
    ∃ l₀ : List α, l₀.Perm l ∧ l₀.map f = l' := by
  have hmap : List.Forall₂ (fun y x => y = f x) (l.map f) l :=
    List.forall₂_map_left_iff.mpr (List.forall₂_same.mpr fun _ _ => rfl)
  obtain ⟨l₀, hl₀, hperm⟩ := List.perm_comp_forall₂ h hmap
  refine ⟨l₀, hperm, ?_⟩
  have hsame : List.Forall₂ Eq l' (l₀.map f) := List.forall₂_map_right_iff.mpr hl₀
  rw [List.forall₂_eq_eq_eq] at hsame
  exact hsame.symm

theorem exists_zip {γ : Type} {f : α → γ} {g : β → γ} {l : List α} {l' : List β}
    (h : l.map f = l'.map g) :
    ∃ z : List (α × β), z.map Prod.fst = l ∧ z.map Prod.snd = l' ∧ ∀ e ∈ z, f e.1 = g e.2 := by
  have hlength : l.length = l'.length := by simpa using congrArg List.length h
  refine ⟨l.zip l', List.map_fst_zip (Nat.le_of_eq hlength), List.map_snd_zip
    (Nat.le_of_eq hlength.symm), ?_⟩
  have hsame : List.Forall₂ Eq (l.map f) (l'.map g) := by
    rw [List.forall₂_eq_eq_eq]
    exact h
  have hpairs := List.forall₂_map_right_iff.mp (List.forall₂_map_left_iff.mp hsame)
  exact fun e he => (List.forall₂_iff_zip.mp hpairs).2 he

end Jumanpp.Lib
