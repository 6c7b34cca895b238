import Mathlib.Data.List.Nodup
import Mathlib.Data.List.Perm.Basic
import Mathlib.Logic.Function.Basic

/-!
# Lists of keys and values

A list in which no key occurs twice is a finite map, whatever its order.
-/

namespace Jumanpp.Lib

variable {K V : Type} [DecidableEq K] {k k' : K} {v : V} {l l' : List (K × V)}

theorem lookup_eq_some_iff_mem (hnodup : (l.map Prod.fst).Nodup) :
    l.lookup k = some v ↔ (k, v) ∈ l := by
  induction l with
  | nil => simp
  | cons e l ih =>
      obtain ⟨key, val⟩ := e
      rw [List.map_cons, List.nodup_cons] at hnodup
      rw [List.lookup_cons, List.mem_cons]
      by_cases hkey : k = key
      · subst hkey
        have hmem : (k, v) ∉ l := fun hmem => hnodup.1 (List.mem_map.mpr ⟨(k, v), hmem, rfl⟩)
        rw [beq_self_eq_true]
        simp [hmem, eq_comm]
      · have hne : (k, v) ≠ (key, val) := fun h => hkey (Prod.mk.inj h).1
        rw [beq_eq_false_iff_ne.mpr hkey]
        simp [hne, ih hnodup.2]

theorem lookup_eq_none_iff_forall : l.lookup k = none ↔ ∀ v, (k, v) ∉ l := by
  rw [List.lookup_eq_none_iff]
  refine ⟨fun h v hmem => ?_, fun h e hmem => ?_⟩
  · have hne := h (k, v) hmem
    simp at hne
  · obtain ⟨key, val⟩ := e
    rw [bne_iff_ne]
    rintro rfl
    exact h val hmem

theorem lookup_perm (hperm : l.Perm l') (hnodup : (l.map Prod.fst).Nodup) :
    l.lookup k = l'.lookup k := by
  have hnodup' : (l'.map Prod.fst).Nodup := (hperm.map Prod.fst).nodup_iff.mp hnodup
  ext v
  rw [lookup_eq_some_iff_mem hnodup, lookup_eq_some_iff_mem hnodup', hperm.mem_iff]

theorem lookup_cons_eq_update :
    (fun k' => ((k, v) :: l).lookup k') = Function.update (fun k' => l.lookup k') k (some v) := by
  funext k'
  rw [List.lookup_cons]
  by_cases hkey : k' = k
  · subst hkey
    rw [beq_self_eq_true, Function.update_self]
  · rw [beq_eq_false_iff_ne.mpr hkey, Function.update_of_ne hkey]

/-- An entry whose value is exchanged. -/
theorem lookup_exchange {w : V} (hperm : ((k, w) :: l').Perm ((k, v) :: l)) (hmem : (k, v) ∈ l')
    (hnodup : (l.map Prod.fst).Nodup) :
    (fun k' => l'.lookup k') = Function.update (fun k' => l.lookup k') k (some v) := by
  have hkeys : (l'.map Prod.fst).Perm (l.map Prod.fst) :=
    (List.perm_cons k).mp (hperm.map Prod.fst)
  have hnodup' := hkeys.nodup_iff.mpr hnodup
  funext k'
  by_cases hkey : k' = k
  · subst hkey
    rw [Function.update_self, lookup_eq_some_iff_mem hnodup']
    exact hmem
  · rw [Function.update_of_ne hkey]
    ext x
    have hsame := @List.Perm.mem_iff _ (k', x) _ _ hperm
    rw [lookup_eq_some_iff_mem hnodup, lookup_eq_some_iff_mem hnodup']
    simpa [hkey] using hsame

end Jumanpp.Lib
