import Mathlib.Data.List.Basic
import Mathlib.Data.List.Forall2
import Mathlib.Tactic.Common

/-!
# Loops over lists

A counting loop that writes one slot per turn is a left fold over `zipIdx`; a loop whose turns can
fail is `mapM` in `Option`.
-/

namespace Jumanpp.Lib

variable {α β σ : Type}

/-- What the later turns of the loop keep stays true. -/
theorem foldl_zipIdx_keeps {write : σ → α × Nat → σ} {P : σ → Prop} (l : List α) (n : Nat) (s : σ)
    (hkeep : ∀ s x i, n ≤ i → P s → P (write s (x, i))) (hs : P s) :
    P ((l.zipIdx n).foldl write s) := by
  induction l generalizing n s with
  | nil => exact hs
  | cons x l ih =>
      rw [List.zipIdx_cons, List.foldl_cons]
      exact ih (n + 1) _ (fun s y i hi => hkeep s y i (by omega)) (hkeep s x n (Nat.le_refl n) hs)

/-- Each turn fills its own slot and leaves the others alone, so after the loop every slot holds
what its turn has written. -/
theorem foldl_zipIdx_holds {write : σ → α × Nat → σ} {P : σ → α → Nat → Prop} (l : List α)
    (n : Nat) (s : σ) (hwrite : ∀ s x i, (x, i) ∈ l.zipIdx n → P (write s (x, i)) x i)
    (hkeep : ∀ s x i y j, j < i → P s y j → P (write s (x, i)) y j) :
    ∀ x i, (x, i) ∈ l.zipIdx n → P ((l.zipIdx n).foldl write s) x i := by
  induction l generalizing n s with
  | nil => simp
  | cons x l ih =>
      intro y j hmem
      rw [List.zipIdx_cons, List.mem_cons] at hmem
      rw [List.zipIdx_cons, List.foldl_cons]
      obtain heq | hmem := hmem
      · obtain ⟨rfl, rfl⟩ := Prod.mk.inj heq
        refine foldl_zipIdx_keeps (P := fun s => P s y j) l (j + 1) _ ?_ ?_
        · intro s x i hi hs
          exact hkeep s x i y j (by omega) hs
        · exact hwrite s y j (by simp [List.zipIdx_cons])
      · refine ih (n + 1) _ ?_ y j hmem
        intro s x' i hx'
        exact hwrite s x' i (by rw [List.zipIdx_cons]; exact List.mem_cons_of_mem _ hx')

theorem flatMap_zipIdx_fst (f : α → List β) (l : List α) :
    (l.zipIdx.flatMap fun x => f x.1) = l.flatMap f := by
  conv_rhs => rw [← List.zipIdx_map_fst 0 l, List.flatMap_map]

theorem map_zipIdx_fst (f : α → β) (l : List α) : (l.zipIdx.map fun x => f x.1) = l.map f := by
  conv_rhs => rw [← List.zipIdx_map_fst 0 l, List.map_map]
  rfl

theorem map_eq_map_of_forall₂ {γ : Type} {R : α → β → Prop} {f : α → γ} {g : β → γ}
    (h : ∀ x y, R x y → g y = f x) {l : List α} {r : List β} (hlr : List.Forall₂ R l r) :
    r.map g = l.map f := by
  induction hlr with
  | nil => rfl
  | cons hxy _ ih => rw [List.map_cons, List.map_cons, ih, h _ _ hxy]

theorem mapM_eq_some_iff {f : α → Option β} {l : List α} {r : List β} :
    l.mapM f = some r ↔ List.Forall₂ (fun x y => f x = some y) l r := by
  induction l generalizing r with
  | nil => simp [eq_comm]
  | cons x l ih =>
      rw [List.mapM_cons]
      cases hx : f x with
      | none => simp [hx, List.forall₂_cons_left_iff]
      | some y =>
          cases hl : l.mapM f with
          | none =>
              have hnone : ∀ r, ¬ List.Forall₂ (fun x y => f x = some y) l r := by
                intro r hr
                rw [← ih, hl] at hr
                cases hr
              simp [hx, List.forall₂_cons_left_iff, hnone]
          | some r' =>
              have hr' := (ih (r := r')).mp hl
              simp only [Option.bind_eq_bind, Option.bind_some, Option.pure_def,
                Option.some.injEq, List.forall₂_cons_left_iff, hx]
              constructor
              · rintro rfl
                exact ⟨y, r', rfl, hr', rfl⟩
              · rintro ⟨y', r'', rfl, hr'', rfl⟩
                rw [← ih, hl, Option.some.injEq] at hr''
                rw [hr'']

theorem exists_mapM_iff {f : α → Option β} {l : List α} :
    (∃ r, l.mapM f = some r) ↔ ∀ x ∈ l, ∃ y, f x = some y := by
  simp only [mapM_eq_some_iff]
  constructor
  · rintro ⟨r, hr⟩ x hx
    induction hr with
    | nil => cases hx
    | cons hxy _ ih =>
        obtain rfl | hx := List.mem_cons.mp hx
        · exact ⟨_, hxy⟩
        · exact ih hx
  · intro h
    induction l with
    | nil => exact ⟨[], .nil⟩
    | cons x l ih =>
        obtain ⟨y, hy⟩ := h x (by simp)
        obtain ⟨r, hr⟩ := ih fun z hz => h z (List.mem_cons_of_mem x hz)
        exact ⟨y :: r, .cons hy hr⟩

/-- The result of the turn at an offset stands at that offset. -/
theorem getElem?_of_mapM_range {f : Nat → Option β} {n : Nat} {r : List β}
    (h : (List.range n).mapM f = some r) (i : Nat) (hi : i < n) :
    ∃ y, f i = some y ∧ r[i]? = some y := by
  rw [mapM_eq_some_iff, List.forall₂_iff_get] at h
  obtain ⟨hlength, hget⟩ := h
  rw [List.length_range] at hlength
  have hir : i < r.length := hlength ▸ hi
  have hval := hget i (by simpa using hi) hir
  exact ⟨r[i], by simpa using hval, by simp [hir]⟩

theorem getD_modify {f : α → α} {d : α} (hd : f d = d) (l : List α) (i j : Nat) :
    (l.modify i f).getD j d = if i = j then f (l.getD j d) else l.getD j d := by
  rw [List.getD_eq_getElem?_getD, List.getD_eq_getElem?_getD, List.getElem?_modify,
    Option.map_eq_map]
  cases l[j]? with
  | none => simp [hd]
  | some x => rfl

theorem ok_bind {ε : Type} (x : α) (f : α → Except ε β) : (Except.ok x >>= f) = f x := rfl

theorem error_bind {ε : Type} (e : ε) (f : α → Except ε β) :
    (Except.error e >>= f) = Except.error e := rfl

/-- The two steps of a sequence that does not fail. -/
theorem bind_ok {ε : Type} {x : Except ε α} {f : α → Except ε β} {r : β} (h : (x >>= f) = .ok r) :
    ∃ a, x = .ok a ∧ f a = .ok r := by
  cases x with
  | error failure => cases h
  | ok a => exact ⟨a, rfl, h⟩

end Jumanpp.Lib
