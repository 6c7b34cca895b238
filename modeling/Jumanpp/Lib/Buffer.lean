import Mathlib.Data.List.Basic
import Mathlib.Tactic.Common

/-!
# Buffers and counting loops

A buffer is a list.  A read or a write outside of it has no result, and neither has a loop one of
whose turns has none.
-/

namespace Jumanpp.Lib

variable {α σ : Type}

def readAt (buf : List α) (i : Int) : Option α :=
  if 0 ≤ i then buf[i.toNat]? else none

def writeAt (buf : List α) (i : Int) (v : α) : Option (List α) :=
  if 0 ≤ i ∧ i.toNat < buf.length then some (buf.set i.toNat v) else none

def updateAt (buf : List α) (i : Int) (f : α → α) : Option (List α) :=
  (readAt buf i).bind fun x => writeAt buf i (f x)

@[simp]
theorem readAt_natCast (buf : List α) (i : Nat) : readAt buf (i : Int) = buf[i]? := by
  simp [readAt]

theorem writeAt_natCast {buf : List α} {i : Nat} (hi : i < buf.length) (v : α) :
    writeAt buf (i : Int) v = some (buf.set i v) := by
  simp [writeAt, hi]

/-! ## Writing the rows from the first one on -/

/-- The buffer after the first `n` rows have been replaced. -/
def overwrite (f : Nat → α → α) (n : Nat) (buf : List α) : List α :=
  buf.mapIdx fun i x => if i < n then f i x else x

@[simp]
theorem length_overwrite (f : Nat → α → α) (n : Nat) (buf : List α) :
    (overwrite f n buf).length = buf.length := by
  simp [overwrite]

theorem getElem?_overwrite (f : Nat → α → α) (n : Nat) (buf : List α) (i : Nat) :
    (overwrite f n buf)[i]? = buf[i]?.map fun x => if i < n then f i x else x := by
  simp [overwrite]

@[simp]
theorem overwrite_zero (f : Nat → α → α) (buf : List α) : overwrite f 0 buf = buf := by
  apply List.ext_getElem?
  intro i
  simp [getElem?_overwrite]

theorem drop_overwrite (f : Nat → α → α) {n m : Nat} (h : n ≤ m) (buf : List α) :
    (overwrite f n buf).drop m = buf.drop m := by
  apply List.ext_getElem?
  intro i
  have hi : ¬ m + i < n := by omega
  simp [getElem?_overwrite, hi]

theorem overwrite_congr {f g : Nat → α → α} {n : Nat} (h : ∀ i x, i < n → f i x = g i x)
    (buf : List α) : overwrite f n buf = overwrite g n buf := by
  apply List.ext_getElem?
  intro i
  rw [getElem?_overwrite, getElem?_overwrite]
  congr 1
  ext x
  split_ifs with hi
  · rw [h i x hi]
  · rfl

theorem overwrite_overwrite (f g : Nat → α → α) (n : Nat) (buf : List α) :
    overwrite g n (overwrite f n buf) = overwrite (fun i x => g i (f i x)) n buf := by
  apply List.ext_getElem?
  intro i
  simp only [getElem?_overwrite, Option.map_map]
  congr 1
  ext x
  by_cases hi : i < n <;> simp [hi]

/-- The next row is written behind the ones that have been. -/
theorem updateAt_overwrite (f : Nat → α → α) {n : Nat} {buf : List α} (hn : n < buf.length) :
    updateAt (overwrite f n buf) (n : Int) (f n) = some (overwrite f (n + 1) buf) := by
  have hread : (overwrite f n buf)[n]? = some buf[n] := by
    rw [getElem?_overwrite, List.getElem?_eq_getElem hn]
    simp
  unfold updateAt
  rw [readAt_natCast, hread, Option.bind_some, writeAt_natCast (by simpa using hn)]
  congr 1
  apply List.ext_getElem?
  intro i
  rw [List.getElem?_set, getElem?_overwrite, getElem?_overwrite, length_overwrite]
  by_cases hi : n = i
  · subst hi
    simp [hn]
  · have hlt : i < n + 1 ↔ i < n := by omega
    simp [hi, hlt]

theorem writeAt_overwrite (v : Nat → α) {n : Nat} {buf : List α} (hn : n < buf.length) :
    writeAt (overwrite (fun i _ => v i) n buf) (n : Int) (v n) =
      some (overwrite (fun i _ => v i) (n + 1) buf) := by
  rw [← updateAt_overwrite (fun i _ => v i) hn]
  unfold updateAt
  rw [readAt_natCast, List.getElem?_eq_getElem (by simpa using hn)]
  rfl

/-- The row that is written has the number before the current one. -/
theorem updateAt_overwrite_pred (f : Nat → α → α) {n : Nat} {buf : List α} (hpos : 0 < n)
    (hn : n ≤ buf.length) :
    updateAt (overwrite f (n - 1) buf) ((n : Int) - 1) (f (n - 1)) = some (overwrite f n buf) := by
  have hcast : (n : Int) - 1 = ((n - 1 : Nat) : Int) := by omega
  have hsucc : n - 1 + 1 = n := by omega
  have hwrite := updateAt_overwrite f (show n - 1 < buf.length by omega)
  rw [hsucc] at hwrite
  rw [hcast]
  exact hwrite

theorem writeAt_overwrite_pred (v : Nat → α) {n : Nat} {buf : List α} (hpos : 0 < n)
    (hn : n ≤ buf.length) :
    writeAt (overwrite (fun i _ => v i) (n - 1) buf) ((n : Int) - 1) (v (n - 1)) =
      some (overwrite (fun i _ => v i) n buf) := by
  have hcast : (n : Int) - 1 = ((n - 1 : Nat) : Int) := by omega
  have hsucc : n - 1 + 1 = n := by omega
  have hwrite := writeAt_overwrite v (show n - 1 < buf.length by omega)
  rw [hsucc] at hwrite
  rw [hcast]
  exact hwrite

/-- A value for each of the first rows: the rows are those values. -/
theorem take_overwrite {v : Nat → α} {n : Nat} {buf : List α} (hn : n ≤ buf.length) :
    (overwrite (fun i _ => v i) n buf).take n = (List.range n).map v := by
  apply List.ext_getElem?
  intro i
  by_cases hi : i < n
  · have hlt : i < buf.length := by omega
    rw [List.getElem?_take_of_lt hi, getElem?_overwrite, List.getElem?_eq_getElem hlt]
    simp [hi]
  · rw [List.getElem?_take, if_neg hi]
    simp [hi]

/-! ## Loops -/

/-- `for (i = start; i < start + count; ++i)`. -/
def forRange (body : Nat → σ → Option σ) : Nat → Nat → σ → Option σ
  | _, 0, s => some s
  | start, count + 1, s => (body start s).bind (forRange body (start + 1) count)

theorem forRange_of_pos (body : Nat → σ → Option σ) (start : Nat) {count : Nat} (h : 0 < count)
    (s : σ) :
    forRange body start count s =
      (body start s).bind (forRange body (start + 1) (count - 1)) := by
  cases count with
  | zero => omega
  | succ count => rfl

/-- The invariant rule: `P i s` describes the state before turn `i`. -/
theorem forRange_invariant (body : Nat → σ → Option σ) (start count : Nat) {s : σ}
    (P : Nat → σ → Prop) (hs : P start s)
    (hbody : ∀ i s, start ≤ i → i < start + count → P i s →
      ∃ s', body i s = some s' ∧ P (i + 1) s') :
    ∃ s', forRange body start count s = some s' ∧ P (start + count) s' := by
  induction count generalizing start s with
  | zero => exact ⟨s, rfl, hs⟩
  | succ count ih =>
      obtain ⟨s₁, hturn, hs₁⟩ := hbody start s (Nat.le_refl _) (by omega) hs
      have hrest : ∀ i s, start + 1 ≤ i → i < start + 1 + count → P i s →
          ∃ s', body i s = some s' ∧ P (i + 1) s' := by
        intro i s hlow hhigh
        exact hbody i s (by omega) (by omega)
      obtain ⟨s', hloop, hs'⟩ := ih (start + 1) hs₁ hrest
      refine ⟨s', ?_, ?_⟩
      · rw [forRange, hturn, Option.bind_some, hloop]
      · have hend : start + (count + 1) = start + 1 + count := by omega
        rw [hend]
        exact hs'

/-- The invariant rule for a loop that may have no result. -/
theorem forRange_of_some (body : Nat → σ → Option σ) (start count : Nat) {s s' : σ}
    (P : Nat → σ → Prop) (hs : P start s)
    (hbody : ∀ i s s', start ≤ i → i < start + count → P i s → body i s = some s' → P (i + 1) s')
    (h : forRange body start count s = some s') : P (start + count) s' := by
  induction count generalizing start s with
  | zero =>
      cases h
      exact hs
  | succ count ih =>
      obtain ⟨s₁, hturn, hrest⟩ := Option.bind_eq_some_iff.mp h
      have hs₁ := hbody start s s₁ (Nat.le_refl _) (by omega) hs hturn
      have hend := ih (start + 1) hs₁ (fun i s s' hlow hhigh => hbody i s s' (by omega) (by omega)) hrest
      have hsum : start + 1 + count = start + (count + 1) := by omega
      rw [← hsum]
      exact hend

/-- The rule for a loop whose states are known beforehand. -/
theorem forRange_eq (body : Nat → σ → Option σ) (start count : Nat) (state : Nat → σ)
    (hbody : ∀ i, start ≤ i → i < start + count → body i (state i) = some (state (i + 1))) :
    forRange body start count (state start) = some (state (start + count)) := by
  have hrun := forRange_invariant body start count (s := state start)
    (fun i s => s = state i) rfl (by
      intro i s hlow hhigh hs
      exact ⟨state (i + 1), hs ▸ hbody i hlow hhigh, rfl⟩)
  obtain ⟨s', hloop, hs'⟩ := hrun
  rw [hloop, hs']

/-- A loop that replaces each row by one computed from it. -/
theorem forRange_update {step : Nat → α → Option α} {f : Nat → α → α} {n : Nat} {buf : List α}
    (hn : n ≤ buf.length)
    (hstep : ∀ i x, i < n → buf[i]? = some x → step i x = some (f i x)) :
    forRange (fun i buf => (readAt buf i).bind fun x => (step i x).bind fun x => writeAt buf i x)
      0 n buf = some (overwrite f n buf) := by
  have hloop := forRange_eq
    (fun i buf => (readAt buf i).bind fun x => (step i x).bind fun x => writeAt buf i x) 0 n
    fun i => overwrite f i buf
  rw [overwrite_zero, Nat.zero_add] at hloop
  apply hloop
  intro i _ hi
  have hlt : i < buf.length := by omega
  have hread : (overwrite f i buf)[i]? = some buf[i] := by
    rw [getElem?_overwrite, List.getElem?_eq_getElem hlt]
    simp
  have hturn := updateAt_overwrite f hlt
  unfold updateAt at hturn
  rw [readAt_natCast, hread, Option.bind_some] at hturn ⊢
  rw [hstep i _ hi (List.getElem?_eq_getElem hlt), Option.bind_some, hturn]

/-- A loop over a list whose elements have slots of their own. -/
theorem foldlM_slots {β : Type} {l : List β} {slot : β → Nat} {v : β → α} {v' : Nat → α}
    {step : List α → β → Option (List α)} {buf : List α} (hlen : l.length ≤ buf.length)
    (hslot : ∀ (i : Nat) (h : i < l.length), slot l[i] = i)
    (hv : ∀ (i : Nat) (h : i < l.length), v' i = v l[i])
    (hstep : ∀ x ∈ l, ∀ buf, step buf x = writeAt buf (slot x) (v x)) :
    l.foldlM step buf = some (overwrite (fun i _ => v' i) l.length buf) := by
  have hrest : ∀ d k, k + d = l.length →
      (l.drop k).foldlM step (overwrite (fun i _ => v' i) k buf) =
        some (overwrite (fun i _ => v' i) l.length buf) := by
    intro d
    induction d with
    | zero =>
        intro k hk
        rw [Nat.add_zero] at hk
        subst hk
        rw [List.drop_length]
        rfl
    | succ d ih =>
        intro k hk
        have hlt : k < l.length := by omega
        rw [List.drop_eq_getElem_cons hlt, List.foldlM_cons, hstep _ (List.getElem_mem hlt),
          hslot k hlt, ← hv k hlt, writeAt_overwrite v' (by omega)]
        exact ih (k + 1) (by omega)
  simpa using hrest l.length 0 (by omega)

/-- A loop with a result had a result in every turn. -/
theorem forRange_turn {body : Nat → σ → Option σ} {start count : Nat} {s s' : σ}
    (h : forRange body start count s = some s') (i : Nat) (hlow : start ≤ i)
    (hhigh : i < start + count) : ∃ t t', body i t = some t' := by
  induction count generalizing start s with
  | zero => omega
  | succ count ih =>
      rw [forRange, Option.bind_eq_some_iff] at h
      obtain ⟨s₁, hturn, hrest⟩ := h
      by_cases hi : i = start
      · subst hi
        exact ⟨s, s₁, hturn⟩
      · exact ih hrest (by omega) (by omega)

end Jumanpp.Lib
