import Mathlib

/-!
# Counters of a fixed width

A computation over machine counters takes the conversion to the type of its counters as a parameter:
`wrapping` is what the machine does, `checked` stops at the first value that does not fit.  A loop
whose counter wraps need not end, so the number of turns of a loop is a parameter as well.
-/

namespace Jumanpp.Lib

inductive Stop
  | overflow
  | turns
deriving DecidableEq

structure Arith where
  narrow : Nat → Except Stop Nat
  turns : Nat

/-- No value that fits is changed. -/
def Arith.Exact (a : Arith) (width : Nat) : Prop :=
  ∀ k < 2 ^ width, a.narrow k = .ok k

def Arith.wrapping (width turns : Nat) : Arith :=
  ⟨fun k => .ok (k % 2 ^ width), turns⟩

def Arith.checked (width turns : Nat) : Arith :=
  ⟨fun k => if k < 2 ^ width then .ok k else .error .overflow, turns⟩

theorem Arith.exact_wrapping (width turns : Nat) : (Arith.wrapping width turns).Exact width := by
  intro k hk
  show Except.ok (k % 2 ^ width) = _
  rw [Nat.mod_eq_of_lt hk]

theorem Arith.exact_checked (width turns : Nat) : (Arith.checked width turns).Exact width :=
  fun _ hk => if_pos hk

abbrev Counted (α : Type) := ReaderT Arith (Except Stop) α

def narrow (k : Nat) : Counted Nat :=
  fun a => a.narrow k

/-- How a turn of a loop ends, and where its counter stands. -/
inductive Turn (σ : Type)
  | next (i : Nat) (s : σ)
  | exit (i : Nat) (s : σ)

section Loop

variable {σ : Type} (n : Nat) (body : Nat → σ → Counted (Turn σ))

def loopFrom : Nat → Nat → σ → Counted (Nat × σ)
  | 0, _, _ => throw .turns
  | turns + 1, i, s =>
      if i < n then do
        match ← body i s with
        | .next i s => do
            let i ← narrow (i + 1)
            loopFrom turns i s
        | .exit i s => pure (i, s)
      else pure (i, s)

/-- `for (; i < n; ++i)`. -/
def loopUp (i : Nat) (s : σ) : Counted (Nat × σ) :=
  fun a => loopFrom n body a.turns i s a

end Loop

/-- The outcome of the machine, with all the turns that its loops need. -/
def Returns {α : Type} (width : Nat) (c : Counted α) (out : α) : Prop :=
  ∃ bound, ∀ turns, bound ≤ turns → c (Arith.wrapping width turns) = .ok out

/-! ## Runs in one arithmetic -/

section Run

variable {α β : Type} (c d : Counted α) (a : Arith)

theorem run_pure (x : α) : (pure x : Counted α) a = .ok x := rfl

theorem run_bind (f : α → Counted β) : (c >>= f) a = (c a >>= fun x => f x a) := rfl

theorem run_ite (p : Prop) [Decidable p] : (if p then c else d) a = if p then c a else d a :=
  apply_ite (fun c : Counted α => c a) ..

theorem run_narrow (k width turns : Nat) :
    narrow k (Arith.wrapping width turns) = .ok (k % 2 ^ width) := rfl

theorem run_loopUp {σ : Type} (n : Nat) (body : Nat → σ → Counted (Turn σ)) (i : Nat) (s : σ) :
    loopUp n body i s a = loopFrom n body a.turns i s a := rfl

end Run

/-! ## Computations in which nothing wraps -/

/-- With enough turns the computation has one outcome in every exact arithmetic. -/
def Settles {α : Type} (width : Nat) (c : Counted α) (P : α → Prop) : Prop :=
  ∃ bound out, P out ∧ ∀ a : Arith, a.Exact width → bound ≤ a.turns → c a = .ok out

section Rules

variable {α β σ : Type} {width : Nat}

theorem Settles.returns {c : Counted α} {P : α → Prop} (h : Settles width c P) :
    ∃ out, P out ∧ Returns width c out := by
  obtain ⟨bound, out, hout, hrun⟩ := h
  exact ⟨out, hout, bound, fun turns hturns => hrun _ (Arith.exact_wrapping width turns) hturns⟩

theorem Returns.spec {c : Counted α} {P : α → Prop} {out : α} (hout : Returns width c out)
    (h : Settles width c P) : P out := by
  obtain ⟨bound, hout⟩ := hout
  obtain ⟨bound', out', hP, hrun⟩ := h
  have hsame := hrun _ (Arith.exact_wrapping width (max bound bound')) (Nat.le_max_right _ _)
  rw [hout _ (Nat.le_max_left _ _), Except.ok.injEq] at hsame
  rw [hsame]
  exact hP

theorem Settles.pure {P : α → Prop} {x : α} (h : P x) : Settles width (pure x) P :=
  ⟨0, x, h, fun _ _ _ => rfl⟩

theorem Settles.mono {c : Counted α} {P Q : α → Prop} (h : Settles width c P)
    (hPQ : ∀ x, P x → Q x) : Settles width c Q := by
  obtain ⟨bound, out, hout, hrun⟩ := h
  exact ⟨bound, out, hPQ out hout, hrun⟩

theorem Settles.bind {c : Counted α} {f : α → Counted β} {Q : α → Prop} {P : β → Prop}
    (hc : Settles width c Q) (hf : ∀ x, Q x → Settles width (f x) P) :
    Settles width (c >>= f) P := by
  obtain ⟨bound, x, hx, hrun⟩ := hc
  obtain ⟨bound', y, hy, hrun'⟩ := hf x hx
  refine ⟨max bound bound', y, hy, fun a ha hturns => ?_⟩
  have hfirst := hrun a ha (by omega)
  have hsecond := hrun' a ha (by omega)
  show (c a >>= fun x => f x a) = _
  rw [hfirst]
  exact hsecond

theorem Settles.narrow {k : Nat} (hk : k < 2 ^ width) :
    Settles width (narrow k) (fun x => x = k) :=
  ⟨0, k, rfl, fun _ ha _ => ha k hk⟩

/-- A turn leaves its counter where the next value fits, or it leaves the loop. -/
abbrev Turn.Leaves (width i : Nat) (P Q : Nat → σ → Prop) : Turn σ → Prop
  | .next j s => i ≤ j ∧ j + 1 < 2 ^ width ∧ P (j + 1) s
  | .exit j s => Q j s

/-- By induction on the distance to `n`. -/
theorem Settles.loopUp_exit {n : Nat} {body : Nat → σ → Counted (Turn σ)} {P Q : Nat → σ → Prop}
    (hbody : ∀ i s, i < n → P i s → Settles width (body i s) (Turn.Leaves width i P Q))
    (hend : ∀ i s, n ≤ i → P i s → Q i s) {i : Nat} {s : σ} (h : P i s) :
    Settles width (loopUp n body i s) fun r => Q r.1 r.2 := by
  suffices hall : ∀ d i s, n - i ≤ d → P i s → ∃ bound out, Q out.1 out.2 ∧
      ∀ a : Arith, a.Exact width → bound ≤ a.turns → ∀ turns, d + 1 ≤ turns →
        loopFrom n body turns i s a = .ok out by
    obtain ⟨bound, out, hout, hrun⟩ := hall (n - i) i s (Nat.le_refl _) h
    exact ⟨max bound (n - i + 1), out, hout, fun a ha hturns =>
      hrun a ha (by omega) a.turns (by omega)⟩
  intro d
  induction d with
  | zero =>
      intro i s hd hi
      refine ⟨0, (i, s), hend i s (by omega) hi, fun a _ _ turns hturns => ?_⟩
      obtain ⟨turns, rfl⟩ := Nat.exists_eq_add_of_lt hturns
      rw [loopFrom, if_neg (by omega)]
      rfl
  | succ d ih =>
      intro i s hd hi
      by_cases hlt : i < n
      · obtain ⟨bound, turn, hturn, hrun⟩ := hbody i s hlt hi
        cases turn with
        | exit j s' =>
            refine ⟨bound, (j, s'), hturn, fun a ha hbound turns hturns => ?_⟩
            obtain ⟨turns, rfl⟩ := Nat.exists_eq_succ_of_ne_zero (by omega : turns ≠ 0)
            rw [loopFrom, if_pos hlt]
            show (body i s a >>= _) = _
            rw [hrun a ha hbound]
            rfl
        | next j s' =>
            obtain ⟨hle, hfits, hP⟩ := hturn
            obtain ⟨bound', out, hout, hrest⟩ := ih (j + 1) s' (by omega) hP
            refine ⟨max bound bound', out, hout, fun a ha hbound turns hturns => ?_⟩
            obtain ⟨turns, rfl⟩ := Nat.exists_eq_succ_of_ne_zero (by omega : turns ≠ 0)
            rw [loopFrom, if_pos hlt]
            show (body i s a >>= _) = _
            rw [hrun a ha (by omega)]
            show (a.narrow (j + 1) >>= fun k => loopFrom n body turns k s' a) = _
            rw [ha _ hfits]
            exact hrest a ha (by omega) turns (by omega)
      · refine ⟨0, (i, s), hend i s (by omega) hi, fun a _ _ turns hturns => ?_⟩
        obtain ⟨turns, rfl⟩ := Nat.exists_eq_succ_of_ne_zero (by omega : turns ≠ 0)
        rw [loopFrom, if_neg hlt]
        rfl

abbrev Turn.Keeps (width i : Nat) (P : Nat → σ → Prop) : Turn σ → Prop :=
  Turn.Leaves width i P P

theorem Settles.loopUp {n : Nat} {body : Nat → σ → Counted (Turn σ)} {P : Nat → σ → Prop}
    (hbody : ∀ i s, i < n → P i s → Settles width (body i s) (Turn.Keeps width i P))
    {i : Nat} {s : σ} (h : P i s) : Settles width (loopUp n body i s) fun r => P r.1 r.2 :=
  Settles.loopUp_exit hbody (fun _ _ _ h => h) h

/-- The invariant of a loop over a list may speak of the elements that are done. -/
theorem Settles.foldlM {f : σ → α → Counted σ} {P : List α → σ → Prop} {l : List α}
    (hf : ∀ done s, ∀ x ∈ l, P done s → Settles width (f s x) (P (done ++ [x])))
    {d : List α} {s : σ} (h : P d s) : Settles width (l.foldlM f s) (P (d ++ l)) := by
  induction l generalizing d s with
  | nil =>
      rw [List.append_nil]
      exact Settles.pure h
  | cons x l ih =>
      rw [List.foldlM_cons]
      refine (hf d s x List.mem_cons_self h).bind fun s' hs' => ?_
      have hrest := ih (fun done s y hy => hf done s y (List.mem_cons_of_mem x hy)) hs'
      rwa [List.append_assoc] at hrest

/-! ## Computations in which a counter may wrap -/

theorem Returns.pure {x : α} : Returns width (pure x) x :=
  ⟨0, fun _ _ => rfl⟩

theorem Returns.bind {c : Counted α} {f : α → Counted β} {Q : α → Prop} {y : β}
    (hc : ∃ x, Q x ∧ Returns width c x) (hf : ∀ x, Q x → Returns width (f x) y) :
    Returns width (c >>= f) y := by
  obtain ⟨x, hx, bound, hc⟩ := hc
  obtain ⟨bound', hf⟩ := hf x hx
  refine ⟨max bound bound', fun turns hturns => ?_⟩
  show (c (Arith.wrapping width turns) >>= fun x => f x (Arith.wrapping width turns)) = _
  rw [hc turns (by omega)]
  exact hf turns (by omega)

/-- A loop returns when each turn lowers a measure `m`; the counter of the next turn has wrapped. -/
theorem Returns.loopUp {n : Nat} {body : Nat → σ → Counted (Turn σ)} {P : Nat → Nat → σ → Prop}
    {Q : Nat → σ → Prop}
    (hbody : ∀ m i s, i < n → P m i s → ∃ turn, Returns width (body i s) turn ∧
      match turn with
      | .next j s' => ∃ m' < m, P m' ((j + 1) % 2 ^ width) s'
      | .exit j s' => Q j s')
    (hend : ∀ m i s, n ≤ i → P m i s → Q i s) {m i : Nat} {s : σ} (h : P m i s) :
    ∃ r, Q r.1 r.2 ∧ Returns width (loopUp n body i s) r := by
  suffices hall : ∀ m i s, P m i s → ∃ r, Q r.1 r.2 ∧ ∃ bound, ∀ turns turns', bound ≤ turns →
      bound ≤ turns' → loopFrom n body turns i s (Arith.wrapping width turns') = .ok r by
    obtain ⟨r, hr, bound, hrun⟩ := hall m i s h
    exact ⟨r, hr, bound, fun turns hturns => hrun turns turns hturns hturns⟩
  intro m
  induction m using Nat.strongRecOn with
  | ind m ih =>
    intro i s hP
    by_cases hlt : i < n
    · obtain ⟨turn, ⟨bound, hrun⟩, hturn⟩ := hbody m i s hlt hP
      cases turn with
      | exit j s' =>
          refine ⟨(j, s'), hturn, bound + 1, fun turns turns' hturns hturns' => ?_⟩
          obtain ⟨turns, rfl⟩ := Nat.exists_eq_succ_of_ne_zero (by omega : turns ≠ 0)
          rw [loopFrom, if_pos hlt]
          show (body i s (Arith.wrapping width turns') >>= _) = _
          rw [hrun turns' (by omega)]
          rfl
      | next j s' =>
          obtain ⟨m', hm', hP'⟩ := hturn
          obtain ⟨r, hr, bound', hrest⟩ := ih m' hm' _ _ hP'
          refine ⟨r, hr, max bound bound' + 1, fun turns turns' hturns hturns' => ?_⟩
          obtain ⟨turns, rfl⟩ := Nat.exists_eq_succ_of_ne_zero (by omega : turns ≠ 0)
          rw [loopFrom, if_pos hlt]
          show (body i s (Arith.wrapping width turns') >>= _) = _
          rw [hrun turns' (by omega)]
          exact hrest turns turns' (by omega) (by omega)
    · refine ⟨(i, s), hend m i s (by omega) hP, 1, fun turns turns' hturns _ => ?_⟩
      obtain ⟨turns, rfl⟩ := Nat.exists_eq_succ_of_ne_zero (by omega : turns ≠ 0)
      rw [loopFrom, if_neg hlt]
      rfl

/-- What holds of the outcome, if there is one with this number of turns. -/
def Partially (a : Arith) (c : Counted α) (P : α → Prop) : Prop :=
  ∀ out, c a = .ok out → P out

variable {a : Arith}

theorem Partially.pure {P : α → Prop} {x : α} (h : P x) : Partially a (pure x) P := by
  intro out hout
  obtain rfl : x = out := Except.ok.inj hout
  exact h

theorem Partially.mono {c : Counted α} {P Q : α → Prop} (h : Partially a c P)
    (hPQ : ∀ x, P x → Q x) : Partially a c Q :=
  fun out hout => hPQ out (h out hout)

theorem Partially.bind {c : Counted α} {f : α → Counted β} {Q : α → Prop} {P : β → Prop}
    (hc : Partially a c Q) (hf : ∀ x, Q x → Partially a (f x) P) : Partially a (c >>= f) P := by
  intro out hout
  have hrun : (c a >>= fun x => f x a) = .ok out := hout
  cases hx : c a with
  | error stop =>
      rw [hx] at hrun
      cases hrun
  | ok x =>
      rw [hx] at hrun
      exact hf x (hc x hx) out hrun

theorem Partially.narrow {k turns : Nat} :
    Partially (.wrapping width turns) (narrow k) fun x => x = k % 2 ^ width := by
  intro out hout
  exact (Except.ok.inj hout).symm

/-- By induction on the turns that are left. -/
theorem Partially.loopUp {n turns : Nat} {body : Nat → σ → Counted (Turn σ)}
    {P Q : Nat → σ → Prop}
    (hbody : ∀ i s, i < n → P i s → Partially (.wrapping width turns) (body i s) fun
      | .next j s' => P ((j + 1) % 2 ^ width) s'
      | .exit j s' => Q j s')
    (hend : ∀ i s, n ≤ i → P i s → Q i s) {i : Nat} {s : σ} (h : P i s) :
    Partially (.wrapping width turns) (loopUp n body i s) fun r => Q r.1 r.2 := by
  suffices hall : ∀ left i s, P i s →
      Partially (.wrapping width turns) (loopFrom n body left i s) fun r => Q r.1 r.2 from
    hall _ i s h
  intro left
  induction left with
  | zero => exact fun i s _ out hout => nomatch hout
  | succ left ih =>
      intro i s hi
      rw [loopFrom]
      split
      next hlt =>
        refine (hbody i s hlt hi).bind fun turn hturn => ?_
        cases turn with
        | next j s' =>
            refine Partially.narrow.bind ?_
            rintro _ rfl
            exact ih _ _ hturn
        | exit j s' => exact Partially.pure hturn
      next hge => exact Partially.pure (hend i s (by omega) hi)

end Rules

end Jumanpp.Lib
