import Jumanpp.Lib.Transitions
import Jumanpp.Util.FlatRepGrowth
import Mathlib.Data.List.Perm.Subperm

/-!
# The map over the hash table

Whatever operations have been made, the table is the finite map that they describe.
-/

namespace Jumanpp.Util

open Jumanpp.Lib

/-- The methods of `FlatMap`; `assign` is a write through `operator[]`. -/
inductive MapOp (K V : Type)
  | insert (key : K) (val : V)
  | assign (key : K) (val : V)
  | findOrInsert (key : K) (val : V)
  | erase (key : K)
  | find (key : K)
  | reserve (n : Nat)
  | copy
  | clear
  | clearNoResize

/-- What a method returns. -/
inductive MapResult (V : Type)
  | inserted (new : Bool)
  | reference (val : V)
  | erased (count : Nat)
  | found (val : Option V)
  | done
deriving DecidableEq

namespace MapOp

variable {K V : Type} [DecidableEq K]

/-- What the methods do to a finite map. -/
def apply (m : K → Option V) : MapOp K V → (K → Option V) × MapResult V
  | .insert k v =>
    match m k with
    | some _ => (m, .inserted false)
    | none => (Function.update m k (some v), .inserted true)
  | .assign k v => (Function.update m k (some v), .done)
  | .findOrInsert k v =>
    match m k with
    | some w => (m, .reference w)
    | none => (Function.update m k (some v), .reference v)
  | .erase k => (Function.update m k none, .erased (if (m k).isSome then 1 else 0))
  | .find k => (m, .found (m k))
  | .reserve _ => (m, .done)
  | .copy => (m, .done)
  | .clear => (fun _ => none, .done)
  | .clearNoResize => (fun _ => none, .done)

end MapOp

namespace FlatRep

variable {K V : Type} [DecidableEq K] (hash : K → Nat)

/-! ## The methods -/

/-- The value in a slot. -/
def val (t : FlatRep K V) (i : Nat) : Option V := t.slots[i]?.bind fun slot => slot.entry.map Prod.snd

/-- `Insert` -/
def insert (t : FlatRep K V) (k : K) (v : V) : Option (FlatRep K V × Bool) := do
  let t ← t.maybeResize hash
  let (found, t, _) ← t.findOrInsert hash k v
  some (t, !found)

/-- `IndexOp`, and a write through the reference that it returns.  A new entry has the value of
`Val()` before. -/
def assign (t : FlatRep K V) (blankVal : V) (k : K) (v : V) : Option (FlatRep K V) := do
  let t ← t.maybeResize hash
  let (_, t, i) ← t.findOrInsert hash k blankVal
  some (t.write i v)

/-- `findOrInsert` and the value that its reference is to. -/
def findOrInsertVal (t : FlatRep K V) (k : K) (v : V) : Option (FlatRep K V × V) := do
  let t ← t.maybeResize hash
  let (_, t, i) ← t.findOrInsert hash k v
  let w ← t.val i
  some (t, w)

def eraseKey (t : FlatRep K V) (k : K) : Option (FlatRep K V × Nat) := do
  match ← t.find hash k with
  | some i => some (t.erase i, 1)
  | none => some (t, 0)

/-- The value that the iterator of `find` is at, or none for `end()`. -/
def findVal (t : FlatRep K V) (k : K) : Option (Option V) := do
  match ← t.find hash k with
  | some i => some (t.val i)
  | none => some none

def reserve (t : FlatRep K V) (n : Nat) : Option (FlatRep K V) := t.resize hash (max n t.size)

/-- The loop of `operator==` over the entries of the other map. -/
def equalLoop [DecidableEq V] (t : FlatRep K V) : List (K × V) → Option Bool
  | [] => some true
  | (k, v) :: rest => do
    match ← t.findVal hash k with
    | some w => if w = v then t.equalLoop rest else some false
    | none => some false

/-- `operator==` -/
def equal [DecidableEq V] (t x : FlatRep K V) : Option Bool :=
  if t.size = x.size then t.equalLoop hash x.entries else some false

/-- One method of a map whose buckets are or are not trivially destructible. -/
def step (trivially_destructable : Bool) (blankVal : V) (t : FlatRep K V) :
    MapOp K V → Option (FlatRep K V × MapResult V)
  | .insert k v => do
    let (t, new) ← t.insert hash k v
    some (t, .inserted new)
  | .assign k v => do
    let t ← t.assign hash blankVal k v
    some (t, .done)
  | .findOrInsert k v => do
    let (t, w) ← t.findOrInsertVal hash k v
    some (t, .reference w)
  | .erase k => do
    let (t, count) ← t.eraseKey hash k
    some (t, .erased count)
  | .find k => do
    let found ← t.findVal hash k
    some (t, .found found)
  | .reserve n => do
    let t ← t.reserve hash n
    some (t, .done)
  | .copy => do
    let t ← t.copy hash
    some (t, .done)
  | .clear => do
    let t ← t.clear hash trivially_destructable
    some (t, .done)
  | .clearNoResize => some (t.clearNoResize trivially_destructable, .done)

/-- The array is not too large for `Init`, and clearing leaves no marks of erased entries. -/
def HasRoom (trivially_destructable : Bool) (t : FlatRep K V) : MapOp K V → Prop
  | .insert _ _ => Fits (t.size + 1)
  | .assign _ _ => Fits (t.size + 1)
  | .findOrInsert _ _ => Fits (t.size + 1)
  | .reserve n => Fits (max n t.size)
  | .copy => Fits t.size
  | .clear => trivially_destructable = true ∨ t.deleted = 0
  | .clearNoResize => trivially_destructable = true ∨ t.deleted = 0
  | _ => True

instance (n : Nat) : Decidable (Fits n) := inferInstanceAs (Decidable (_ < _))

instance (trivially_destructable : Bool) (t : FlatRep K V) :
    (op : MapOp K V) → Decidable (t.HasRoom trivially_destructable op)
  | .insert _ _ => inferInstanceAs (Decidable (Fits _))
  | .assign _ _ => inferInstanceAs (Decidable (Fits _))
  | .findOrInsert _ _ => inferInstanceAs (Decidable (Fits _))
  | .reserve _ => inferInstanceAs (Decidable (Fits _))
  | .copy => inferInstanceAs (Decidable (Fits _))
  | .clear => inferInstanceAs (Decidable (_ ∨ _))
  | .clearNoResize => inferInstanceAs (Decidable (_ ∨ _))
  | .erase _ => isTrue trivial
  | .find _ => isTrue trivial

/-! ## The map of a table -/

def toFun (t : FlatRep K V) (k : K) : Option V := t.entries.lookup k

section Methods

variable {hash} {t u : FlatRep K V} {k : K} {v : V}

theorem Inv.toFun_eq_some_iff (h : t.Inv hash) : t.toFun k = some v ↔ (k, v) ∈ t.entries :=
  lookup_eq_some_iff_mem h.nodup

theorem Inv.toFun_of_perm (h : t.Inv hash) (hperm : u.entries.Perm t.entries) : u.toFun = t.toFun := by
  funext k
  exact (lookup_perm hperm.symm h.nodup).symm

theorem Inv.toFun_of_perm_cons (h : u.Inv hash) (hperm : u.entries.Perm ((k, v) :: t.entries)) :
    u.toFun = Function.update t.toFun k (some v) := by
  have hcons := @lookup_cons_eq_update _ _ _ k v t.entries
  show (fun k' => u.entries.lookup k') = Function.update (fun k' => t.entries.lookup k') k (some v)
  rw [← hcons]
  funext k'
  exact lookup_perm hperm h.nodup

omit [DecidableEq K] in
theorem val_of_slot {i x : Nat} (h : t.slots[i]? = some (.occupied x k v)) : t.val i = some v := by
  rw [val, h]
  rfl

theorem Inv.findVal_eq (h : t.Inv hash) (k : K) : t.findVal hash k = some (t.toFun k) := by
  unfold findVal
  rcases h.find_spec k with ⟨hfind, hnone⟩ | ⟨i, v, hfind, hslot⟩
  · rw [hfind]
    exact congrArg some (lookup_eq_none_iff_forall.mpr hnone).symm
  · rw [hfind]
    refine congrArg some ((val_of_slot hslot).trans ?_)
    exact (h.toFun_eq_some_iff.mpr (mem_entries.mpr ⟨i, _, hslot⟩)).symm

/-- `MaybeResize` and then `FindOrInsert`. -/
theorem Inv.insert_cases (h : t.Inv hash) (hfits : Fits (t.size + 1)) (k : K) (v : V) :
    ∃ r found u i, t.maybeResize hash = some r ∧ r.findOrInsert hash k v = some (found, u, i) ∧
      u.Inv hash ∧
      ((∃ w, found = true ∧ t.toFun k = some w ∧ u.toFun = t.toFun ∧
          u.slots[i]? = some (.occupied (marker hash k) k w)) ∨
        (found = false ∧ t.toFun k = none ∧ u.toFun = Function.update t.toFun k (some v) ∧
          u.slots[i]? = some (.occupied (marker hash k) k v))) := by
  obtain ⟨r, hr, hinv, hperm, hspace⟩ := h.maybeResize hfits
  have hsame : r.toFun = t.toFun := h.toFun_of_perm hperm
  rcases hinv.findOrInsert_spec hspace k v with ⟨i, w, hfind, hslot⟩ |
    ⟨u, i, hfind, hnone, hinv', hperm', hslot⟩
  · refine ⟨r, true, r, i, hr, hfind, hinv, .inl ⟨w, rfl, ?_, hsame, hslot⟩⟩
    rw [← hsame]
    exact hinv.toFun_eq_some_iff.mpr (mem_entries.mpr ⟨i, _, hslot⟩)
  · refine ⟨r, false, u, i, hr, hfind, hinv', .inr ⟨rfl, ?_, ?_, hslot⟩⟩
    · rw [← hsame]
      exact lookup_eq_none_iff_forall.mpr hnone
    · rw [← hsame]
      exact hinv'.toFun_of_perm_cons hperm'

theorem Inv.insert_eq (h : t.Inv hash) (hfits : Fits (t.size + 1)) (k : K) (v : V) :
    ∃ u, t.insert hash k v = some (u, (t.toFun k).isNone) ∧ u.Inv hash ∧
      u.toFun = if (t.toFun k).isNone then Function.update t.toFun k (some v) else t.toFun := by
  obtain ⟨r, found, u, i, hr, hfind, hinv, ⟨w, rfl, hw, hu, -⟩ | ⟨rfl, hw, hu, -⟩⟩ :=
    h.insert_cases hfits k v
  · refine ⟨u, ?_, hinv, ?_⟩
    · unfold insert
      rw [hr, hw]
      simp [hfind]
    · rw [hw]
      exact hu
  · refine ⟨u, ?_, hinv, ?_⟩
    · unfold insert
      rw [hr, hw]
      simp [hfind]
    · rw [hw]
      exact hu

theorem Inv.write_toFun {i x : Nat} {w : V} (h : t.Inv hash)
    (hi : t.slots[i]? = some (.occupied x k w)) :
    (t.write i v).Inv hash ∧ (t.write i v).toFun = Function.update t.toFun k (some v) := by
  obtain ⟨hinv, hperm, hmem⟩ := h.write (v := v) hi
  exact ⟨hinv, lookup_exchange hperm hmem h.nodup⟩

theorem Inv.assign_eq (h : t.Inv hash) (hfits : Fits (t.size + 1)) (blankVal : V) (k : K) (v : V) :
    ∃ u, t.assign hash blankVal k v = some u ∧ u.Inv hash ∧
      u.toFun = Function.update t.toFun k (some v) := by
  obtain ⟨r, found, u, i, hr, hfind, hinv, ⟨w, rfl, hw, hu, hslot⟩ | ⟨rfl, hw, hu, hslot⟩⟩ :=
    h.insert_cases hfits k blankVal
  · obtain ⟨hinv', hwrite⟩ := hinv.write_toFun (v := v) hslot
    refine ⟨u.write i v, ?_, hinv', by rw [hwrite, hu]⟩
    unfold assign
    rw [hr]
    simp [hfind]
  · obtain ⟨hinv', hwrite⟩ := hinv.write_toFun (v := v) hslot
    refine ⟨u.write i v, ?_, hinv', by rw [hwrite, hu, Function.update_idem]⟩
    unfold assign
    rw [hr]
    simp [hfind]

theorem Inv.findOrInsertVal_eq (h : t.Inv hash) (hfits : Fits (t.size + 1)) (k : K) (v : V) :
    ∃ u, t.findOrInsertVal hash k v = some (u, (t.toFun k).getD v) ∧ u.Inv hash ∧
      u.toFun = if (t.toFun k).isNone then Function.update t.toFun k (some v) else t.toFun := by
  obtain ⟨r, found, u, i, hr, hfind, hinv, ⟨w, rfl, hw, hu, hslot⟩ | ⟨rfl, hw, hu, hslot⟩⟩ :=
    h.insert_cases hfits k v
  · refine ⟨u, ?_, hinv, by rw [hw]; exact hu⟩
    unfold findOrInsertVal
    rw [hr, hw]
    simp [hfind, val_of_slot hslot]
  · refine ⟨u, ?_, hinv, by rw [hw]; exact hu⟩
    unfold findOrInsertVal
    rw [hr, hw]
    simp [hfind, val_of_slot hslot]

theorem Inv.eraseKey_eq (h : t.Inv hash) (k : K) :
    ∃ u, t.eraseKey hash k = some (u, if (t.toFun k).isSome then 1 else 0) ∧ u.Inv hash ∧
      u.toFun = Function.update t.toFun k none := by
  unfold eraseKey
  rcases h.find_spec k with ⟨hfind, hnone⟩ | ⟨i, v, hfind, hslot⟩
  · have hw : t.toFun k = none := lookup_eq_none_iff_forall.mpr hnone
    refine ⟨t, ?_, h, ?_⟩
    · rw [hfind, hw]
      rfl
    · rw [← hw, Function.update_eq_self]
  · obtain ⟨hinv, hperm⟩ := h.erase hslot
    have hw : t.toFun = Function.update (t.erase i).toFun k (some v) := h.toFun_of_perm_cons hperm
    have hnone : (t.erase i).toFun k = none := by
      refine lookup_eq_none_iff_forall.mpr fun w hmem => ?_
      have hnodup := (hperm.map Prod.fst).nodup_iff.mp h.nodup
      exact (List.nodup_cons.mp hnodup).1 (List.mem_map.mpr ⟨(k, w), hmem, rfl⟩)
    refine ⟨t.erase i, ?_, hinv, ?_⟩
    · rw [hfind, hw, Function.update_self]
      rfl
    · rw [hw, Function.update_idem, ← hnone, Function.update_eq_self]

omit [DecidableEq K] in
theorem Inv.clearNoResize (h : t.Inv hash) {trivially_destructable : Bool}
    (hclean : trivially_destructable = true ∨ t.deleted = 0) :
    (t.clearNoResize trivially_destructable).Inv hash ∧
      (t.clearNoResize trivially_destructable).entries = [] := by
  have hslots : (t.clearNoResize trivially_destructable).slots =
      List.replicate t.slots.length .empty := by
    rw [List.eq_replicate_iff]
    refine ⟨List.length_map _, fun slot hslot => ?_⟩
    obtain ⟨before, hmem, rfl⟩ := List.mem_map.mp hslot
    cases before with
    | empty => rfl
    | deleted =>
        rcases hclean with rfl | hzero
        · rfl
        · rw [h.deleted_eq, List.countP_eq_zero] at hzero
          exact absurd rfl (hzero .deleted hmem)
    | occupied x key val => rfl
  have hentries : (t.clearNoResize trivially_destructable).entries = [] := by
    rw [entries, hslots, List.filterMap_eq_nil_iff]
    intro slot hslot
    rw [List.eq_of_mem_replicate hslot]
    rfl
  have hcapacity : (t.clearNoResize trivially_destructable).capacity = t.capacity := capacity_congr rfl
  refine ⟨⟨fun i x k v hi => ?_, ?_, ?_, ?_, Nat.zero_le _, hcapacity ▸ h.grow_eq⟩, hentries⟩
  · rw [hslots] at hi
    cases List.eq_of_mem_replicate (List.mem_of_getElem? hi)
  · rw [hentries]
    exact List.nodup_nil
  · rw [hslots, List.countP_replicate, List.length_replicate]
    exact Nat.zero_add _
  · rw [hslots, List.countP_replicate]
    rfl

omit [DecidableEq K] in
theorem Inv.clear_eq (h : t.Inv hash) {trivially_destructable : Bool}
    (hclean : trivially_destructable = true ∨ t.deleted = 0) :
    ∃ u, t.clear hash trivially_destructable = some u ∧ u.Inv hash ∧ u.entries = [] := by
  obtain ⟨hinv, hnil⟩ := h.clearNoResize hclean
  have hinv' : ({ t.clearNoResize trivially_destructable with grow := 0 } : FlatRep K V).Inv hash :=
    ⟨hinv.reach, hinv.nodup, hinv.notEmpty_eq, hinv.deleted_eq, hinv.room, .inl rfl⟩
  have hfits : Fits (0 + 1) := by
    unfold Fits
    decide
  obtain ⟨u, hu, hinv'', hperm, -⟩ := hinv'.maybeResize hfits
  refine ⟨u, hu, hinv'', List.Perm.eq_nil (hperm.trans ?_)⟩
  exact List.Perm.of_eq hnil

end Methods

/-! ## Runs -/

section Runs

variable {hash} {t : FlatRep K V} {trivially_destructable : Bool} {blankVal : V}

theorem toFun_of_nil (h : t.entries = []) : t.toFun = fun _ => none := by
  funext k
  rw [toFun, h]
  rfl

/-- What one method does. -/
theorem Inv.step_eq (h : t.Inv hash) (blankVal : V) {op : MapOp K V} (hroom : t.HasRoom trivially_destructable op) :
    ∃ u r, t.step hash trivially_destructable blankVal op = some (u, r) ∧ u.Inv hash ∧
      op.apply t.toFun = (u.toFun, r) := by
  cases op with
  | insert k v =>
      obtain ⟨u, hu, hinv, hfun⟩ := h.insert_eq hroom k v
      refine ⟨u, _, by rw [step, hu]; rfl, hinv, ?_⟩
      rw [hfun, MapOp.apply]
      cases t.toFun k with
      | none => rfl
      | some w => rfl
  | assign k v =>
      obtain ⟨u, hu, hinv, hfun⟩ := h.assign_eq hroom blankVal k v
      exact ⟨u, _, by rw [step, hu]; rfl, hinv, by rw [hfun, MapOp.apply]⟩
  | findOrInsert k v =>
      obtain ⟨u, hu, hinv, hfun⟩ := h.findOrInsertVal_eq hroom k v
      refine ⟨u, _, by rw [step, hu]; rfl, hinv, ?_⟩
      rw [hfun, MapOp.apply]
      cases t.toFun k with
      | none => rfl
      | some w => rfl
  | erase k =>
      obtain ⟨u, hu, hinv, hfun⟩ := h.eraseKey_eq k
      exact ⟨u, _, by rw [step, hu]; rfl, hinv, by rw [hfun, MapOp.apply]⟩
  | find k => exact ⟨t, _, by rw [step, h.findVal_eq]; rfl, h, rfl⟩
  | reserve n =>
      obtain ⟨u, hu, hinv, hperm, -⟩ := h.resize (Nat.le_max_right n t.size) hroom
      exact ⟨u, _, by rw [step, reserve, hu]; rfl, hinv, by rw [h.toFun_of_perm hperm]; rfl⟩
  | copy =>
      obtain ⟨u, hu, hinv, hperm, -⟩ := h.resize (Nat.le_refl t.size) hroom
      exact ⟨u, _, by rw [step, copy, hu]; rfl, hinv, by rw [h.toFun_of_perm hperm]; rfl⟩
  | clear =>
      obtain ⟨u, hu, hinv, hnil⟩ := h.clear_eq hroom
      exact ⟨u, _, by rw [step, hu]; rfl, hinv, by rw [toFun_of_nil hnil]; rfl⟩
  | clearNoResize =>
      obtain ⟨hinv, hnil⟩ := h.clearNoResize hroom
      exact ⟨_, _, rfl, hinv, by rw [toFun_of_nil hnil]; rfl⟩

variable (hash trivially_destructable blankVal) in
/-- The table after a method. -/
def next (t : FlatRep K V) (op : MapOp K V) : Option (FlatRep K V) :=
  (t.step hash trivially_destructable blankVal op).map Prod.fst

theorem init_inv {n : Nat} (h : init K V n = some t) : t.Inv hash ∧ t.toFun = fun _ => none := by
  obtain ⟨lg, -, rfl⟩ := Option.map_eq_some_iff.mp h
  exact ⟨blank_inv lg, toFun_of_nil (blank_entries lg)⟩

theorem inv_of_reachable {n : Nat} {new : FlatRep K V} (hnew : init K V n = some new)
    (h : Reachable (next hash trivially_destructable blankVal) (HasRoom trivially_destructable) new t) :
    t.Inv hash := by
  refine h.invariant (P := fun t => t.Inv hash) (init_inv hnew).1 ?_
  intro t u op ht hroom hstep
  obtain ⟨v, r, hv, hinv, -⟩ := ht.step_eq blankVal hroom
  rw [next, hv] at hstep
  obtain rfl := Option.some.inj hstep
  exact hinv

/-- After any run of its methods a map does the next one to its end, and does to its entries what
the method does to a finite map; its iterators go over each entry once, and its size is their
number. -/
theorem step_refines {n : Nat} {new : FlatRep K V} {op : MapOp K V} (hnew : init K V n = some new)
    (h : Reachable (next hash trivially_destructable blankVal) (HasRoom trivially_destructable) new t)
    (hroom : t.HasRoom trivially_destructable op) :
    (t.entries.map Prod.fst).Nodup ∧ t.size = t.entries.length ∧
      ∃ u r, t.step hash trivially_destructable blankVal op = some (u, r) ∧
        op.apply t.toFun = (u.toFun, r) := by
  have hinv := inv_of_reachable hnew h
  obtain ⟨u, r, hstep, -, hfun⟩ := hinv.step_eq blankVal hroom
  exact ⟨hinv.nodup, hinv.size_eq, u, r, hstep, hfun⟩

/-- All keys begin at the same slot here. -/
theorem step_refines_grown : ∃ (t u : FlatRep Nat Nat) (r : MapResult Nat),
    Reachable (next id true 0) (HasRoom true) (blank Nat Nat 0) t ∧ t.lglen = 1 ∧
      t.step id true 0 (.erase 3) = some (u, r) ∧
      (MapOp.erase 3).apply t.toFun = (u.toFun, r) := by
  have hrun : (([.insert 0 5, .insert 1 6, .erase 0, .insert 2 7, .insert 3 8, .insert 4 9,
      .assign 2 1, .insert 5 2, .insert 6 3, .insert 7 4].foldlM (guarded (next id true 0)
        (HasRoom true)) (blank Nat Nat 0)).map fun t => (t.lglen, decide (t.HasRoom true (.erase 3)))) =
          some (1, true) := by
    decide +kernel
  obtain ⟨t, ht, heq⟩ := Option.map_eq_some_iff.mp hrun
  obtain ⟨hlg, hroom⟩ := Prod.mk.inj heq
  have hreach : Reachable (next id true 0) (HasRoom true) (blank Nat Nat 0) t :=
    reachable_of_guarded .start ht
  have hnew : init Nat Nat 1 = some (blank Nat Nat 0) := by
    rw [init, show lgFor 1 = some 0 by decide]
    rfl
  obtain ⟨-, -, u, r, hstep, hfun⟩ := step_refines hnew hreach (of_decide_eq_true hroom)
  exact ⟨t, u, r, hreach, hlg, hstep, hfun⟩

theorem Inv.equalLoop_eq [DecidableEq V] (h : t.Inv hash) (entries : List (K × V)) :
    t.equalLoop hash entries = some (decide (∀ e ∈ entries, t.toFun e.1 = some e.2)) := by
  induction entries with
  | nil => exact congrArg some (decide_eq_true (List.forall_mem_nil _)).symm
  | cons e entries ih =>
      obtain ⟨k, v⟩ := e
      rw [equalLoop, h.findVal_eq]
      cases hw : t.toFun k with
      | none => simp [hw]
      | some w =>
          by_cases hvw : w = v
          · simp [hw, hvw, ih]
          · simp [hw, hvw]

theorem Inv.equal_eq [DecidableEq V] {x : FlatRep K V} (h : t.Inv hash) (hx : x.Inv hash) :
    ∃ same, t.equal hash x = some same ∧ (same = true ↔ t.toFun = x.toFun) := by
  unfold equal
  split_ifs with hsize
  · refine ⟨_, h.equalLoop_eq x.entries, ?_⟩
    rw [decide_eq_true_eq]
    refine ⟨fun hall => ?_, fun hsame e he => ?_⟩
    · have hsubset : x.entries ⊆ t.entries := fun e he =>
        h.toFun_eq_some_iff.mp (hall e he)
      have hlength : t.entries.length ≤ x.entries.length := by
        rw [← h.size_eq, ← hx.size_eq]
        omega
      have hperm := (List.subperm_of_subset (List.Nodup.of_map _ hx.nodup) hsubset).perm_of_length_le
        hlength
      exact hx.toFun_of_perm hperm.symm
    · rw [hsame]
      exact hx.toFun_eq_some_iff.mpr he
  · refine ⟨false, rfl, fun hfalse => by (cases hfalse), fun hsame => absurd ?_ hsize⟩
    -- maps that agree have the same entries
    have hmem : ∀ e, e ∈ t.entries ↔ e ∈ x.entries := fun e => by
      rw [← h.toFun_eq_some_iff, ← hx.toFun_eq_some_iff, hsame]
    have hperm := (List.perm_ext_iff_of_nodup (List.Nodup.of_map _ h.nodup)
      (List.Nodup.of_map _ hx.nodup)).mpr hmem
    rw [h.size_eq, hx.size_eq, hperm.length_eq]

end Runs

end FlatRep

end Jumanpp.Util
