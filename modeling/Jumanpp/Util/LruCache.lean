import Jumanpp.Util.FlatMap

/-!
# The double barrel cache

New entries go to the first map.  When it is full it becomes the second one, and the entries of the
second one that were not used since then are gone.
-/

namespace Jumanpp.Util

open Jumanpp.Lib

structure LruCache (K V : Type) where
  map1 : FlatRep K V
  map2 : FlatRep K V
  capacity : Nat

inductive LruOp (K V : Type)
  | tryFind (key : K)
  | insert (key : K) (value : V)
deriving DecidableEq

namespace LruCache

variable {K V : Type} [DecidableEq K] (hash : K → Nat)

/-- The constructor. -/
def new (K V : Type) [DecidableEq K] (hash : K → Nat) (capacity : Nat) : Option (LruCache K V) := do
  let map1 ← FlatRep.init K V 1
  let map1 ← map1.reserve hash (capacity * 3 / 2)
  let map2 ← FlatRep.init K V 1
  let map2 ← map2.reserve hash (capacity * 3 / 2)
  some { map1, map2, capacity }

/-- `maybe_swap` -/
def maybeSwap (trivially_destructable : Bool) (c : LruCache K V) : LruCache K V :=
  if c.capacity ≤ c.map1.size then
    { c with map1 := c.map2.clearNoResize trivially_destructable, map2 := c.map1 }
  else c

/-- `tryFind`, with `none` for false. -/
def tryFind (trivially_destructable : Bool) (c : LruCache K V) (key : K) :
    Option (LruCache K V × Option V) := do
  match ← c.map1.findVal hash key with
  | some value => some (c, some value)
  | none =>
    match ← c.map2.findVal hash key with
    | some value =>
      let (map1, _) ← c.map1.insert hash key value
      some ({ c with map1 }.maybeSwap trivially_destructable, some value)
    | none => some (c, none)

def insert (trivially_destructable : Bool) (c : LruCache K V) (key : K) (value : V) :
    Option (LruCache K V) := do
  let (map1, _) ← c.map1.insert hash key value
  some ({ c with map1 }.maybeSwap trivially_destructable)

/-- One call. -/
def step (trivially_destructable : Bool) (c : LruCache K V) : LruOp K V → Option (LruCache K V)
  | .tryFind key => (c.tryFind hash trivially_destructable key).map Prod.fst
  | .insert key value => c.insert hash trivially_destructable key value

end LruCache

/-! ## Insertions into a map without erased entries -/

namespace FlatRep

variable {K V : Type} {hash : K → Nat} {t : FlatRep K V} {k : K} {v : V}

/-- The array that the map was given at first is still large enough, and nothing was erased. -/
structure Roomy (t : FlatRep K V) (lglen n : Nat) : Prop where
  lglen_eq : t.lglen = lglen
  deleted_eq : t.deleted = 0
  grow_eq : t.grow = t.capacity * 4 / 5
  room : n ≤ t.capacity * 4 / 5

theorem firstDeleted_eq_none (h : t.Inv hash) (hclean : t.deleted = 0) (n : Nat) :
    t.firstDeleted hash k n = none := by
  cases hdel : t.firstDeleted hash k n with
  | none => rfl
  | some i =>
      obtain ⟨p, -, -, hdeleted⟩ := firstDeleted_spec hdel
      rw [h.deleted_eq, List.countP_eq_zero] at hclean
      exact absurd rfl (hclean .deleted (List.mem_of_getElem? hdeleted))

/-- An insertion that needs no new array. -/
theorem Inv.insert_roomy [DecidableEq K] {lglen n : Nat} (h : t.Inv hash) (hroomy : t.Roomy lglen n)
    (hspace : t.notEmpty < t.capacity * 4 / 5) (k : K) (v : V) :
    ∃ u, t.insert hash k v = some (u, (t.toFun k).isNone) ∧ u.Inv hash ∧ u.Roomy lglen n ∧
      u.toFun = (if (t.toFun k).isNone then Function.update t.toFun k (some v) else t.toFun) ∧
      u.size = t.size + if (t.toFun k).isNone then 1 else 0 := by
  have hresize : t.maybeResize hash = some t := by
    unfold FlatRep.maybeResize
    rw [if_pos (by rw [hroomy.grow_eq]; exact hspace)]
  obtain ⟨p, -, hbefore, ⟨hempty, hfind⟩ | ⟨w, hslot, hfind⟩⟩ :=
    @findOrInsert_eq _ _ hash t k _ h.hasEmpty v
  · have hnone : t.toFun k = none := lookup_eq_none_iff_forall.mpr (h.not_mem hempty hbefore)
    rw [firstDeleted_eq_none h hroomy.deleted_eq] at hfind
    obtain ⟨hinv, hperm⟩ := @Inv.occupy _ _ hash t
      { t.withSlot (t.probeFor hash k p) (.occupied (marker hash k) k v) with
        notEmpty := t.notEmpty + 1 } k v _ _ h hempty rfl
      ⟨p, rfl, fun q hq hq' => hbefore q hq (.inl hq')⟩ (h.not_mem hempty hbefore) rfl rfl rfl rfl rfl hspace
    refine ⟨_, ?_, hinv, ?_, ?_, ?_⟩
    · unfold insert
      rw [hresize, hnone]
      simp only [Option.bind_eq_bind, Option.bind_some, hfind]
      rfl
    · have hcapacity : FlatRep.capacity { t.withSlot (t.probeFor hash k p)
          (.occupied (marker hash k) k v) with notEmpty := t.notEmpty + 1 } = t.capacity :=
        capacity_congr rfl
      exact ⟨hroomy.lglen_eq, hroomy.deleted_eq, hcapacity ▸ hroomy.grow_eq, hcapacity ▸ hroomy.room⟩
    · rw [hnone]
      exact hinv.toFun_of_perm_cons hperm
    · rw [hinv.size_eq, hperm.length_eq, h.size_eq, hnone]
      rfl
  · have hsome : t.toFun k = some w := h.toFun_eq_some_iff.mpr (mem_entries.mpr ⟨_, _, hslot⟩)
    refine ⟨t, ?_, h, hroomy, ?_, ?_⟩
    · unfold insert
      rw [hresize, hsome]
      simp [hfind]
    · rw [hsome]
      rfl
    · rw [hsome]
      rfl

end FlatRep

namespace LruCache

variable {K V : Type} [DecidableEq K] {hash : K → Nat} {c d : LruCache K V}
  {trivially_destructable : Bool} {key : K} {value : V} {lglen : Nat}

/-! ## What a call does -/

variable (hash) in
structure Inv (c : LruCache K V) (lglen : Nat) : Prop where
  map1 : c.map1.Inv hash
  map2 : c.map2.Inv hash
  roomy1 : c.map1.Roomy lglen (c.capacity * 3 / 2)
  roomy2 : c.map2.Roomy lglen (c.capacity * 3 / 2)
  young : c.map1.size < c.capacity ∨ c.map1.size = 0
  old : c.map2.size ≤ max c.capacity 1

/-- The entries of the first map with a new one, if its key is new. -/
def added (m : K → Option V) (key : K) (value : V) : K → Option V :=
  if (m key).isNone then Function.update m key (some value) else m

theorem added_self (m : K → Option V) (key : K) (value : V) :
    added m key value key = some ((m key).getD value) := by
  unfold added
  cases hm : m key with
  | none => simp
  | some w => simp [hm]

theorem added_of_ne {m : K → Option V} {key key' : K} (h : key' ≠ key) (value : V) :
    added m key value key' = m key' := by
  unfold added
  split_ifs
  · exact Function.update_of_ne h _ _
  · rfl

theorem added_eq_some {m : K → Option V} {key key' : K} {value w : V} (h : m key' = some w) :
    added m key value key' = some w := by
  by_cases hkey : key' = key
  · subst hkey
    rw [added_self, h]
    rfl
  · rw [added_of_ne hkey, h]

omit [DecidableEq K] in
theorem Inv.space (h : c.Inv hash lglen) : c.map1.notEmpty < c.map1.capacity * 4 / 5 := by
  have hroom := h.roomy1.room
  have hclean := h.roomy1.deleted_eq
  have hyoung := h.young
  have hcapacity := FlatRep.capacity_eq c.map1
  have hpow : 2 ^ 3 ≤ 2 ^ (c.map1.lglen + 3) := Nat.pow_le_pow_right (by decide) (Nat.le_add_left _ _)
  unfold FlatRep.size at hyoung
  omega

omit [DecidableEq K] in
theorem clearNoResize_roomy {t : FlatRep K V} {n : Nat} (h : t.Roomy lglen n) :
    (t.clearNoResize trivially_destructable).Roomy lglen n := by
  have hcapacity : (t.clearNoResize trivially_destructable).capacity = t.capacity :=
    FlatRep.capacity_congr rfl
  exact ⟨h.lglen_eq, rfl, hcapacity ▸ h.grow_eq, hcapacity ▸ h.room⟩

/-- An entry is added to the first map, and the maps change places if that is full. -/
theorem Inv.add (h : c.Inv hash lglen) (trivially_destructable : Bool) (key : K) (value : V) :
    ∃ map1 new, c.map1.insert hash key value = some (map1, new) ∧
      ∃ d, d = ({ c with map1 } : LruCache K V).maybeSwap trivially_destructable ∧
        d.Inv hash lglen ∧ d.capacity = c.capacity ∧
        ((d.map1.toFun = added c.map1.toFun key value ∧ d.map2.toFun = c.map2.toFun ∧
            d.map1.size ≤ c.map1.size + 1) ∨
          (d.map1.toFun = (fun _ => none) ∧ d.map2.toFun = added c.map1.toFun key value ∧
            d.map1.size = 0 ∧ c.capacity ≤ c.map1.size + 1)) := by
  obtain ⟨map1, hinsert, hinv, hroomy, hfun, hsize⟩ := h.map1.insert_roomy h.roomy1 h.space key value
  have hle : map1.size ≤ c.map1.size + 1 := by
    rw [hsize]
    split_ifs
    · exact Nat.le_refl _
    · exact Nat.le_add_right _ _
  refine ⟨map1, _, hinsert, _, rfl, ?_⟩
  unfold maybeSwap
  dsimp only
  split_ifs with hfull
  · obtain ⟨hclear, hnil⟩ := @FlatRep.Inv.clearNoResize _ _ _ _ h.map2
      trivially_destructable (.inr h.roomy2.deleted_eq)
    have hzero : (c.map2.clearNoResize trivially_destructable).size = 0 := by
      rw [hclear.size_eq, hnil]
      rfl
    refine ⟨⟨hclear, hinv, clearNoResize_roomy h.roomy2, hroomy, .inr hzero, ?_⟩, rfl,
      .inr ⟨FlatRep.toFun_of_nil hnil, hfun, hzero, hfull.trans hle⟩⟩
    have hyoung := h.young
    show map1.size ≤ max c.capacity 1
    omega
  · refine ⟨⟨hinv, h.map2, hroomy, h.roomy2, .inl (Nat.lt_of_not_le hfull), h.old⟩, rfl,
      .inl ⟨hfun, rfl, hle⟩⟩

/-- A search: in the first map, in the second one, in vain. -/
theorem Inv.tryFind_cases (h : c.Inv hash lglen) (trivially_destructable : Bool) (key : K) :
    (∃ v, c.map1.toFun key = some v ∧
        c.tryFind hash trivially_destructable key = some (c, some v)) ∨
      (∃ v d, c.map1.toFun key = none ∧ c.map2.toFun key = some v ∧
        c.tryFind hash trivially_destructable key = some (d, some v) ∧
        c.insert hash trivially_destructable key v = some d) ∨
      (c.map1.toFun key = none ∧ c.map2.toFun key = none ∧
        c.tryFind hash trivially_destructable key = some (c, none)) := by
  have hfind1 := h.map1.findVal_eq key
  have hfind2 := h.map2.findVal_eq key
  cases hfirst : c.map1.toFun key with
  | some v =>
      refine .inl ⟨v, rfl, ?_⟩
      unfold tryFind
      rw [hfind1, hfirst]
      rfl
  | none =>
      cases hsecond : c.map2.toFun key with
      | some v =>
          obtain ⟨map1, new, hinsert, -⟩ := h.add trivially_destructable key v
          refine .inr (.inl ⟨v, ({ c with map1 } : LruCache K V).maybeSwap trivially_destructable, rfl,
            rfl, ?_, ?_⟩)
          · unfold tryFind
            rw [hfind1, hfind2, hfirst, hsecond]
            simp only [Option.bind_eq_bind, Option.bind_some, hinsert]
          · unfold insert
            rw [hinsert]
            rfl
      | none =>
          refine .inr (.inr ⟨rfl, rfl, ?_⟩)
          unfold tryFind
          rw [hfind1, hfind2, hfirst, hsecond]
          rfl

theorem Inv.insert_eq (h : c.Inv hash lglen) (trivially_destructable : Bool) (key : K) (value : V) :
    ∃ d, c.insert hash trivially_destructable key value = some d ∧ d.Inv hash lglen ∧
      d.capacity = c.capacity ∧
      ((d.map1.toFun = added c.map1.toFun key value ∧ d.map2.toFun = c.map2.toFun ∧
          d.map1.size ≤ c.map1.size + 1) ∨
        (d.map1.toFun = (fun _ => none) ∧ d.map2.toFun = added c.map1.toFun key value ∧
          d.map1.size = 0 ∧ c.capacity ≤ c.map1.size + 1)) := by
  obtain ⟨map1, new, hinsert, d, rfl, hd⟩ :=
    h.add trivially_destructable key value
  refine ⟨_, ?_, hd⟩
  unfold insert
  rw [hinsert]
  rfl

theorem step_tryFind : c.step hash trivially_destructable (.tryFind key) =
    (c.tryFind hash trivially_destructable key).map Prod.fst := rfl

theorem Inv.step_eq (h : c.Inv hash lglen) (trivially_destructable : Bool) (op : LruOp K V) :
    ∃ d, c.step hash trivially_destructable op = some d ∧ d.Inv hash lglen ∧
      d.capacity = c.capacity := by
  cases op with
  | tryFind key =>
      rw [step_tryFind]
      rcases h.tryFind_cases trivially_destructable key with
        ⟨v, -, hfind⟩ | ⟨v, d, -, -, hfind, hinsert⟩ | ⟨-, -, hfind⟩
      · exact ⟨c, by rw [hfind]; rfl, h, rfl⟩
      · obtain ⟨d', hd', hinv, hcapacity, -⟩ :=
          h.insert_eq trivially_destructable key v
        obtain rfl : d' = d := Option.some.inj (hd'.symm.trans hinsert)
        exact ⟨d', by rw [hfind]; rfl, hinv, hcapacity⟩
      · exact ⟨c, by rw [hfind]; rfl, h, rfl⟩
  | insert key value =>
      obtain ⟨d, hd, hinv, hcapacity, -⟩ := h.insert_eq trivially_destructable key value
      exact ⟨d, hd, hinv, hcapacity⟩

theorem Inv.run (h : c.Inv hash lglen) (trivially_destructable : Bool) (ops : List (LruOp K V)) :
    ∃ d, ops.foldlM (LruCache.step hash trivially_destructable) c = some d ∧ d.Inv hash lglen ∧
      d.capacity = c.capacity := by
  induction ops generalizing c with
  | nil => exact ⟨c, rfl, h, rfl⟩
  | cons op ops ih =>
      obtain ⟨d, hd, hinv, hcapacity⟩ := h.step_eq trivially_destructable op
      obtain ⟨e, he, hinv', hcapacity'⟩ := ih hinv
      refine ⟨e, ?_, hinv', hcapacity'.trans hcapacity⟩
      rw [List.foldlM_cons, hd]
      exact he

/-! ## How long an entry stays -/

/-- The key is found in at least so many more calls. -/
def Keeps (key : K) (m : Nat) (c : LruCache K V) : Prop :=
  m < c.capacity ∧
    (c.map1.toFun key ≠ none ∨ (c.map2.toFun key ≠ none ∧ c.map1.size + m < c.capacity))

theorem added_ne_none {m : K → Option V} {key key' : K} (h : m key' ≠ none) (value : V) :
    added m key value key' ≠ none := by
  obtain ⟨w, hw⟩ := Option.ne_none_iff_exists'.mp h
  rw [added_eq_some hw]
  exact Option.some_ne_none w

theorem Keeps.insert {m : Nat} {key' : K} (hinv : c.Inv hash lglen) (h : Keeps key (m + 1) c)
    (hinsert : c.insert hash trivially_destructable key' value = some d) : Keeps key m d := by
  obtain ⟨hm, hkey⟩ := h
  obtain ⟨d', hd', -, hcapacity, ⟨hfirst, hsecond, hsize⟩ | ⟨hfirst, hsecond, hsize, hfull⟩⟩ :=
    hinv.insert_eq trivially_destructable key' value
  · obtain rfl : d' = d := Option.some.inj (hd'.symm.trans hinsert)
    refine ⟨by omega, ?_⟩
    rcases hkey with hkey | ⟨hkey, hleft⟩
    · rw [hfirst]
      exact .inl (added_ne_none hkey value)
    · rw [hsecond]
      exact .inr ⟨hkey, by omega⟩
  · obtain rfl : d' = d := Option.some.inj (hd'.symm.trans hinsert)
    refine ⟨by omega, ?_⟩
    rcases hkey with hkey | ⟨hkey, hleft⟩
    · rw [hsecond]
      exact .inr ⟨added_ne_none hkey value, by omega⟩
    · omega

theorem Keeps.step {m : Nat} {op : LruOp K V} (hinv : c.Inv hash lglen) (h : Keeps key (m + 1) c)
    (hstep : c.step hash trivially_destructable op = some d) : Keeps key m d := by
  have hless : Keeps key m c := by
    obtain ⟨hm, hkey⟩ := h
    refine ⟨by omega, ?_⟩
    rcases hkey with hkey | ⟨hkey, hleft⟩
    · exact .inl hkey
    · exact .inr ⟨hkey, by omega⟩
  cases op with
  | insert key' value => exact h.insert hinv hstep
  | tryFind key' =>
      rw [step_tryFind] at hstep
      rcases hinv.tryFind_cases trivially_destructable key' with
        ⟨v, -, hfind⟩ | ⟨v, d', -, -, hfind, hinsert⟩ | ⟨-, -, hfind⟩
      · rw [hfind] at hstep
        obtain rfl : c = d := Option.some.inj hstep
        exact hless
      · rw [hfind] at hstep
        obtain rfl : d' = d := Option.some.inj hstep
        exact h.insert hinv hinsert
      · rw [hfind] at hstep
        obtain rfl : c = d := Option.some.inj hstep
        exact hless

theorem Keeps.run {ops : List (LruOp K V)} {m : Nat} (hinv : c.Inv hash lglen)
    (h : Keeps key (m + ops.length) c)
    (hrun : ops.foldlM (LruCache.step hash trivially_destructable) c = some d) : Keeps key m d := by
  induction ops generalizing c with
  | nil =>
      obtain rfl : c = d := Option.some.inj hrun
      exact h
  | cons op ops ih =>
      rw [List.foldlM_cons] at hrun
      obtain ⟨e, he, hrest⟩ := Option.bind_eq_some_iff.mp hrun
      obtain ⟨e', he', hinv', -⟩ := hinv.step_eq trivially_destructable op
      obtain rfl : e' = e := Option.some.inj (he'.symm.trans he)
      exact ih hinv' (Keeps.step hinv h he) hrest

theorem Keeps.found {m : Nat} (hinv : c.Inv hash lglen) (h : Keeps key m c) :
    ∃ v d, c.tryFind hash trivially_destructable key = some (d, some v) := by
  rcases hinv.tryFind_cases trivially_destructable key with
    ⟨v, -, hfind⟩ | ⟨v, d, -, -, hfind, -⟩ | ⟨hfirst, hsecond, -⟩
  · exact ⟨v, c, hfind⟩
  · exact ⟨v, d, hfind⟩
  · rcases h.2 with hkey | ⟨hkey, -⟩
    · exact absurd hfirst hkey
    · exact absurd hsecond hkey

/-- An entry that is inserted stays for as many calls as the cache has capacity. -/
theorem keeps_of_insert {m : Nat} (hinv : c.Inv hash lglen) (hm : m < c.capacity)
    (hinsert : c.insert hash trivially_destructable key value = some d) : Keeps key m d := by
  obtain ⟨d', hd', -, hcapacity, ⟨hfirst, -, -⟩ | ⟨-, hsecond, hsize, -⟩⟩ :=
    hinv.insert_eq trivially_destructable key value
  · obtain rfl : d' = d := Option.some.inj (hd'.symm.trans hinsert)
    refine ⟨by omega, .inl ?_⟩
    rw [hfirst, added_self]
    exact Option.some_ne_none _
  · obtain rfl : d' = d := Option.some.inj (hd'.symm.trans hinsert)
    refine ⟨by omega, .inr ⟨?_, by omega⟩⟩
    rw [hsecond, added_self]
    exact Option.some_ne_none _

theorem keeps_of_tryFind {m : Nat} (hinv : c.Inv hash lglen) (hm : m < c.capacity)
    (hfind : c.tryFind hash trivially_destructable key = some (d, some value)) : Keeps key m d := by
  rcases hinv.tryFind_cases trivially_destructable key with
    ⟨v, hfirst, hfind'⟩ | ⟨v, d', -, -, hfind', hinsert⟩ | ⟨-, -, hfind'⟩
  · rw [hfind'] at hfind
    obtain ⟨rfl, -⟩ := Prod.mk.inj (Option.some.inj hfind)
    refine ⟨hm, .inl ?_⟩
    rw [hfirst]
    exact Option.some_ne_none v
  · rw [hfind'] at hfind
    obtain ⟨rfl, -⟩ := Prod.mk.inj (Option.some.inj hfind)
    exact keeps_of_insert hinv hm hinsert
  · rw [hfind'] at hfind
    cases (Prod.mk.inj (Option.some.inj hfind)).2

/-! ## Where the values come from -/

/-- Each value in the maps was inserted. -/
def Inserted (ops : List (LruOp K V)) (c : LruCache K V) : Prop :=
  ∀ key value, c.map1.toFun key = some value ∨ c.map2.toFun key = some value →
    .insert key value ∈ ops

theorem added_eq_some_cases {m : K → Option V} {key' : K} {w : V}
    (h : added m key value key' = some w) : m key' = some w ∨ (key' = key ∧ w = value) := by
  by_cases hkey : key' = key
  · subst hkey
    rw [added_self] at h
    cases hm : m key' with
    | none =>
        rw [hm] at h
        exact .inr ⟨rfl, (Option.some.inj h).symm⟩
    | some x =>
        rw [hm] at h
        exact .inl h
  · rw [added_of_ne hkey] at h
    exact .inl h

theorem Inserted.mono {ops ops' : List (LruOp K V)} (h : Inserted ops c) (hsubset : ops ⊆ ops') :
    Inserted ops' c := fun key value hvalue => hsubset (h key value hvalue)

theorem Inserted.insert {ops : List (LruOp K V)} (hinv : c.Inv hash lglen) (h : Inserted ops c)
    (hmem : .insert key value ∈ ops)
    (hinsert : c.insert hash trivially_destructable key value = some d) : Inserted ops d := by
  have hadded : ∀ key' w, added c.map1.toFun key value key' = some w → .insert key' w ∈ ops := by
    intro key' w hw
    rcases added_eq_some_cases hw with hold | ⟨rfl, rfl⟩
    · exact h key' w (.inl hold)
    · exact hmem
  obtain ⟨d', hd', -, -, ⟨hfirst, hsecond, -⟩ | ⟨hfirst, hsecond, -⟩⟩ :=
    hinv.insert_eq trivially_destructable key value
  · obtain rfl : d' = d := Option.some.inj (hd'.symm.trans hinsert)
    rintro key' w (hw | hw)
    · rw [hfirst] at hw
      exact hadded key' w hw
    · rw [hsecond] at hw
      exact h key' w (.inr hw)
  · obtain rfl : d' = d := Option.some.inj (hd'.symm.trans hinsert)
    rintro key' w (hw | hw)
    · rw [hfirst] at hw
      cases hw
    · rw [hsecond] at hw
      exact hadded key' w hw

theorem Inserted.step {ops : List (LruOp K V)} {op : LruOp K V} (hinv : c.Inv hash lglen)
    (h : Inserted ops c) (hmem : op ∈ ops)
    (hstep : c.step hash trivially_destructable op = some d) : Inserted ops d := by
  cases op with
  | insert key value => exact h.insert hinv hmem hstep
  | tryFind key =>
      rw [step_tryFind] at hstep
      rcases hinv.tryFind_cases trivially_destructable key with
        ⟨v, -, hfind⟩ | ⟨v, d', -, hsecond, hfind, hinsert⟩ | ⟨-, -, hfind⟩
      · rw [hfind] at hstep
        obtain rfl : c = d := Option.some.inj hstep
        exact h
      · rw [hfind] at hstep
        obtain rfl : d' = d := Option.some.inj hstep
        exact h.insert hinv (h key v (.inr hsecond)) hinsert
      · rw [hfind] at hstep
        obtain rfl : c = d := Option.some.inj hstep
        exact h

theorem Inserted.run {ops all : List (LruOp K V)} (hinv : c.Inv hash lglen) (h : Inserted all c)
    (hsubset : ops ⊆ all)
    (hrun : ops.foldlM (LruCache.step hash trivially_destructable) c = some d) : Inserted all d := by
  induction ops generalizing c with
  | nil =>
      obtain rfl : c = d := Option.some.inj hrun
      exact h
  | cons op ops ih =>
      rw [List.foldlM_cons] at hrun
      obtain ⟨e, he, hrest⟩ := Option.bind_eq_some_iff.mp hrun
      obtain ⟨e', he', hinv', -⟩ := hinv.step_eq trivially_destructable op
      obtain rfl : e' = e := Option.some.inj (he'.symm.trans he)
      exact ih hinv' (h.step hinv (hsubset List.mem_cons_self) he)
        (fun op hop => hsubset (List.mem_cons_of_mem _ hop)) hrest

theorem Inserted.found {ops : List (LruOp K V)} (hinv : c.Inv hash lglen) (h : Inserted ops c)
    (hfind : c.tryFind hash trivially_destructable key = some (d, some value)) :
    .insert key value ∈ ops := by
  rcases hinv.tryFind_cases trivially_destructable key with
    ⟨v, hfirst, hfind'⟩ | ⟨v, d', -, hsecond, hfind', -⟩ | ⟨-, -, hfind'⟩
  · rw [hfind'] at hfind
    obtain rfl : v = value := Option.some.inj (Prod.mk.inj (Option.some.inj hfind)).2
    exact h key v (.inl hfirst)
  · rw [hfind'] at hfind
    obtain rfl : v = value := Option.some.inj (Prod.mk.inj (Option.some.inj hfind)).2
    exact h key v (.inr hsecond)
  · rw [hfind'] at hfind
    cases (Prod.mk.inj (Option.some.inj hfind)).2

/-! ## Runs of a new cache -/

omit [DecidableEq K] in
theorem copyEntries_blank (t : FlatRep K V) (n : Nat) :
    t.copyEntries hash (List.replicate n .empty) = some t := by
  induction n with
  | zero => rfl
  | succ n ih => exact ih

/-- Both maps have arrays for half as many entries again as the capacity. -/
theorem new_eq {capacity : Nat} (h : new K V hash capacity = some c) :
    ∃ lg, FlatRep.lgFor (capacity * 3 / 2) = some lg ∧
      c = ⟨FlatRep.blank K V lg, FlatRep.blank K V lg, capacity⟩ := by
  have hreserve : (FlatRep.blank K V 0).reserve hash (capacity * 3 / 2) =
      (FlatRep.lgFor (capacity * 3 / 2)).map (FlatRep.blank K V) := by
    have hmax : max (capacity * 3 / 2) (FlatRep.blank K V 0).size = capacity * 3 / 2 :=
      Nat.max_eq_left (Nat.zero_le _)
    rw [FlatRep.reserve, hmax, FlatRep.resize, FlatRep.init]
    cases FlatRep.lgFor (capacity * 3 / 2) with
    | none => rfl
    | some lg => exact copyEntries_blank _ _
  have hone : FlatRep.init K V 1 = some (FlatRep.blank K V 0) := by
    rw [FlatRep.init, show FlatRep.lgFor 1 = some 0 by decide]
    rfl
  unfold new at h
  rw [hone] at h
  simp only [Option.bind_eq_bind, Option.bind_some, hreserve] at h
  cases hlg : FlatRep.lgFor (capacity * 3 / 2) with
  | none =>
      rw [hlg] at h
      cases h
  | some lg =>
      rw [hlg] at h
      exact ⟨lg, rfl, (Option.some.inj h).symm⟩

theorem new_inv {capacity : Nat} (h : new K V hash capacity = some c) :
    c.Inv hash c.map1.lglen ∧ c.capacity = capacity ∧ Inserted [] c := by
  obtain ⟨lg, hlg, rfl⟩ := new_eq h
  have hroomy : (FlatRep.blank K V lg).Roomy lg (capacity * 3 / 2) := by
    refine ⟨rfl, rfl, ?_, ?_⟩
    · rw [FlatRep.blank_capacity]
      rfl
    · rw [FlatRep.blank_capacity]
      exact FlatRep.lgFor_spec hlg
  refine ⟨⟨FlatRep.blank_inv lg, FlatRep.blank_inv lg, hroomy, hroomy, .inr rfl, Nat.zero_le _⟩, rfl,
    fun key value hvalue => ?_⟩
  have hnone := congrFun (FlatRep.toFun_of_nil (@FlatRep.blank_entries K V lg)) key
  rcases hvalue with hvalue | hvalue
  · exact absurd (hnone.symm.trans hvalue) (Option.some_ne_none value).symm
  · exact absurd (hnone.symm.trans hvalue) (Option.some_ne_none value).symm

/-- Every run of a new cache goes on, in the arrays that the constructor has made, with less than
twice as many entries as its capacity, and finds for a key only what was inserted for it. -/
theorem run_sound {capacity : Nat} (hnew : new K V hash capacity = some c) (ops : List (LruOp K V)) :
    ∃ d, ops.foldlM (LruCache.step hash trivially_destructable) c = some d ∧
      d.map1.lglen = c.map1.lglen ∧ d.map2.lglen = c.map1.lglen ∧
      d.map1.size + d.map2.size ≤ max 1 (2 * capacity - 1) ∧
      ∀ key value e, d.tryFind hash trivially_destructable key = some (e, some value) →
        .insert key value ∈ ops := by
  obtain ⟨hinv, hcapacity, hinserted⟩ := new_inv hnew
  obtain ⟨d, hd, hinv', hcapacity'⟩ := hinv.run trivially_destructable ops
  have hyoung := hinv'.young
  have hold := hinv'.old
  refine ⟨d, hd, hinv'.roomy1.lglen_eq, hinv'.roomy2.lglen_eq, by omega, fun key value e hfind => ?_⟩
  exact ((hinserted.mono (List.nil_subset ops)).run hinv (List.Subset.refl ops) hd).found hinv' hfind

theorem run_sound_two : ∃ c d : LruCache Nat Nat, new Nat Nat id 2 = some c ∧
    [LruOp.insert 1 5, .insert 2 6, .tryFind 1, .insert 3 7].foldlM (LruCache.step id true) c = some d ∧
      d.map1.lglen = c.map1.lglen ∧ ∃ e, d.tryFind id true 1 = some (e, some 5) ∧
        LruOp.insert 1 5 ∈ [LruOp.insert 1 5, .insert 2 6, .tryFind 1, .insert 3 7] := by
  have hrun : ((new Nat Nat id 2).bind fun c =>
      ([.insert 1 5, .insert 2 6, .tryFind 1, .insert 3 7].foldlM (LruCache.step id true) c).bind
        fun d => (d.tryFind id true 1).map Prod.snd) = some (some 5) := by
    decide +kernel
  obtain ⟨c, hc, hrun⟩ := Option.bind_eq_some_iff.mp hrun
  obtain ⟨d, hd, hrun⟩ := Option.bind_eq_some_iff.mp hrun
  obtain ⟨⟨e, found⟩, he, rfl⟩ := Option.map_eq_some_iff.mp hrun
  obtain ⟨d', hd', hlglen, -, -, hall⟩ := run_sound hc
    [.insert 1 5, .insert 2 6, .tryFind 1, .insert 3 7]
  obtain rfl : d' = d := Option.some.inj (hd'.symm.trans hd)
  exact ⟨c, d', hc, hd, hlglen, e, he, hall 1 5 e he⟩

/-- What was inserted or found is found after less calls than the cache has capacity, whatever
these are. -/
theorem found_again {capacity : Nat} {ops : List (LruOp K V)} {e : LruCache K V}
    (hnew : new K V hash capacity = some c) (before : List (LruOp K V))
    {d' : LruCache K V}
    (hbefore : before.foldlM (LruCache.step hash trivially_destructable) c = some d)
    (huse : (∃ value, d.insert hash trivially_destructable key value = some d') ∨
      ∃ value, d.tryFind hash trivially_destructable key = some (d', some value))
    (hrun : ops.foldlM (LruCache.step hash trivially_destructable) d' = some e)
    (hfew : ops.length < capacity) :
    ∃ value f, e.tryFind hash trivially_destructable key = some (f, some value) := by
  obtain ⟨hinv, hcapacity, -⟩ := new_inv hnew
  obtain ⟨x, hx, hinvd, hcapacityd⟩ := hinv.run trivially_destructable before
  obtain rfl : x = d := Option.some.inj (hx.symm.trans hbefore)
  have hm : 0 + ops.length < x.capacity := by omega
  obtain ⟨hkeeps, hinv'⟩ : Keeps key (0 + ops.length) d' ∧ d'.Inv hash c.map1.lglen := by
    rcases huse with ⟨value, hinsert⟩ | ⟨value, hfind⟩
    · obtain ⟨y, hy, hinvy, -⟩ := hinvd.insert_eq trivially_destructable key value
      obtain rfl : y = d' := Option.some.inj (hy.symm.trans hinsert)
      exact ⟨keeps_of_insert hinvd hm hinsert, hinvy⟩
    · obtain ⟨y, hy, hinvy, -⟩ := hinvd.step_eq trivially_destructable (.tryFind key)
      rw [step_tryFind, hfind] at hy
      obtain rfl : d' = y := Option.some.inj hy
      exact ⟨keeps_of_tryFind hinvd hm hfind, hinvy⟩
  obtain ⟨z, hz, hinve, -⟩ := hinv'.run trivially_destructable ops
  obtain rfl : z = e := Option.some.inj (hz.symm.trans hrun)
  exact (Keeps.run hinv' hkeeps hrun).found hinve

theorem found_again_two : ∃ c d d' e : LruCache Nat Nat, new Nat Nat id 2 = some c ∧
    [LruOp.insert 1 5].foldlM (LruCache.step id true) c = some d ∧
      d.insert id true 2 6 = some d' ∧
      [LruOp.insert 3 7].foldlM (LruCache.step id true) d' = some e ∧
      ∃ value f, e.tryFind id true 2 = some (f, some value) := by
  have hrun : ((new Nat Nat id 2).bind fun c =>
      ([.insert 1 5].foldlM (LruCache.step id true) c).bind fun d =>
        (d.insert id true 2 6).bind fun d' =>
          ([.insert 3 7].foldlM (LruCache.step id true) d').map fun _ => true) = some true := by
    decide +kernel
  obtain ⟨c, hc, hrun⟩ := Option.bind_eq_some_iff.mp hrun
  obtain ⟨d, hd, hrun⟩ := Option.bind_eq_some_iff.mp hrun
  obtain ⟨d', hd', hrun⟩ := Option.bind_eq_some_iff.mp hrun
  obtain ⟨e, he, -⟩ := Option.map_eq_some_iff.mp hrun
  exact ⟨c, d, d', e, hc, hd, hd', he, found_again hc _ hd (.inl ⟨6, hd'⟩) he (by decide)⟩

end LruCache

end Jumanpp.Util
