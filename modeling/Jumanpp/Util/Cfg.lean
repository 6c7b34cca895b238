import Jumanpp.Util.SerialFormat

/-!
# Options

An option remembers whether it still has its default.  A saved option is a number for that and the
value behind it.  The members of a struct may be options; they are saved and loaded like other fields.
-/

namespace Jumanpp.Util.Serialization

open Jumanpp.Util Jumanpp.Lib

structure Cfg (α : Type) where
  isDefault : Bool
  value : α

namespace Cfg

variable {α : Type}

/-- `Cfg(const T& v)`. -/
def ofDefault (v : α) : Cfg α := ⟨true, v⟩

def defined (o : Cfg α) : Bool := !o.isDefault

def mergeWith (o c : Cfg α) : Cfg α := if !c.isDefault then ⟨false, c.value⟩ else o

theorem defined_mergeWith_ofDefault (v : α) (c : Cfg α) :
    ((ofDefault v).mergeWith c).defined = c.defined := by
  unfold mergeWith defined ofDefault
  cases c.isDefault <;> rfl

theorem value_mergeWith_of_defined {c : Cfg α} (h : c.defined = true) (o : Cfg α) :
    (o.mergeWith c).value = c.value := by
  unfold mergeWith
  rw [if_pos (show (!c.isDefault) = true from h)]

def doSerializeSave {t : SerialType} (o : Cfg t.Value) : List UInt8 :=
  writeVarint (if o.isDefault then 0 else 1) ++ t.doSerializeSave o.value

def doSerializeLoad (limits : VectorLimits) {t : SerialType} (o : Cfg t.Value) (l : Loader) :
    Except Fault (Bool × Cfg t.Value × Loader) :=
  match readVarint64 l.rest with
  | (none, rest) => .ok (false, o, { l with rest })
  | (some v, rest) => do
      let (ok, value, l) ← t.doSerializeLoad limits o.value { l with rest }
      if !ok then return (false, { o with value }, l)
      return (true, ⟨v == 0, value⟩, l)

end Cfg

/-- A member of a struct. -/
inductive Member
  | plain (t : SerialType)
  | cfg (t : SerialType)

namespace Member

abbrev Value : Member → Type
  | .plain t => t.Value
  | .cfg t => Cfg t.Value

def doSerializeSave : (m : Member) → m.Value → List UInt8
  | .plain t, o => t.doSerializeSave o
  | .cfg _, o => o.doSerializeSave

def doSerializeLoad (limits : VectorLimits) :
    (m : Member) → m.Value → Loader → Except Fault (Bool × m.Value × Loader)
  | .plain t, o, l => t.doSerializeLoad limits o l
  | .cfg _, o, l => o.doSerializeLoad limits l

def Fits : (m : Member) → m.Value → Prop
  | .plain t, o => t.Fits o
  | .cfg t, o => t.Fits o.value

def Fresh : (m : Member) → m.Value → Prop
  | .plain t, o => t.Fresh o
  | .cfg t, o => t.Fresh o.value

end Member

/-- The members that a `Serialize` function names, in its order. -/
abbrev Members := List Member

namespace Members

abbrev Value : Members → Type
  | [] => Unit
  | m :: ms => m.Value × Value ms

def serializeSave : (ms : Members) → ms.Value → List UInt8
  | [], _ => []
  | m :: ms, (o, os) => m.doSerializeSave o ++ serializeSave ms os

/-- Each `a & member` replaces the flag. -/
def serializeLoad (limits : VectorLimits) :
    (ms : Members) → ms.Value → Loader → Except Fault (ms.Value × Loader)
  | [], o, l => .ok (o, l)
  | m :: ms, (o, os), l => do
      let (ok, o, l) ← m.doSerializeLoad limits o l
      let (os, l) ← serializeLoad limits ms os { l with status := ok }
      return ((o, os), l)

/-- `Loader{data}.load(&o)`. -/
def load (limits : VectorLimits) (ms : Members) (o : ms.Value) (data : List UInt8) :
    Except Fault (Bool × ms.Value) :=
  if data = [] then .ok (false, o)
  else do
    let (o, l) ← ms.serializeLoad limits o ⟨true, data⟩
    return (l.status && l.rest.isEmpty, o)

def Fits : (ms : Members) → ms.Value → Prop
  | [], _ => True
  | m :: ms, (o, os) => m.Fits o ∧ Fits ms os

def Fresh : (ms : Members) → ms.Value → Prop
  | [], _ => True
  | m :: ms, (o, os) => m.Fresh o ∧ Fresh ms os

end Members

/-! ## What is saved is loaded -/

section Loads

variable {limits : VectorLimits} {rest : List UInt8}

theorem SerialType.load_save_iff {t : SerialType} {v o : t.Value} (hfresh : t.Fresh o)
    {r : Bool × t.Value × Loader} :
    t.doSerializeLoad limits o ⟨true, t.doSerializeSave v ++ rest⟩ = .ok r ↔
      t.Fits v ∧ r = (true, v, ⟨true, rest⟩) := by
  have hdec := t.decodes_save v rest
  constructor
  · intro h
    obtain ⟨ok, out, l⟩ := r
    obtain ⟨rfl, rfl, hfits, hloaded⟩ := SerialType.load_of_decodes hdec h
    rw [hloaded.eq hfresh]
    exact ⟨hfits, rfl⟩
  · rintro ⟨hfits, rfl⟩
    exact SerialType.load_of_fits hdec hfits hfresh

theorem Cfg.load_save_iff {t : SerialType} {v o : Cfg t.Value} (hfresh : t.Fresh o.value)
    {r : Bool × Cfg t.Value × Loader} :
    o.doSerializeLoad limits ⟨true, v.doSerializeSave ++ rest⟩ = .ok r ↔
      t.Fits v.value ∧ r = (true, v, ⟨true, rest⟩) := by
  have hread : readVarint64 (v.doSerializeSave ++ rest) =
      (some (if v.isDefault then 0 else 1), t.doSerializeSave v.value ++ rest) := by
    rw [doSerializeSave, List.append_assoc, readVarint64_writeVarint]
  have hflag : ((if v.isDefault then 0 else 1 : UInt64) == 0) = v.isDefault := by
    cases v.isDefault <;> rfl
  have hload : ∀ r', t.doSerializeLoad limits o.value
      ⟨true, t.doSerializeSave v.value ++ rest⟩ = .ok r' ↔
        t.Fits v.value ∧ r' = (true, v.value, ⟨true, rest⟩) :=
    fun _ => SerialType.load_save_iff hfresh
  unfold doSerializeLoad
  simp only [hread]
  constructor
  · intro h
    obtain ⟨r', hr', hrest⟩ := bind_ok h
    obtain ⟨hfits, rfl⟩ := (hload r').mp hr'
    simp only [Bool.not_true, Bool.false_eq_true, if_false, hflag] at hrest
    cases hrest
    exact ⟨hfits, rfl⟩
  · rintro ⟨hfits, rfl⟩
    rw [(hload _).mpr ⟨hfits, rfl⟩]
    simp only [bind, Except.bind, Bool.not_true, Bool.false_eq_true, if_false, hflag]
    rfl

theorem Member.load_save_iff : ∀ {m : Member} {v o : m.Value}, m.Fresh o →
    ∀ {r : Bool × m.Value × Loader},
      m.doSerializeLoad limits o ⟨true, m.doSerializeSave v ++ rest⟩ = .ok r ↔
        m.Fits v ∧ r = (true, v, ⟨true, rest⟩)
  | .plain _, _, _, hfresh, _ => SerialType.load_save_iff hfresh
  | .cfg _, _, _, hfresh, _ => Cfg.load_save_iff hfresh

/-- By induction on the members. -/
theorem Members.serializeLoad_save_iff : ∀ {ms : Members} {v o : ms.Value}, ms.Fresh o →
    ∀ {r : ms.Value × Loader},
      ms.serializeLoad limits o ⟨true, ms.serializeSave v ++ rest⟩ = .ok r ↔
        ms.Fits v ∧ r = (v, ⟨true, rest⟩)
  | [], _, _, _, r => by
    show Except.ok ((), (⟨true, rest⟩ : Loader)) = .ok r ↔ True ∧ r = ((), ⟨true, rest⟩)
    rw [Except.ok.injEq, true_and, eq_comm]
  | m :: ms, (v, vs), (o, os), hfresh, r => by
    have hhead : ∀ r', m.doSerializeLoad limits o
        ⟨true, m.doSerializeSave v ++ (serializeSave ms vs ++ rest)⟩ = .ok r' ↔
          m.Fits v ∧ r' = (true, v, ⟨true, serializeSave ms vs ++ rest⟩) :=
      fun _ => Member.load_save_iff hfresh.1
    have htail : ∀ r', serializeLoad limits ms os ⟨true, serializeSave ms vs ++ rest⟩ = .ok r' ↔
        Fits ms vs ∧ r' = (vs, ⟨true, rest⟩) :=
      fun _ => Members.serializeLoad_save_iff hfresh.2
    rw [Members.serializeSave, List.append_assoc, Members.serializeLoad]
    constructor
    · intro h
      obtain ⟨r1, hr1, h⟩ := bind_ok h
      obtain ⟨hfits, rfl⟩ := (hhead r1).mp hr1
      obtain ⟨r2, hr2, h⟩ := bind_ok h
      obtain ⟨hfitss, rfl⟩ := (htail r2).mp hr2
      cases h
      exact ⟨⟨hfits, hfitss⟩, rfl⟩
    · rintro ⟨⟨hfits, hfitss⟩, rfl⟩
      rw [(hhead _).mpr ⟨hfits, rfl⟩]
      show (serializeLoad limits ms os ⟨true, _⟩ >>= _) = _
      rw [(htail _).mpr ⟨hfitss, rfl⟩]
      rfl

/-- Members that write a byte are restored, if their vectors fit. -/
theorem Members.load_save_iff {ms : Members} {v o : ms.Value} (hfresh : ms.Fresh o)
    (hdata : ms.serializeSave v ≠ []) {out : ms.Value} :
    ms.load limits o (ms.serializeSave v) = .ok (true, out) ↔ ms.Fits v ∧ out = v := by
  have hload : ∀ r, ms.serializeLoad limits o ⟨true, ms.serializeSave v ++ []⟩ = .ok r ↔
      ms.Fits v ∧ r = (v, ⟨true, []⟩) :=
    fun _ => Members.serializeLoad_save_iff hfresh
  simp only [List.append_nil] at hload
  rw [load, if_neg hdata]
  constructor
  · intro h
    obtain ⟨r, hr, h⟩ := bind_ok h
    obtain ⟨hfits, rfl⟩ := (hload r).mp hr
    cases h
    exact ⟨hfits, rfl⟩
  · rintro ⟨hfits, rfl⟩
    rw [(hload _).mpr ⟨hfits, rfl⟩]
    rfl

end Loads

end Jumanpp.Util.Serialization
