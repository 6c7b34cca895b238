import Jumanpp.Util.Serialization
import Jumanpp.Lib.Loops

/-!
# The format of serialized values

What it means that bytes are a value, without a loader: field after field, each from where the one
before it ended.  The saver writes the format, and a loader whose flag is up reads it, as long as
the counter of its loops holds the sizes of the vectors.
-/

namespace Jumanpp.Util.Serialization

open Jumanpp.Util Jumanpp.Lib

/-- The values one after the other. -/
def DecodesAll {α : Type} (decodes : List UInt8 → α → List UInt8 → Prop) :
    List UInt8 → List α → List UInt8 → Prop
  | bytes, [], rest => bytes = rest
  | bytes, v :: vs, rest => ∃ mid, decodes bytes v mid ∧ DecodesAll decodes mid vs rest

mutual

/-- The bytes are `v` followed by `rest`. -/
def SerialType.Decodes : (t : SerialType) → List UInt8 → t.Value → List UInt8 → Prop
  | .scalar s, bytes, v, rest => s.read bytes = (some v, rest)
  | .vector t, bytes, v, rest =>
      ∃ mid, readVarint64 bytes = (some v.size, mid) ∧ DecodesAll t.Decodes mid v.elems rest
  | .struct fields, bytes, v, rest => fields.Decodes bytes v rest

def SerialFields.Decodes : (fields : SerialFields) → List UInt8 → fields.Value → List UInt8 → Prop
  | .done, bytes, _, rest => bytes = rest
  | .field t fields, bytes, (v, vs), rest =>
      ∃ mid, t.Decodes bytes v mid ∧ fields.Decodes mid vs rest

end

mutual

/-- The sizes of the vectors are values of `int`. -/
def SerialType.Fits : (t : SerialType) → t.Value → Prop
  | .scalar _, _ => True
  | .vector t, v => v.elems.length < 2 ^ 31 ∧ ∀ child ∈ v.elems, t.Fits child
  | .struct fields, v => fields.Fits v

def SerialFields.Fits : (fields : SerialFields) → fields.Value → Prop
  | .done, _ => True
  | .field t fields, (v, vs) => t.Fits v ∧ fields.Fits vs

end

mutual

/-- The vectors of the object that is loaded into are empty. -/
def SerialType.Fresh : (t : SerialType) → t.Value → Prop
  | .scalar _, _ => True
  | .vector _, o => o.elems = []
  | .struct fields, o => fields.Fresh o

def SerialFields.Fresh : (fields : SerialFields) → fields.Value → Prop
  | .done, _ => True
  | .field t fields, (o, os) => t.Fresh o ∧ fields.Fresh os

end

mutual

/-- `out` is `o` after `v` was loaded into it: a vector keeps the elements that it had. -/
def SerialType.Loaded : (t : SerialType) → t.Value → t.Value → t.Value → Prop
  | .scalar _, _, v, out => out = v
  | .vector _, o, v, out => out.elems = o.elems ++ v.elems
  | .struct fields, o, v, out => fields.Loaded o v out

def SerialFields.Loaded :
    (fields : SerialFields) → fields.Value → fields.Value → fields.Value → Prop
  | .done, _, _, _ => True
  | .field t fields, (o, os), (v, vs), (out, outs) => t.Loaded o v out ∧ fields.Loaded os vs outs

end

mutual

/-- Some byte is written for a value of the type: it is not built of structs alone. -/
def SerialType.HasData : SerialType → Prop
  | .scalar _ => True
  | .vector _ => True
  | .struct fields => fields.HasData

def SerialFields.HasData : SerialFields → Prop
  | .done => False
  | .field t fields => t.HasData ∨ fields.HasData

end

/-! ## The saver writes the format -/

theorem Scalar.readI32_saveI32 (o : Int32) (rest : List UInt8) :
    readI32 (saveI32 o ++ rest) = (some o, rest) := by
  rw [readI32, saveI32, readVarint64_writeVarint]
  simp [mapValue]

theorem Scalar.read_save (s : Scalar) (o : s.Value) (rest : List UInt8) :
    s.read (s.save o ++ rest) = (some o, rest) := by
  cases s with
  | i32 => exact readI32_saveI32 o rest
  | u32 =>
    show mapValue _ (readVarint64 (writeVarint (UInt32.toUInt64 o) ++ rest)) = _
    rw [readVarint64_writeVarint]
    simp [mapValue]
  | u64 => exact readVarint64_writeVarint o rest
  | i64 =>
    show mapValue _ (readVarint64 (writeVarint (Int64.toUInt64 o) ++ rest)) = _
    rw [readVarint64_writeVarint]
    simp [mapValue]
  | bool =>
    show mapValue _ (readI32 (saveI32 (bif o then 1 else 0) ++ rest)) = _
    rw [readI32_saveI32]
    cases o <;> rfl
  | float => exact readFixed32_writeFixed32 o rest
  | string => exact readStringPiece_writeString o rest

theorem decodesAll_flatMap {α : Type} {decodes : List UInt8 → α → List UInt8 → Prop}
    {save : α → List UInt8} (hsave : ∀ v rest, decodes (save v ++ rest) v rest) (rest : List UInt8) :
    ∀ vs : List α, DecodesAll decodes (vs.flatMap save ++ rest) vs rest
  | [] => rfl
  | v :: vs => by
    rw [List.flatMap_cons, List.append_assoc]
    exact ⟨_, hsave v _, decodesAll_flatMap hsave rest vs⟩

mutual

theorem SerialType.decodes_save : ∀ (t : SerialType) (v : t.Value) (rest : List UInt8),
    t.Decodes (t.doSerializeSave v ++ rest) v rest
  | .scalar s, v, rest => s.read_save v rest
  | .vector t, v, rest => by
    rw [SerialType.doSerializeSave, List.append_assoc]
    exact ⟨_, readVarint64_writeVarint _ _, decodesAll_flatMap t.decodes_save rest v.elems⟩
  | .struct fields, v, rest => fields.decodes_save v rest

theorem SerialFields.decodes_save : ∀ (fields : SerialFields) (v : fields.Value)
    (rest : List UInt8), fields.Decodes (fields.serializeSave v ++ rest) v rest
  | .done, _, _ => rfl
  | .field t fields, (v, vs), rest => by
    rw [SerialFields.serializeSave, List.append_assoc]
    exact ⟨_, t.decodes_save v _, fields.decodes_save vs rest⟩

end

theorem Scalar.save_ne_nil (s : Scalar) (o : s.Value) : s.save o ≠ [] := by
  cases s with
  | i32 => exact writeVarint_ne_nil _
  | u32 => exact writeVarint_ne_nil _
  | u64 => exact writeVarint_ne_nil _
  | i64 => exact writeVarint_ne_nil _
  | bool => exact writeVarint_ne_nil _
  | float => simp [save, writeFixed32]
  | string => simp [save, writeString, writeVarint_ne_nil]

mutual

theorem SerialType.save_ne_nil_iff : ∀ (t : SerialType) (v : t.Value),
    t.doSerializeSave v ≠ [] ↔ t.HasData
  | .scalar s, v => ⟨fun _ => trivial, fun _ => s.save_ne_nil v⟩
  | .vector t, v => by
    simp [SerialType.doSerializeSave, SerialType.HasData, writeVarint_ne_nil]
  | .struct fields, v => fields.save_ne_nil_iff v

theorem SerialFields.save_ne_nil_iff : ∀ (fields : SerialFields) (v : fields.Value),
    fields.serializeSave v ≠ [] ↔ fields.HasData
  | .done, _ => by simp [SerialFields.serializeSave, SerialFields.HasData]
  | .field t fields, (v, vs) => by
    rw [SerialFields.serializeSave, SerialFields.HasData, ← t.save_ne_nil_iff v,
      ← fields.save_ne_nil_iff vs, ne_eq, List.append_eq_nil_iff, not_and_or]

end

/-! ## What is loaded into a fresh object -/

mutual

theorem SerialType.Loaded.eq : ∀ {t : SerialType} {o v out : t.Value},
    t.Loaded o v out → t.Fresh o → out = v
  | .scalar _, _, _, _, h, _ => h
  | .vector _, _, _, _, h, hfresh => StdList.ext (by
    rw [SerialType.Loaded] at h
    rw [h, show _ = [] from hfresh, List.nil_append])
  | .struct _, _, _, _, h, hfresh => SerialFields.Loaded.eq h hfresh

theorem SerialFields.Loaded.eq : ∀ {fields : SerialFields} {o v out : fields.Value},
    fields.Loaded o v out → fields.Fresh o → out = v
  | .done, _, _, _, _, _ => rfl
  | .field _ _, (_, _), (_, _), (_, _), h, hfresh =>
    Prod.ext (SerialType.Loaded.eq h.1 hfresh.1) (SerialFields.Loaded.eq h.2 hfresh.2)

end

mutual

theorem SerialType.Loaded.fresh : ∀ {t : SerialType} {o v : t.Value}, t.Loaded o v v → t.Fresh o
  | .scalar _, _, _, _ => trivial
  | .vector _, _, _, h => by simpa [SerialType.Loaded, SerialType.Fresh] using h
  | .struct _, _, _, h => SerialFields.Loaded.fresh h

theorem SerialFields.Loaded.fresh : ∀ {fields : SerialFields} {o v : fields.Value},
    fields.Loaded o v v → fields.Fresh o
  | .done, _, _, _ => trivial
  | .field _ _, (_, _), (_, _), h => ⟨SerialType.Loaded.fresh h.1, SerialFields.Loaded.fresh h.2⟩

end

mutual

theorem SerialType.fresh_initial : ∀ t : SerialType, t.Fresh t.initial
  | .scalar _ => trivial
  | .vector _ => rfl
  | .struct fields => fields.fresh_initial

theorem SerialFields.fresh_initial : ∀ fields : SerialFields, fields.Fresh fields.initial
  | .done => trivial
  | .field t fields => ⟨t.fresh_initial, fields.fresh_initial⟩

end

/-! ## The loader reads the format -/

section Load

variable {α : Type} {loadChild : Loader → Except Fault (Bool × α × Loader)}
  {decodes : List UInt8 → α → List UInt8 → Prop} {fits : α → Prop}

/-- The element that is loaded after `i` others. -/
theorem loadElements_succ {left i : Nat} {o out : StdList α} {l l' : Loader} {ok : Bool}
    (h : loadElements loadChild (left + 1) i o l = .ok (ok, out, l')) :
    ∃ (hsize : o.elems.length + 1 < 2 ^ 64) (childOk : Bool) (child : α) (mid : Loader),
      loadChild l = .ok (childOk, child, mid) ∧
      (childOk = false ∧ ok = false ∧ l' = mid ∨
        childOk = true ∧ i + 1 < 2 ^ 31 ∧
          loadElements loadChild left (i + 1) (o.emplaceBack child hsize) mid
            = .ok (ok, out, l')) := by
  rw [loadElements] at h
  split at h
  · next hsize =>
    refine ⟨hsize, ?_⟩
    cases hload : loadChild l with
    | error fault => simp [hload, bind, Except.bind] at h
    | ok r =>
      obtain ⟨childOk, child, mid⟩ := r
      refine ⟨childOk, child, mid, rfl, ?_⟩
      simp only [hload, bind, Except.bind] at h
      cases childOk with
      | false =>
        simp [pure, Except.pure] at h
        exact .inl ⟨rfl, h.1, h.2.2.symm⟩
      | true =>
        simp only [Bool.not_true, Bool.false_eq_true, if_false] at h
        split at h
        · simp [throw, throwThe, MonadExceptOf.throw] at h
        · exact .inr ⟨rfl, by omega, h⟩
  · simp [throw, throwThe, MonadExceptOf.throw] at h

/-- By induction on the elements. -/
theorem loadElements_of_decodes
    (hchild : ∀ {bytes v mid ok out l}, decodes bytes v mid →
      loadChild ⟨true, bytes⟩ = .ok (ok, out, l) → ok = true ∧ l = ⟨true, mid⟩ ∧ fits v ∧ out = v)
    {rest : List UInt8} : ∀ {vs : List α} {bytes : List UInt8} {i : Nat} {o out : StdList α}
      {ok : Bool} {l : Loader}, DecodesAll decodes bytes vs rest → i < 2 ^ 31 →
      loadElements loadChild vs.length i o ⟨true, bytes⟩ = .ok (ok, out, l) →
      ok = true ∧ l = ⟨true, rest⟩ ∧ i + vs.length < 2 ^ 31 ∧ (∀ v ∈ vs, fits v) ∧
        out.elems = o.elems ++ vs
  | [], bytes, i, o, out, ok, l, hdec, hi, h => by
    cases h
    rw [show bytes = rest from hdec]
    exact ⟨rfl, rfl, hi, by simp, by simp⟩
  | v :: vs, bytes, i, o, out, ok, l, hdec, hi, h => by
    obtain ⟨mid, hv, hvs⟩ := hdec
    obtain ⟨hsize, childOk, child, at_, hload, hstep⟩ := loadElements_succ h
    obtain ⟨rfl, rfl, hfit, rfl⟩ := hchild hv hload
    rcases hstep with ⟨hf, -, -⟩ | ⟨-, hnext, htail⟩
    · cases hf
    · obtain ⟨hok, hl, hcount, hall, helems⟩ := loadElements_of_decodes hchild hvs hnext htail
      refine ⟨hok, hl, by rw [List.length_cons]; omega, ?_, ?_⟩
      · intro w hw
        rcases List.mem_cons.mp hw with rfl | hw
        · exact hfit
        · exact hall w hw
      · rw [helems, StdList.emplaceBack, List.append_assoc, List.singleton_append]

/-- Elements that fit are all loaded. -/
theorem loadElements_of_fits
    (hchild : ∀ {bytes v mid}, decodes bytes v mid → fits v →
      loadChild ⟨true, bytes⟩ = .ok (true, v, ⟨true, mid⟩))
    {rest : List UInt8} : ∀ {vs : List α} {bytes : List UInt8} {i : Nat} {o : StdList α},
      DecodesAll decodes bytes vs rest → (∀ v ∈ vs, fits v) → i + vs.length < 2 ^ 31 →
      o.elems.length + vs.length < 2 ^ 64 →
      ∃ out, loadElements loadChild vs.length i o ⟨true, bytes⟩ = .ok (true, out, ⟨true, rest⟩)
  | [], bytes, i, o, hdec, _, _, _ => ⟨o, by
    rw [show bytes = rest from hdec]
    rfl⟩
  | v :: vs, bytes, i, o, hdec, hfits, hcount, hsize => by
    obtain ⟨mid, hv, hvs⟩ := hdec
    rw [List.length_cons] at hcount hsize
    have hroom : o.elems.length + 1 < 2 ^ 64 := by omega
    obtain ⟨out, hout⟩ := loadElements_of_fits hchild (i := i + 1) (o := o.emplaceBack v hroom) hvs
      (fun w hw => hfits w (List.mem_cons_of_mem v hw)) (by omega)
      (by simp only [StdList.emplaceBack, List.length_append, List.length_singleton]; omega)
    refine ⟨out, ?_⟩
    rw [List.length_cons, loadElements, dif_pos hroom, hchild hv (hfits v (List.mem_cons_self ..))]
    simp only [bind, Except.bind, Bool.not_true, Bool.false_eq_true, if_false]
    rw [if_neg (by omega)]
    exact hout

end Load

section Inversion

variable {limits : VectorLimits}

theorem SerialType.doSerializeLoad_vector {t : SerialType} {o out : (SerialType.vector t).Value}
    {l l' : Loader} {ok : Bool}
    (h : (SerialType.vector t).doSerializeLoad limits o l = .ok (ok, out, l')) :
    (∃ rest, readVarint64 l.rest = (none, rest) ∧ ok = false ∧ l' = { l with rest }) ∨
      ∃ sz rest, readVarint64 l.rest = (some sz, rest) ∧
        loadElements (t.doSerializeLoad limits t.initial) sz.toNat 0 o { l with rest }
          = .ok (ok, out, l') := by
  rw [SerialType.doSerializeLoad] at h
  split at h
  · next rest hread =>
    cases h
    exact .inl ⟨rest, hread, rfl, rfl⟩
  · next sz rest hread =>
    split at h
    · cases h
    · exact .inr ⟨sz, rest, hread, h⟩

theorem SerialType.doSerializeLoad_struct {fields : SerialFields} {o out : fields.Value}
    {l l' : Loader} {ok : Bool}
    (h : (SerialType.struct fields).doSerializeLoad limits o l = .ok (ok, out, l')) :
    (l.status = false ∧ ok = false ∧ l' = l) ∨
      (l.status = true ∧ fields.serializeLoad limits o l = .ok (out, l') ∧ ok = l'.status) := by
  rw [SerialType.doSerializeLoad] at h
  cases hstatus : l.status with
  | false =>
    simp only [hstatus, Bool.not_false, if_true, Except.ok.injEq, Prod.mk.injEq] at h
    exact .inl ⟨rfl, h.1.symm, h.2.2.symm⟩
  | true =>
    simp only [hstatus, Bool.not_true, Bool.false_eq_true, if_false] at h
    cases hload : fields.serializeLoad limits o l with
    | error fault => simp [hload, bind, Except.bind] at h
    | ok r =>
      simp only [hload, bind, Except.bind, pure, Except.pure, Except.ok.injEq, Prod.mk.injEq] at h
      obtain ⟨rfl, rfl, rfl⟩ := h
      exact .inr ⟨rfl, rfl, rfl⟩

theorem SerialFields.serializeLoad_field {t : SerialType} {fields : SerialFields} {o out : t.Value}
    {os outs : fields.Value} {l l' : Loader}
    (h : (SerialFields.field t fields).serializeLoad limits (o, os) l = .ok ((out, outs), l')) :
    ∃ ok mid, t.doSerializeLoad limits o l = .ok (ok, out, mid) ∧
      fields.serializeLoad limits os { mid with status := ok } = .ok (outs, l') := by
  rw [SerialFields.serializeLoad] at h
  cases hload : t.doSerializeLoad limits o l with
  | error fault => simp [hload, bind, Except.bind] at h
  | ok r =>
    obtain ⟨ok, out', mid⟩ := r
    cases htail : fields.serializeLoad limits os { mid with status := ok } with
    | error fault => simp [hload, htail, bind, Except.bind] at h
    | ok r =>
      simp only [hload, htail, bind, Except.bind, pure, Except.pure, Except.ok.injEq] at h
      cases h
      exact ⟨ok, mid, rfl, htail⟩

end Inversion

section Loads

variable {limits : VectorLimits}

mutual

/-- A load that returns has read the format. -/
theorem SerialType.load_of_decodes : ∀ {t : SerialType} {bytes rest : List UInt8}
    {v o out : t.Value} {ok : Bool} {l : Loader}, t.Decodes bytes v rest →
    t.doSerializeLoad limits o ⟨true, bytes⟩ = .ok (ok, out, l) →
    ok = true ∧ l = ⟨true, rest⟩ ∧ t.Fits v ∧ t.Loaded o v out
  | .scalar s, bytes, rest, v, o, out, ok, l, hdec, h => by
    have hread : s.read bytes = (some v, rest) := hdec
    simp only [SerialType.doSerializeLoad, Scalar.load, hread, Except.ok.injEq,
      Prod.mk.injEq] at h
    obtain ⟨rfl, rfl, rfl⟩ := h
    exact ⟨rfl, rfl, trivial, rfl⟩
  | .vector t, bytes, rest, v, o, out, ok, l, hdec, h => by
    obtain ⟨mid, hsize, hall⟩ := hdec
    rcases SerialType.doSerializeLoad_vector h with ⟨_, hread, -⟩ | ⟨sz, mid', hread, hload⟩
    · cases hsize.symm.trans hread
    · cases hsize.symm.trans hread
      rw [StdList.toNat_size] at hload
      obtain ⟨hok, hl, hcount, hfits, helems⟩ := loadElements_of_decodes
        (fun hv hchild =>
          let ⟨hok, hl, hfit, hloaded⟩ := SerialType.load_of_decodes hv hchild
          ⟨hok, hl, hfit, hloaded.eq t.fresh_initial⟩) hall (by decide) hload
      exact ⟨hok, hl, ⟨by omega, hfits⟩, helems⟩
  | .struct fields, bytes, rest, v, o, out, ok, l, hdec, h => by
    rcases SerialType.doSerializeLoad_struct h with ⟨hf, -⟩ | ⟨-, hload, rfl⟩
    · cases hf
    · obtain ⟨rfl, hfits, hloaded⟩ := SerialFields.load_of_decodes hdec hload
      exact ⟨rfl, rfl, hfits, hloaded⟩

theorem SerialFields.load_of_decodes : ∀ {fields : SerialFields} {bytes rest : List UInt8}
    {v o out : fields.Value} {l : Loader}, fields.Decodes bytes v rest →
    fields.serializeLoad limits o ⟨true, bytes⟩ = .ok (out, l) →
    l = ⟨true, rest⟩ ∧ fields.Fits v ∧ fields.Loaded o v out
  | .done, bytes, rest, _, _, _, l, hdec, h => by
    cases h
    rw [show bytes = rest from hdec]
    exact ⟨rfl, trivial, trivial⟩
  | .field t fields, bytes, rest, (v, vs), (o, os), (out, outs), l, hdec, h => by
    obtain ⟨mid, hv, hvs⟩ := hdec
    obtain ⟨ok, at_, hload, htail⟩ := SerialFields.serializeLoad_field h
    obtain ⟨rfl, rfl, hfit, hloaded⟩ := SerialType.load_of_decodes hv hload
    obtain ⟨hl, hfits, hloadeds⟩ := SerialFields.load_of_decodes hvs htail
    exact ⟨hl, ⟨hfit, hfits⟩, hloaded, hloadeds⟩

end

mutual

/-- Into a fresh object every value that fits is loaded. -/
theorem SerialType.load_of_fits : ∀ {t : SerialType} {bytes rest : List UInt8} {v o : t.Value},
    t.Decodes bytes v rest → t.Fits v → t.Fresh o →
    t.doSerializeLoad limits o ⟨true, bytes⟩ = .ok (true, v, ⟨true, rest⟩)
  | .scalar s, bytes, rest, v, o, hdec, _, _ => by
    have hread : s.read bytes = (some v, rest) := hdec
    simp only [SerialType.doSerializeLoad, Scalar.load, hread]
  | .vector t, bytes, rest, v, o, hdec, hfits, hfresh => by
    have hsizes := hdec
    obtain ⟨mid, hsize, hall⟩ := hdec
    obtain ⟨hcount, hchildren⟩ := hfits
    have hempty : o.elems = [] := hfresh
    have hlimit := limits.enough t v.elems.length hcount
    obtain ⟨out, hout⟩ := loadElements_of_fits (i := 0) (o := o)
      (fun hv hfit => SerialType.load_of_fits hv hfit t.fresh_initial) hall hchildren
      (by omega) (by rw [hempty, List.length_nil]; omega)
    have hload : (SerialType.vector t).doSerializeLoad limits o ⟨true, bytes⟩
        = .ok (true, out, ⟨true, rest⟩) := by
      rw [SerialType.doSerializeLoad, hsize]
      simp only [StdList.toNat_size]
      rw [if_neg (by omega)]
      exact hout
    obtain ⟨-, -, -, hloaded⟩ := SerialType.load_of_decodes hsizes hload
    rw [hload, hloaded.eq hfresh]
  | .struct fields, bytes, rest, v, o, hdec, hfits, hfresh => by
    have hload := SerialFields.load_of_fits hdec hfits hfresh
    simp only [SerialType.doSerializeLoad, Bool.not_true, Bool.false_eq_true, if_false, hload,
      bind, Except.bind, pure, Except.pure]

theorem SerialFields.load_of_fits : ∀ {fields : SerialFields} {bytes rest : List UInt8}
    {v o : fields.Value}, fields.Decodes bytes v rest → fields.Fits v → fields.Fresh o →
    fields.serializeLoad limits o ⟨true, bytes⟩ = .ok (v, ⟨true, rest⟩)
  | .done, bytes, rest, _, _, hdec, _, _ => by
    rw [show bytes = rest from hdec]
    rfl
  | .field t fields, bytes, rest, (v, vs), (o, os), hdec, hfits, hfresh => by
    obtain ⟨mid, hv, hvs⟩ := hdec
    have hload := SerialType.load_of_fits hv hfits.1 hfresh.1
    have htail := SerialFields.load_of_fits hvs hfits.2 hfresh.2
    simp only [SerialFields.serializeLoad, hload, htail, bind, Except.bind, pure, Except.pure]

end

theorem Loader.load_eq_ok {t : SerialType} {o out : t.Value} {data : List UInt8}
    (h : Loader.load limits t o data = .ok (true, out)) :
    data ≠ [] ∧ t.doSerializeLoad limits o ⟨true, data⟩ = .ok (true, out, ⟨true, []⟩) := by
  rw [Loader.load] at h
  split at h
  · cases h
  · next hne =>
    refine ⟨hne, ?_⟩
    cases hload : t.doSerializeLoad limits o ⟨true, data⟩ with
    | error fault => simp [hload, bind, Except.bind] at h
    | ok r =>
      obtain ⟨ret, out', status, rest⟩ := r
      simp [hload, bind, Except.bind, pure, Except.pure] at h
      obtain ⟨⟨⟨rfl, rfl⟩, hrest⟩, rfl⟩ := h
      rw [hrest]

theorem Loader.load_of_doSerializeLoad {t : SerialType} {o out : t.Value} {data : List UInt8}
    (hne : data ≠ [])
    (h : t.doSerializeLoad limits o ⟨true, data⟩ = .ok (true, out, ⟨true, []⟩)) :
    Loader.load limits t o data = .ok (true, out) := by
  rw [Loader.load, if_neg hne, h]
  rfl

end Loads

/-! ## Values whose bytes bound their vectors -/

mutual

/-- Every element of a vector writes a byte. -/
def SerialType.Dense : SerialType → Prop
  | .scalar _ => True
  | .vector t => t.HasData ∧ t.Dense
  | .struct fields => fields.Dense

def SerialFields.Dense : SerialFields → Prop
  | .done => True
  | .field t fields => t.Dense ∧ fields.Dense

end

theorem length_le_flatMap {α : Type} {save : α → List UInt8} (hsave : ∀ v, save v ≠ []) :
    ∀ vs : List α, vs.length ≤ (vs.flatMap save).length
  | [] => Nat.le_refl _
  | v :: vs => by
    have hhead := List.length_pos_iff.mpr (hsave v)
    have htail := length_le_flatMap hsave vs
    rw [List.flatMap_cons, List.length_append, List.length_cons]
    omega

theorem length_le_flatMap_of_mem {α : Type} {save : α → List UInt8} {v : α} {vs : List α}
    (h : v ∈ vs) : (save v).length ≤ (vs.flatMap save).length := by
  obtain ⟨l, r, rfl⟩ := List.append_of_mem h
  rw [List.flatMap_append, List.flatMap_cons, List.length_append, List.length_append]
  omega

mutual

theorem SerialType.fits_of_length : ∀ {t : SerialType} {v : t.Value}, t.Dense →
    (t.doSerializeSave v).length < 2 ^ 31 → t.Fits v
  | .scalar _, _, _, _ => trivial
  | .vector t, v, hdense, h => by
    rw [SerialType.doSerializeSave, List.length_append] at h
    have hcount := length_le_flatMap (fun v => (t.save_ne_nil_iff v).mpr hdense.1) v.elems
    refine ⟨by omega, fun child hchild => SerialType.fits_of_length hdense.2 ?_⟩
    have hle := @length_le_flatMap_of_mem _ t.doSerializeSave _ _ hchild
    omega
  | .struct _, _, hdense, h => SerialFields.fits_of_length hdense h

theorem SerialFields.fits_of_length : ∀ {fields : SerialFields} {v : fields.Value}, fields.Dense →
    (fields.serializeSave v).length < 2 ^ 31 → fields.Fits v
  | .done, _, _, _ => trivial
  | .field _ _, (_, _), hdense, h => by
    rw [SerialFields.serializeSave, List.length_append] at h
    exact ⟨SerialType.fits_of_length hdense.1 (by omega),
      SerialFields.fits_of_length hdense.2 (by omega)⟩

end

/-! ## Types of the program -/

open Serializable

/-- Every member is saved. -/
class LawfulSerializable (α : Type) [Serializable α] : Prop where
  ofValue_toValue : ∀ o : α, ofValue (toValue o) = o

instance {α : Type} [Serializable α] [LawfulSerializable α] : LawfulSerializable (StdList α) where
  ofValue_toValue l := StdList.ext (by
    show (l.elems.map toValue).map ofValue = l.elems
    rw [List.map_map, show ofValue ∘ toValue = (id : α → α) from
      funext LawfulSerializable.ofValue_toValue, List.map_id])

instance : LawfulSerializable Int32 := ⟨fun _ => rfl⟩
instance : LawfulSerializable UInt32 := ⟨fun _ => rfl⟩
instance : LawfulSerializable UInt64 := ⟨fun _ => rfl⟩
instance : LawfulSerializable Bool := ⟨fun _ => rfl⟩
instance : LawfulSerializable StdString := ⟨fun _ => rfl⟩
instance : LawfulSerializable FloatBits := ⟨fun _ => rfl⟩
instance {ε : Type} : LawfulSerializable (EnumClass ε) := ⟨fun _ => rfl⟩

theorem ofValue_toValue_stdList {α : Type} [Serializable α] (l : StdList α) :
    ofValue (toValue l) = l.map fun o => ofValue (toValue o) :=
  StdList.ext (List.map_map ..)

/-- A saved object is loaded again, with the members that are saved. -/
theorem load_save_iff {α : Type} [Serializable α] {limits : VectorLimits} {o s : α} :
    load limits (save o) = .ok (some s) ↔
      (type α).HasData ∧ (type α).Fits (toValue o) ∧ s = ofValue (toValue o) := by
  have hdec := (type α).decodes_save (toValue o) []
  rw [List.append_nil] at hdec
  constructor
  · intro h
    obtain ⟨⟨ok, v⟩, hload, hv⟩ := bind_ok h
    have hok : ok = true := by
      cases ok
      · cases hv
      · rfl
    subst hok
    cases hv
    obtain ⟨hne, hload⟩ := Loader.load_eq_ok hload
    obtain ⟨-, -, hfits, hloaded⟩ := SerialType.load_of_decodes hdec hload
    rw [hloaded.eq (type α).fresh_initial]
    exact ⟨((type α).save_ne_nil_iff _).mp hne, hfits, rfl⟩
  · rintro ⟨hdata, hfits, rfl⟩
    rw [load, save, Loader.load_of_doSerializeLoad (((type α).save_ne_nil_iff _).mpr hdata)
      (SerialType.load_of_fits hdec hfits (type α).fresh_initial)]
    rfl

/-! ## Bytes that start like a value -/

section Prefix

variable {limits : VectorLimits}

/-- Elements that are decoded leave the load of those after them. -/
theorem loadElements_prefix {α : Type} {loadChild : Loader → Except Fault (Bool × α × Loader)}
    {decodes : List UInt8 → α → List UInt8 → Prop}
    (hchild : ∀ {bytes v mid ok out l}, decodes bytes v mid →
      loadChild ⟨true, bytes⟩ = .ok (ok, out, l) → ok = true ∧ l = ⟨true, mid⟩)
    {mid : List UInt8} {left : Nat} : ∀ {vs : List α} {bytes : List UInt8} {i : Nat}
      {o out : StdList α} {ok : Bool} {l : Loader}, DecodesAll decodes bytes vs mid →
      loadElements loadChild (vs.length + left) i o ⟨true, bytes⟩ = .ok (ok, out, l) →
      ∃ i' o', loadElements loadChild left i' o' ⟨true, mid⟩ = .ok (ok, out, l)
  | [], bytes, i, o, out, ok, l, hdec, h => by
    rw [show bytes = mid from hdec, List.length_nil, Nat.zero_add] at h
    exact ⟨i, o, h⟩
  | v :: vs, bytes, i, o, out, ok, l, hdec, h => by
    obtain ⟨mid', hv, hvs⟩ := hdec
    rw [List.length_cons, Nat.add_right_comm] at h
    obtain ⟨hsize, childOk, child, at_, hload, hstep⟩ := loadElements_succ h
    obtain ⟨rfl, rfl⟩ := hchild hv hload
    rcases hstep with ⟨hf, -, -⟩ | ⟨-, -, htail⟩
    · cases hf
    · exact loadElements_prefix hchild hvs htail

/-- A field that is decoded leaves the load of the fields after it. -/
theorem SerialFields.serializeLoad_prefix {t : SerialType} {fields : SerialFields}
    {bytes mid : List UInt8} {v o out : t.Value} {os outs : fields.Value} {l : Loader}
    (hdec : t.Decodes bytes v mid)
    (h : (SerialFields.field t fields).serializeLoad limits (o, os) ⟨true, bytes⟩
      = .ok ((out, outs), l)) :
    fields.serializeLoad limits os ⟨true, mid⟩ = .ok (outs, l) := by
  obtain ⟨ok, at_, hload, htail⟩ := SerialFields.serializeLoad_field h
  obtain ⟨rfl, rfl, -⟩ := SerialType.load_of_decodes hdec hload
  exact htail

theorem SerialType.doSerializeLoad_scalar_none {s : Scalar} {o out : s.Value} {l l' : Loader}
    {ok : Bool} (hread : (s.read l.rest).1 = none)
    (h : (SerialType.scalar s).doSerializeLoad limits o l = .ok (ok, out, l')) : ok = false := by
  rw [SerialType.doSerializeLoad, Scalar.load] at h
  split at h
  · next v rest heq =>
    rw [heq] at hread
    cases hread
  · cases h
    rfl

end Prefix

end Jumanpp.Util.Serialization
