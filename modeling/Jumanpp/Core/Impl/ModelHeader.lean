import Jumanpp.Core.Impl.ModelSaved
import Jumanpp.Util.SerialFormat

/-!
# The header of a model file

The page of the header has room for 4080 bytes of it, and `open` looks at 4078 of them.  A header
that is longer loses the end of its last number, so that it is refused.
-/

namespace Jumanpp.Core.Model

open Jumanpp.Util Jumanpp.Util.Serialization Jumanpp.Lib
open Serializable

instance : LawfulSerializable BlockPtr := ⟨fun _ => rfl⟩

instance : LawfulSerializable ModelPartRaw where
  ofValue_toValue o := by
    show ModelPartRaw.mk (ofValue (toValue o.kind)) (ofValue (toValue o.comment))
      (ofValue (toValue o.data)) (ofValue (toValue o.start)) (ofValue (toValue o.end)) = _
    simp only [LawfulSerializable.ofValue_toValue]

instance : LawfulSerializable ModelInfoRaw where
  ofValue_toValue o := by
    show ModelInfoRaw.mk (ofValue (toValue o.parts)) = _
    rw [LawfulSerializable.ofValue_toValue]

theorem ModelInfoRaw.dense : (type ModelInfoRaw).Dense := by
  simp [type, SerialType.Dense, SerialFields.Dense, SerialType.HasData, SerialFields.HasData]

theorem ModelInfoRaw.hasData : (type ModelInfoRaw).HasData := Or.inl trivial

theorem load_save_raw {limits : VectorLimits} {raw : ModelInfoRaw}
    (hlength : (Serialization.save raw).length < 2 ^ 31) :
    Serialization.load limits (Serialization.save raw) = .ok (some raw) := by
  exact load_save_iff.mpr ⟨ModelInfoRaw.hasData,
    SerialType.fits_of_length ModelInfoRaw.dense hlength,
    (LawfulSerializable.ofValue_toValue raw).symm⟩

/-- What is saved of a part before its last number. -/
def ModelPartRaw.saveStart (part : ModelPartRaw) : List UInt8 :=
  Serialization.save part.kind ++ (Serialization.save part.comment ++
    (Serialization.save part.data ++ writeVarint part.start))

theorem ModelPartRaw.save_eq (part : ModelPartRaw) :
    (type ModelPartRaw).doSerializeSave (toValue part)
      = part.saveStart ++ writeVarint part.end := by
  show _ ++ (_ ++ (_ ++ (_ ++ (_ ++ [])))) = _
  rw [ModelPartRaw.saveStart, List.append_nil, List.append_assoc, List.append_assoc,
    List.append_assoc]
  rfl

/-- A part whose last number is cut short is not read. -/
theorem ModelPartRaw.load_cut {limits : VectorLimits} {part : ModelPartRaw} {k : Nat}
    (hk : k < (writeVarint part.end).length) {o out : (type ModelPartRaw).Value} {ok : Bool}
    {l : Loader}
    (h : (type ModelPartRaw).doSerializeLoad limits o
      ⟨true, part.saveStart ++ (writeVarint part.end).take k⟩ = .ok (ok, out, l)) : ok = false := by
  rcases SerialType.doSerializeLoad_struct h with ⟨hf, -⟩ | ⟨-, hload, hok⟩
  · cases hf
  · rw [ModelPartRaw.saveStart, List.append_assoc, List.append_assoc, List.append_assoc] at hload
    have h1 := SerialFields.serializeLoad_prefix ((type ModelPartKind).decodes_save _ _) hload
    have h2 := SerialFields.serializeLoad_prefix ((type StdString).decodes_save _ _) h1
    have h3 := SerialFields.serializeLoad_prefix
      ((type (StdList BlockPtr)).decodes_save _ _) h2
    have h4 := SerialFields.serializeLoad_prefix ((type UInt64).decodes_save part.start _) h3
    obtain ⟨ok', mid, hlast, hdone⟩ := SerialFields.serializeLoad_field h4
    have hcut := SerialType.doSerializeLoad_scalar_none (s := .u64)
      (l := ⟨true, (writeVarint part.end).take k⟩) (readVarint64_take part.end hk) hlast
    cases hdone
    exact hok.trans hcut

/-- A header that ends in a number that is cut short. -/
theorem load_cut {limits : VectorLimits} {raw : ModelInfoRaw} {init : List ModelPartRaw}
    {part : ModelPartRaw} (hparts : raw.parts.elems = init ++ [part]) (hend : 128 ≤ part.end.toNat)
    {k : Nat} (hk : k < (Serialization.save raw).length)
    (hk' : (Serialization.save raw).length ≤ k + 2) (r : ModelInfoRaw) :
    Serialization.load limits ((Serialization.save raw).take k) ≠ .ok (some r) := by
  intro h
  have htwo := two_le_length_writeVarint hend
  have hsave : Serialization.save raw = (writeVarint raw.parts.size ++
      ((init.map toValue).flatMap (type ModelPartRaw).doSerializeSave ++ part.saveStart))
      ++ writeVarint part.end := by
    show writeVarint (raw.parts.map toValue).size ++
      (raw.parts.elems.map toValue).flatMap (type ModelPartRaw).doSerializeSave ++ [] = _
    rw [StdList.size_map, hparts, List.map_append, List.flatMap_append, List.map_singleton,
      List.flatMap_singleton, ModelPartRaw.save_eq]
    simp only [List.append_assoc, List.append_nil]
  rw [hsave] at hk hk' h
  rw [List.length_append] at hk hk'
  rw [List.take_append, List.take_of_length_le (by omega)] at h
  generalize hj : k - _ = j at h
  have hjlt : j < (writeVarint part.end).length := by omega
  obtain ⟨⟨ok, v⟩, hload, hv⟩ := bind_ok h
  have hok : ok = true := by
    cases ok
    · cases hv
    · rfl
  subst hok
  obtain ⟨-, hload⟩ := Loader.load_eq_ok hload
  rcases SerialType.doSerializeLoad_struct hload with ⟨hf, -⟩ | ⟨-, hload, -⟩
  · cases hf
  · obtain ⟨ok, ⟨status, rest⟩, hvector, hdone⟩ := SerialFields.serializeLoad_field hload
    cases hdone
    rcases SerialType.doSerializeLoad_vector hvector with ⟨_, hread, -⟩ | ⟨sz, rest, hread, hload⟩
    · rw [List.append_assoc, readVarint64_writeVarint] at hread
      cases hread
    · rw [List.append_assoc, readVarint64_writeVarint] at hread
      cases hread
      have hsize : raw.parts.size.toNat = (init.map toValue).length + 1 := by
        rw [StdList.toNat_size, hparts, List.length_append, List.length_map,
          List.length_singleton]
      rw [hsize] at hload
      simp only [List.append_assoc] at hload
      obtain ⟨i, o, hlast⟩ := loadElements_prefix
        (fun hv hchild =>
          have hread := SerialType.load_of_decodes hv hchild
          ⟨hread.1, hread.2.1⟩)
        (decodesAll_flatMap (type ModelPartRaw).decodes_save _ (init.map toValue)) hload
      obtain ⟨_, childOk, child, at_, hchild, hstep⟩ := loadElements_succ hlast
      cases ModelPartRaw.load_cut hjlt hchild
      rcases hstep with ⟨-, hf, -⟩ | ⟨hf, -⟩ <;> cases hf

end Jumanpp.Core.Model
