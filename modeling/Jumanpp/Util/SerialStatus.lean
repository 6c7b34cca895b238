import Jumanpp.Util.SerialFormat

/-!
# Failures that are forgotten

A field that cannot be read lowers the flag of the loader, but the next field that is read raises it
again, unless that field is a struct.  The reads of a load are listed here with the flag that each
of them started from; a load says that it succeeded without having decoded its bytes exactly when
some read succeeded from a lowered flag and nothing failed after it.
-/

namespace Jumanpp.Util.Serialization

open Jumanpp.Util

/-- One call of `DoSerializeLoad`: the flag before it, its outcome, and the bytes that it left. -/
structure Read where
  status : Bool
  decoded : Bool
  rest : List UInt8

def elementReads {α : Type} (loadChild : Loader → Except Fault (Bool × α × Loader))
    (childReads : Loader → List Read) : Nat → Loader → List Read
  | 0, _ => []
  | left + 1, l =>
      childReads l ++
        match loadChild l with
        | .ok (true, _, l) => elementReads loadChild childReads left l
        | _ => []

section

variable (limits : VectorLimits)

def SerialType.ownRead (t : SerialType) (o : t.Value) (l : Loader) : List Read :=
  match t.doSerializeLoad limits o l with
  | .ok (ok, _, l') => [⟨l.status, ok, l'.rest⟩]
  | .error _ => []

mutual

/-- In the order in which the calls return. -/
def SerialType.reads : (t : SerialType) → t.Value → Loader → List Read
  | .scalar s, o, l => (SerialType.scalar s).ownRead limits o l
  | .vector t, o, l =>
      (match readVarint64 l.rest with
      | (some sz, rest) =>
          elementReads (t.doSerializeLoad limits t.initial) (t.reads t.initial) sz.toNat
            { l with rest }
      | (none, _) => []) ++ (SerialType.vector t).ownRead limits o l
  | .struct fields, o, l =>
      (if l.status then fields.reads o l else []) ++ (SerialType.struct fields).ownRead limits o l

def SerialFields.reads : (fields : SerialFields) → fields.Value → Loader → List Read
  | .done, _, _ => []
  | .field t fields, (o, os), l =>
      t.reads o l ++
        match t.doSerializeLoad limits o l with
        | .ok (ok, _, l) => fields.reads os { l with status := ok }
        | .error _ => []

end

/-- The reads of a load that returns. -/
def Loader.reads (t : SerialType) (o : t.Value) (data : List UInt8) : List Read :=
  if data = [] then []
  else
    match t.doSerializeLoad limits o ⟨true, data⟩ with
    | .ok _ => t.reads limits o ⟨true, data⟩
    | .error _ => []

end

/-- Some read succeeds while the flag is down, and no read fails from there on. -/
def Recovered (reads : List Read) : Prop :=
  ∃ before r after, reads = before ++ r :: after ∧ r.status = false ∧
    ∀ p ∈ r :: after, p.decoded = true

/-- The last read ends with the bytes. -/
def AtEnd (reads : List Read) : Prop :=
  ∃ r ∈ reads.getLast?, r.rest = []

theorem Recovered.append_left {reads : List Read} (h : Recovered reads) (before : List Read) :
    Recovered (before ++ reads) := by
  obtain ⟨pre, r, after, rfl, hrest⟩ := h
  exact ⟨before ++ pre, r, after, (List.append_assoc ..).symm, hrest⟩

theorem Recovered.append_right {reads after : List Read} (h : Recovered reads)
    (hafter : ∀ p ∈ after, p.decoded = true) : Recovered (reads ++ after) := by
  obtain ⟨pre, r, post, rfl, hstatus, hpost⟩ := h
  refine ⟨pre, r, post ++ after, by simp, hstatus, fun p hp => ?_⟩
  rw [← List.cons_append] at hp
  rcases List.mem_append.mp hp with hp | hp
  · exact hpost p hp
  · exact hafter p hp

theorem Recovered.exists_not_status {reads : List Read} (h : Recovered reads) :
    ∃ r ∈ reads, r.status = false := by
  obtain ⟨pre, r, after, rfl, hstatus, -⟩ := h
  exact ⟨r, by simp, hstatus⟩

/-- What is recovered ends in a read that succeeds. -/
theorem Recovered.last {before : List Read} {r : Read} (h : Recovered (before ++ [r])) :
    r.decoded = true := by
  obtain ⟨pre, q, after, heq, -, hall⟩ := h
  refine hall r ?_
  have hlast := congrArg List.getLast? heq
  rw [List.getLast?_append, List.getLast?_append] at hlast
  cases hq : (q :: after).getLast? with
  | none => simp at hq
  | some x =>
    rw [hq] at hlast
    simp at hlast
    exact hlast ▸ List.mem_of_getLast? hq

section Reads

variable {limits : VectorLimits}

theorem elementReads_of_decodes {α : Type} {loadChild : Loader → Except Fault (Bool × α × Loader)}
    {childReads : Loader → List Read} {decodes : List UInt8 → α → List UInt8 → Prop}
    (hload : ∀ {bytes v mid ok out l}, decodes bytes v mid →
      loadChild ⟨true, bytes⟩ = .ok (ok, out, l) → l = ⟨true, mid⟩)
    (hreads : ∀ {bytes v mid}, decodes bytes v mid →
      ∀ r ∈ childReads ⟨true, bytes⟩, r.status = true ∧ r.decoded = true)
    {rest : List UInt8} : ∀ {vs : List α} {bytes : List UInt8}, DecodesAll decodes bytes vs rest →
      ∀ r ∈ elementReads loadChild childReads vs.length ⟨true, bytes⟩,
        r.status = true ∧ r.decoded = true
  | [], _, _, _, hr => by cases hr
  | v :: vs, bytes, hdec, r, hr => by
    obtain ⟨mid, hv, hvs⟩ := hdec
    rw [List.length_cons, elementReads] at hr
    rcases List.mem_append.mp hr with hr | hr
    · exact hreads hv r hr
    · split at hr
      · next child l heq =>
        rw [hload hv heq] at hr
        exact elementReads_of_decodes hload hreads hvs r hr
      · cases hr

theorem SerialType.ownRead_of_decodes {t : SerialType} {bytes rest : List UInt8} {v o : t.Value}
    (hdec : t.Decodes bytes v rest) :
    ∀ r ∈ t.ownRead limits o ⟨true, bytes⟩, r.status = true ∧ r.decoded = true := by
  intro r hr
  unfold SerialType.ownRead at hr
  split at hr
  · next ok out l hload =>
    obtain ⟨rfl, -⟩ := SerialType.load_of_decodes hdec hload
    rw [List.mem_singleton.mp hr]
    exact ⟨rfl, rfl⟩
  · cases hr

mutual

/-- While the format is read the flag stays up. -/
theorem SerialType.reads_of_decodes : ∀ {t : SerialType} {bytes rest : List UInt8} {v o : t.Value},
    t.Decodes bytes v rest →
    ∀ r ∈ t.reads limits o ⟨true, bytes⟩, r.status = true ∧ r.decoded = true
  | .scalar s, bytes, rest, v, o, hdec, r, hr => SerialType.ownRead_of_decodes hdec r hr
  | .vector t, bytes, rest, v, o, hdec, r, hr => by
    rw [SerialType.reads] at hr
    rcases List.mem_append.mp hr with hr | hr
    · obtain ⟨mid, hsize, hall⟩ := hdec
      rw [hsize] at hr
      simp only [StdList.toNat_size] at hr
      exact elementReads_of_decodes
        (fun hv hload => (SerialType.load_of_decodes hv hload).2.1)
        (fun hv => SerialType.reads_of_decodes hv) hall r hr
    · exact SerialType.ownRead_of_decodes hdec r hr
  | .struct fields, bytes, rest, v, o, hdec, r, hr => by
    rw [SerialType.reads, if_pos rfl] at hr
    rcases List.mem_append.mp hr with hr | hr
    · exact SerialFields.reads_of_decodes hdec r hr
    · exact SerialType.ownRead_of_decodes hdec r hr

theorem SerialFields.reads_of_decodes : ∀ {fields : SerialFields} {bytes rest : List UInt8}
    {v o : fields.Value}, fields.Decodes bytes v rest →
    ∀ r ∈ fields.reads limits o ⟨true, bytes⟩, r.status = true ∧ r.decoded = true
  | .done, _, _, _, _, _, r, hr => by cases hr
  | .field t fields, bytes, rest, (v, vs), (o, os), hdec, r, hr => by
    obtain ⟨mid, hv, hvs⟩ := hdec
    rw [SerialFields.reads] at hr
    rcases List.mem_append.mp hr with hr | hr
    · exact SerialType.reads_of_decodes hv r hr
    · split at hr
      · next ok out l hload =>
        obtain ⟨rfl, rfl, -⟩ := SerialType.load_of_decodes hv hload
        exact SerialFields.reads_of_decodes hvs r hr
      · cases hr

end

theorem SerialType.ownRead_eq {t : SerialType} {o out : t.Value} {l l' : Loader} {ok : Bool}
    (h : t.doSerializeLoad limits o l = .ok (ok, out, l')) :
    t.ownRead limits o l = [⟨l.status, ok, l'.rest⟩] := by
  rw [SerialType.ownRead, h]

/-- The call itself is the last of its reads. -/
theorem SerialType.reads_eq {t : SerialType} {o out : t.Value} {l l' : Loader} {ok : Bool}
    (h : t.doSerializeLoad limits o l = .ok (ok, out, l')) :
    ∃ before, t.reads limits o l = before ++ [⟨l.status, ok, l'.rest⟩] := by
  cases t with
  | scalar s => exact ⟨[], by rw [SerialType.reads, SerialType.ownRead_eq h, List.nil_append]⟩
  | vector t => exact ⟨_, by rw [SerialType.reads, SerialType.ownRead_eq h]⟩
  | struct fields => exact ⟨_, by rw [SerialType.reads, SerialType.ownRead_eq h]⟩

theorem loadElements_status {α : Type} {loadChild : Loader → Except Fault (Bool × α × Loader)}
    (hchild : ∀ {l out l'}, loadChild l = .ok (true, out, l') → l.status = true →
      l'.status = true) : ∀ {left i : Nat} {o out : StdList α} {l l' : Loader},
      loadElements loadChild left i o l = .ok (true, out, l') → l.status = true → l'.status = true
  | 0, _, _, _, _, _, h, hstatus => by
    cases h
    exact hstatus
  | left + 1, i, o, out, l, l', h, hstatus => by
    obtain ⟨hsize, childOk, child, mid, hload, hstep⟩ := loadElements_succ h
    rcases hstep with ⟨-, hf, -⟩ | ⟨rfl, -, htail⟩
    · cases hf
    · exact loadElements_status hchild htail (hchild hload hstatus)

/-- A field that is read leaves the flag up. -/
theorem SerialType.load_status : ∀ {t : SerialType} {o out : t.Value} {l l' : Loader},
    t.doSerializeLoad limits o l = .ok (true, out, l') → l.status = true → l'.status = true
  | .scalar s, o, out, l, l', h, hstatus => by
    rw [SerialType.doSerializeLoad, Scalar.load] at h
    split at h <;> cases h
    exact hstatus
  | .vector t, o, out, l, l', h, hstatus => by
    rcases SerialType.doSerializeLoad_vector h with ⟨_, -, hf, -⟩ | ⟨sz, rest, -, hload⟩
    · cases hf
    · exact loadElements_status SerialType.load_status hload hstatus
  | .struct fields, o, out, l, l', h, hstatus => by
    rcases SerialType.doSerializeLoad_struct h with ⟨-, hf, -⟩ | ⟨-, -, hok⟩
    · cases hf
    · exact hok.symm

theorem elementReads_succ {α : Type} {loadChild : Loader → Except Fault (Bool × α × Loader)}
    {childReads : Loader → List Read} {left : Nat} {l mid : Loader} {child : α}
    (h : loadChild l = .ok (true, child, mid)) :
    elementReads loadChild childReads (left + 1) l
      = childReads l ++ elementReads loadChild childReads left mid := by
  rw [elementReads, h]

/-- By induction on the elements: the last one that recovered, if any, is followed by elements that
are decoded. -/
theorem loadElements_decodes {α : Type} {loadChild : Loader → Except Fault (Bool × α × Loader)}
    {childReads : Loader → List Read} {decodes : List UInt8 → α → List UInt8 → Prop}
    (hstatus : ∀ {l out l'}, loadChild l = .ok (true, out, l') → l.status = true →
      l'.status = true)
    (hchild : ∀ {l out l'}, loadChild l = .ok (true, out, l') → l.status = true →
      Recovered (childReads l) ∨ ∃ v, decodes l.rest v l'.rest)
    (hreads : ∀ {vs bytes rest}, DecodesAll decodes bytes vs rest →
      ∀ r ∈ elementReads loadChild childReads vs.length ⟨true, bytes⟩, r.decoded = true) :
    ∀ {left i : Nat} {o out : StdList α} {l l' : Loader},
      loadElements loadChild left i o l = .ok (true, out, l') → l.status = true →
      Recovered (elementReads loadChild childReads left l) ∨
        ∃ vs, vs.length = left ∧ DecodesAll decodes l.rest vs l'.rest
  | 0, _, _, _, _, _, h, _ => by
    cases h
    exact .inr ⟨[], rfl, rfl⟩
  | left + 1, i, o, out, l, l', h, hl => by
    obtain ⟨hsize, childOk, child, mid, hload, hstep⟩ := loadElements_succ h
    rcases hstep with ⟨-, hf, -⟩ | ⟨rfl, -, htail⟩
    · cases hf
    · have hmid := hstatus hload hl
      rw [elementReads_succ hload]
      rcases loadElements_decodes hstatus hchild hreads htail hmid with hrec | ⟨vs, hvs, hall⟩
      · exact .inl (hrec.append_left _)
      · rcases hchild hload hl with hrec | ⟨v, hv⟩
        · refine .inl (hrec.append_right ?_)
          have hgood := hreads hall
          rw [hvs, show (⟨true, mid.rest⟩ : Loader) = mid by cases mid; cases hmid; rfl] at hgood
          exact hgood
        · exact .inr ⟨v :: vs, by rw [List.length_cons, hvs], mid.rest, hv, hall⟩

mutual

/-- A field that is read was decoded, or a failure was forgotten on the way. -/
theorem SerialType.recovered_or_decodes : ∀ {t : SerialType} {o out : t.Value} {l l' : Loader},
    t.doSerializeLoad limits o l = .ok (true, out, l') → l.status = true →
    Recovered (t.reads limits o l) ∨ ∃ v, t.Decodes l.rest v l'.rest
  | .scalar s, o, out, l, l', h, _ => by
    rw [SerialType.doSerializeLoad, Scalar.load] at h
    split at h
    · next v rest hread =>
      cases h
      exact .inr ⟨_, hread⟩
    · cases h
  | .vector t, o, out, l, l', h, hstatus => by
    have hown := SerialType.ownRead_eq h
    rcases SerialType.doSerializeLoad_vector h with ⟨_, -, hf, -⟩ | ⟨sz, rest, hread, hload⟩
    · cases hf
    · rcases @loadElements_decodes _ _ (t.reads limits t.initial) _
        SerialType.load_status SerialType.recovered_or_decodes
        (fun hall r hr => (elementReads_of_decodes
          (fun hv hload => (SerialType.load_of_decodes hv hload).2.1)
          (fun hv => SerialType.reads_of_decodes hv) hall r hr).2) _ _ _ _ _ _ hload hstatus
        with hrec | ⟨vs, hvs, hall⟩
      · rw [SerialType.reads, hread, hown]
        exact .inl (hrec.append_right (by simp))
      · have hsize : vs.length < 2 ^ 64 := hvs ▸ sz.toNat_lt
        have hsz : (⟨vs, hsize⟩ : StdList t.Value).size = sz := by
          rw [StdList.size, hvs, UInt64.ofNat_toNat]
        exact .inr ⟨⟨vs, hsize⟩, rest, by rw [hread, hsz], hall⟩
  | .struct fields, o, out, l, l', h, hstatus => by
    have hown := SerialType.ownRead_eq h
    rcases SerialType.doSerializeLoad_struct h with ⟨-, hf, -⟩ | ⟨-, hload, hok⟩
    · cases hf
    · rcases SerialFields.recovered_or_decodes hload hok.symm with hrec | ⟨-, hdec⟩
      · rw [SerialType.reads, if_pos hstatus, hown]
        exact .inl (hrec.append_right (by simp))
      · exact .inr hdec

theorem SerialFields.recovered_or_decodes : ∀ {fields : SerialFields} {o out : fields.Value}
    {l l' : Loader}, fields.serializeLoad limits o l = .ok (out, l') → l'.status = true →
    Recovered (fields.reads limits o l) ∨
      (l.status = true ∧ ∃ v, fields.Decodes l.rest v l'.rest)
  | .done, _, _, l, l', h, hstatus => by
    cases h
    exact .inr ⟨hstatus, (), rfl⟩
  | .field t fields, (o, os), (out, outs), l, l', h, hstatus => by
    obtain ⟨ok, mid, hload, htail⟩ := SerialFields.serializeLoad_field h
    have hreads : (SerialFields.field t fields).reads limits (o, os) l
        = t.reads limits o l ++ fields.reads limits os { mid with status := ok } := by
      rw [SerialFields.reads, hload]
    rw [hreads]
    rcases SerialFields.recovered_or_decodes htail hstatus with hrec | ⟨hok, vs, hvs⟩
    · exact .inl (hrec.append_left _)
    · simp only at hok
      subst hok
      have hgood := @SerialFields.reads_of_decodes limits _ _ _ _ os hvs
      cases hl : l.status with
      | false =>
        -- The field itself is the read that raises the flag.
        obtain ⟨before, hown⟩ := SerialType.reads_eq hload
        rw [hown, List.append_assoc]
        exact .inl ⟨before, _, _, rfl, hl, fun p hp => by
          rcases List.mem_cons.mp hp with rfl | hp
          · rfl
          · exact (hgood p hp).2⟩
      | true =>
        rcases SerialType.recovered_or_decodes hload hl with hrec | ⟨v, hv⟩
        · exact .inl (hrec.append_right fun p hp => (hgood p hp).2)
        · exact .inr ⟨rfl, (v, vs), mid.rest, hv, hvs⟩

end

end Reads

/-! ## Whole loads -/

section Whole

variable {limits : VectorLimits}

/-- What was saved is restored. -/
theorem Loader.load_save_iff (t : SerialType) (v o : t.Value) :
    Loader.load limits t o (t.doSerializeSave v) = .ok (true, v) ↔
      t.HasData ∧ t.Fits v ∧ t.Fresh o := by
  have hdec := t.decodes_save v []
  rw [List.append_nil] at hdec
  constructor
  · intro h
    obtain ⟨hne, hload⟩ := Loader.load_eq_ok h
    obtain ⟨-, -, hfits, hloaded⟩ := SerialType.load_of_decodes hdec hload
    exact ⟨(t.save_ne_nil_iff v).mp hne, hfits, hloaded.fresh⟩
  · rintro ⟨hdata, hfits, hfresh⟩
    exact Loader.load_of_doSerializeLoad ((t.save_ne_nil_iff v).mpr hdata)
      (SerialType.load_of_fits hdec hfits hfresh)

/-- A load that succeeds has decoded its bytes, unless it forgot a failure. -/
theorem Loader.load_decodes_iff (t : SerialType) (o : t.Value) (data : List UInt8) :
    (∀ out, Loader.load limits t o data = .ok (true, out) →
      ∃ v, t.Decodes data v [] ∧ t.Loaded o v out) ↔
    ¬ (Recovered (Loader.reads limits t o data) ∧ AtEnd (Loader.reads limits t o data)) := by
  constructor
  · rintro h ⟨hrec, r, hr, hend⟩
    unfold Loader.reads at hrec hr
    split at hrec
    · obtain ⟨_, hmem, -⟩ := hrec.exists_not_status
      cases hmem
    · next hne =>
      rw [if_neg hne] at hr
      cases hload : t.doSerializeLoad limits o ⟨true, data⟩ with
      | error fault =>
        rw [hload] at hrec
        obtain ⟨_, hmem, -⟩ := hrec.exists_not_status
        cases hmem
      | ok result =>
        obtain ⟨ok, out, l⟩ := result
        rw [hload] at hrec hr
        simp only at hrec hr
        obtain ⟨before, hown⟩ := SerialType.reads_eq hload
        have hok : ok = true := by
          rw [hown] at hrec
          exact hrec.last
        subst hok
        have hstatus := SerialType.load_status hload rfl
        have hrest : l = ⟨true, []⟩ := by
          rw [hown, List.getLast?_append] at hr
          simp at hr
          subst hr
          cases l
          simp_all
        rw [hrest] at hload
        obtain ⟨v, hdec, -⟩ := h out (Loader.load_of_doSerializeLoad hne hload)
        obtain ⟨q, hq, hdown⟩ := hrec.exists_not_status
        rw [(SerialType.reads_of_decodes hdec q hq).1] at hdown
        cases hdown
  · intro h out hload
    obtain ⟨hne, hload⟩ := Loader.load_eq_ok hload
    have hreads : Loader.reads limits t o data = t.reads limits o ⟨true, data⟩ := by
      rw [Loader.reads, if_neg hne, hload]
    rcases SerialType.recovered_or_decodes hload rfl with hrec | ⟨v, hdec⟩
    · obtain ⟨before, hown⟩ := SerialType.reads_eq hload
      exact absurd ⟨hreads ▸ hrec, by rw [hreads, hown]; exact ⟨⟨true, true, []⟩, by simp, rfl⟩⟩ h
    · exact ⟨v, hdec, (SerialType.load_of_decodes hdec hload).2.2.2⟩

end Whole

end Jumanpp.Util.Serialization
