import Jumanpp.Core.Analysis.RnnScorerFactory

/-!
# Saving and loading the RNN

Each function that may stop is described by when it returns.  A load then returns exactly for the
models whose parts pass all of its checks, and what it returns is read off the header and the parts.
-/

namespace Jumanpp.Core.Analysis.Rnn

open Jumanpp.Util Jumanpp.Util.Serialization Jumanpp.Core.Model Jumanpp.Lib

/-! ## When a function returns -/

section Returns

variable {α β : Type}

theorem bind_ok_iff {x : Except Stop α} {f : α → Except Stop β} {r : β} :
    (x >>= f) = .ok r ↔ ∃ a, x = .ok a ∧ f a = .ok r :=
  ⟨bind_ok, fun ⟨_, hx, hf⟩ => hx ▸ hf⟩

theorem pure_ok_iff {a r : α} : (pure a : Except Stop α) = .ok r ↔ r = a := by
  show Except.ok a = Except.ok r ↔ _
  rw [Except.ok.injEq, eq_comm]

theorem throw_bind {s : Stop} {f : α → Except Stop β} : ((throw s : Except Stop α) >>= f) = throw s :=
  rfl

theorem ite_throw_ok_iff {c : Prop} [Decidable c] {s : Stop} {x : Except Stop α} {r : α} :
    (if c then throw s else x) = .ok r ↔ ¬ c ∧ x = .ok r := by
  by_cases hc : c
  · rw [if_pos hc]
    constructor
    · intro h
      cases h
    · exact fun h => absurd hc h.1
  · rw [if_neg hc]
    exact ⟨fun h => ⟨hc, h⟩, fun h => h.2⟩

theorem rieMsg_ok_iff {msg : String} {x : Except Stop α} {r : α} :
    rieMsg msg x = .ok r ↔ x = .ok r := by
  cases x with
  | ok a => rfl
  | error s =>
    constructor
    · intro h
      cases s <;> cases h
    · intro h
      cases h

end Returns

/-! ## Floats -/

theorem readFloats_isSome_iff (count : Nat) (bytes : List UInt8) :
    (readFloats count bytes).isSome ↔ 4 * count ≤ bytes.length := by
  induction count generalizing bytes with
  | zero => simp [readFloats]
  | succ count ih =>
    match bytes with
    | [] => simp [readFloats, readFixed32]
    | [_] => simp [readFloats, readFixed32]; omega
    | [_, _] => simp [readFloats, readFixed32]; omega
    | [_, _, _] => simp [readFloats, readFixed32]; omega
    | _ :: _ :: _ :: _ :: rest =>
      rw [readFloats, readFixed32, Option.isSome_map, ih]
      simp only [List.length_cons]
      omega

theorem floatsAt_ok_iff {count : Nat} {bytes : List UInt8} {floats : List UInt32} :
    floatsAt count bytes = .ok floats ↔ readFloats count bytes = some floats := by
  unfold floatsAt
  cases readFloats count bytes with
  | none =>
    constructor
    · intro h
      cases h
    · intro h
      cases h
  | some read =>
    rw [pure_ok_iff, Option.some.injEq, eq_comm]

namespace DataPiece

theorem toNat_size (p : DataPiece) : p.size.toNat = p.chars.length := by
  have hlt := p.size_lt
  rw [size, UInt64.toNat_ofNat', Nat.mod_eq_of_lt (by omega)]

theorem take_of_length {p : DataPiece} {n : Nat} (h : p.chars.length ≤ n) : p.take n = p := by
  cases p
  simp only [take, DataPiece.mk.injEq, true_and]
  exact List.take_of_length_le h

end DataPiece

namespace ArraySlice

theorem asStringPiece_ok_iff {s : ArraySlice} {p : DataPiece} :
    s.asStringPiece = .ok p ↔ s.Inside ∧ p = s.memory.take (4 * s.size.toNat) := by
  unfold asStringPiece Inside
  by_cases h : 4 * s.size.toNat ≤ s.memory.chars.length
  · rw [if_pos h, pure_ok_iff]
    exact ⟨fun hp => ⟨h, hp⟩, fun hp => hp.2⟩
  · rw [if_neg h]
    constructor
    · intro hp
      cases hp
    · exact fun hp => absurd hp.1 h

theorem Allocated.asStringPiece {s : ArraySlice} {count : UInt64} (h : s.Allocated count) :
    s.asStringPiece = .ok s.memory := by
  rw [asStringPiece_ok_iff]
  exact ⟨Nat.le_of_eq h.length.symm, (DataPiece.take_of_length (Nat.le_of_eq h.length)).symm⟩

/-- The count fits the memory: the slice that is made has no floats behind it. -/
theorem Allocated.size_le {s : ArraySlice} {count : UInt64} (h : s.Allocated count) :
    s.memory.size ≤ count * 4 := by
  have hlt := s.memory.size_lt
  have hlength := h.length
  rw [h.size] at hlength
  rw [UInt64.le_iff_toNat_le, DataPiece.toNat_size, UInt64.toNat_mul]
  simp only [UInt64.reduceToNat]
  omega

/-- A part that is not longer than its slice has all of the slice if it is exactly as long. -/
theorem inside_iff_of_size_le {data : DataPiece} {count : UInt64} (h : data.size ≤ count * 4) :
    Inside ⟨data, count⟩ ↔ data.chars.length = 4 * count.toNat := by
  have hlt := data.size_lt
  rw [UInt64.le_iff_toNat_le, DataPiece.toNat_size, UInt64.toNat_mul] at h
  simp only [UInt64.reduceToNat] at h
  unfold Inside
  constructor
  · intro hinside
    simp only at hinside
    omega
  · intro hexact
    exact Nat.le_of_eq hexact.symm

end ArraySlice

theorem DoubleArray.loadFromMemory_contents (array : DoubleArray) :
    loadFromMemory array.contents = array := by
  have hwhole := array.whole
  have htake : array.array.take (array.array.chars.length / 4 * 4) = array.array :=
    DataPiece.take_of_length (by omega)
  cases array
  simp only [loadFromMemory, contents, DoubleArray.mk.injEq]
  exact htake

/-! ## The header -/

namespace RnnModelHeader

theorem ofValue_toValue (o : RnnModelHeader) : ofValue o.toValue = o := rfl

theorem fits_toValue_iff (o : RnnModelHeader) : members.Fits o.toValue ↔
    o.config.rnnFields.value.elems.length < 2 ^ 31 ∧ o.fields.elems.length < 2 ^ 31 := by
  simp [Members.Fits, Member.Fits, toValue, SerialType.Fits]

theorem fresh_initial : members.Fresh initial.toValue := by
  simp [Members.Fresh, Member.Fresh, toValue, initial, SerialType.Fresh, RnnInferenceConfig.initial,
    Cfg.ofDefault, StdList.empty]

theorem save_ne_nil (o : RnnModelHeader) : o.save ≠ [] := by
  simp [save, Members.serializeSave, Member.doSerializeSave, toValue, Cfg.doSerializeSave,
    writeVarint_ne_nil]

theorem load_save_iff {limits : VectorLimits} {o : RnnModelHeader} {data : DataPiece}
    (hdata : data.chars = o.save) {header : RnnModelHeader} :
    load limits data = .ok header ↔
      (o.config.rnnFields.value.elems.length < 2 ^ 31 ∧ o.fields.elems.length < 2 ^ 31) ∧
        header = o := by
  have hload : ∀ out, members.load limits initial.toValue (members.serializeSave o.toValue) =
      .ok (true, out) ↔ members.Fits o.toValue ∧ out = o.toValue :=
    fun _ => Members.load_save_iff fresh_initial o.save_ne_nil
  rw [← fits_toValue_iff]
  unfold load
  rw [hdata, save]
  constructor
  · intro h
    cases hr : members.load limits initial.toValue (members.serializeSave o.toValue) with
    | error fault =>
      rw [hr] at h
      cases h
    | ok r =>
      obtain ⟨ok, out⟩ := r
      rw [hr] at h
      cases ok with
      | false => cases h
      | true =>
        obtain ⟨hfits, rfl⟩ := (hload out).mp hr
        cases h
        exact ⟨hfits, ofValue_toValue o⟩
  · rintro ⟨hfits, rfl⟩
    rw [(hload _).mpr ⟨hfits, rfl⟩]
    exact congrArg Except.ok (ofValue_toValue header)

end RnnModelHeader

theorem MikolovRnn.init_ok_iff {header : MikolovRnnModelHeader} {weights maxentW : ArraySlice}
    {rnn : MikolovRnn} : init header weights maxentW = .ok rnn ↔
      isAligned weights.memory.data 64 = true ∧ isAligned maxentW.memory.data 64 = true ∧
        rnn = ⟨header, weights, maxentW, header.nceLnz⟩ := by
  simp only [init, ite_throw_ok_iff, pure_ok_iff, Bool.not_eq_true', Bool.not_eq_false]

namespace RnnScorerGbeamFactory

variable {newContext : List UInt32 → List UInt32 → List UInt32 → List UInt32}
  {limits : VectorLimits}

/-! ## What a load returns -/

/-- The pieces of a part, in their order. -/
structure RnnData where
  coded : DataPiece
  known : DataPiece
  unknown : DataPiece
  matrix : DataPiece
  embeddings : DataPiece
  nceEmbeddings : DataPiece
  maxent : DataPiece

/-- `p` starts with the pieces; what follows them is not looked at. -/
def RnnData.StartOf (d : RnnData) (p : ModelPart DataPiece) : Prop :=
  ∃ more, p.data.elems = d.coded :: d.known :: d.unknown :: d.matrix :: d.embeddings ::
    d.nceEmbeddings :: d.maxent :: more

/-- The numbers of floats in the slices of a load. -/
def matrixSize (header : MikolovRnnModelHeader) : UInt64 :=
  header.layerSize.toUInt64 * header.vocabSize

/-- What a load checks, and the memory that it reads. -/
structure Accepted (limits : VectorLimits) (model : ModelInfo DataPiece) (header : RnnModelHeader)
    (d : RnnData) : Prop where
  part : ∃ p, model.firstPartOf .Rnn = some p ∧ d.StartOf p
  coded : RnnModelHeader.load limits d.coded = .ok header
  matrix : d.matrix.size ≤ matrixSize header.rnnHeader * 4
  embeddings : d.embeddings.size ≤ matrixSize header.rnnHeader * 4
  nceEmbeddings : d.nceEmbeddings.size ≤ matrixSize header.rnnHeader * 4
  maxent : d.maxent.size ≤ header.rnnHeader.maxentSize * 4
  matrix_aligned : isAligned d.matrix.data 64 = true
  maxent_aligned : isAligned d.maxent.data 64 = true
  embeddings_aligned : isAligned d.embeddings.data 64 = true
  page : 4 * header.rnnHeader.layerSize.toNat ≤ 64 * 1024
  matrix_floats : 4 * (header.rnnHeader.layerSize.toNat * header.rnnHeader.layerSize.toNat) ≤
    d.matrix.chars.length
  embeddings_floats : 4 * header.rnnHeader.layerSize.toNat ≤ d.embeddings.chars.length

/-- The factory that is loaded, with the state at BOS. -/
def loaded (header : RnnModelHeader) (d : RnnData) (bosState : List UInt32) :
    GbeamRnnFactoryState where
  resolver := .setState header.fields d.known d.unknown header.unkIdx
  rnn :=
    { header := header.rnnHeader
      weights := ⟨d.matrix, matrixSize header.rnnHeader⟩
      maxentWeights := ⟨d.maxent, header.rnnHeader.maxentSize⟩
      rnnNceConstant :=
        if header.config.rnnWeight.defined then header.config.rnnWeight.value
        else header.rnnHeader.nceLnz }
  embeddings := ⟨⟨d.embeddings, matrixSize header.rnnHeader⟩,
    header.rnnHeader.layerSize.toUInt64, header.rnnHeader.vocabSize⟩
  nceEmbeddings := ⟨⟨d.nceEmbeddings, matrixSize header.rnnHeader⟩,
    header.rnnHeader.layerSize.toUInt64, header.rnnHeader.vocabSize⟩
  config := header.config
  codedBuf_ := []
  bosState := bosState

/-- The state at BOS is computed from the whole matrix and the first embedding. -/
def BosState (newContext : List UInt32 → List UInt32 → List UInt32 → List UInt32) (esize : Nat)
    (matrix embeddings : DataPiece) (bosState : List UInt32) : Prop :=
  ∃ nnWeight myEmb, readFloats (esize * esize) matrix.chars = some nnWeight ∧
    readFloats esize embeddings.chars = some myEmb ∧
      bosState = newContext nnWeight (List.replicate esize 0) myEmb

theorem exists_bosState {esize : Nat} {matrix embeddings : DataPiece}
    (hmatrix : 4 * (esize * esize) ≤ matrix.chars.length)
    (hembeddings : 4 * esize ≤ embeddings.chars.length) :
    ∃ bosState, BosState newContext esize matrix embeddings bosState := by
  obtain ⟨nnWeight, hnn⟩ := Option.isSome_iff_exists.mp ((readFloats_isSome_iff _ _).mpr hmatrix)
  obtain ⟨myEmb, hemb⟩ := Option.isSome_iff_exists.mp ((readFloats_isSome_iff _ _).mpr hembeddings)
  exact ⟨_, nnWeight, myEmb, hnn, hemb, rfl⟩

theorem BosState.matrix_floats {esize : Nat} {matrix embeddings : DataPiece}
    {bosState : List UInt32} (h : BosState newContext esize matrix embeddings bosState) :
    4 * (esize * esize) ≤ matrix.chars.length ∧ 4 * esize ≤ embeddings.chars.length := by
  obtain ⟨nnWeight, myEmb, hnn, hemb, -⟩ := h
  rw [← readFloats_isSome_iff, ← readFloats_isSome_iff, hnn, hemb]
  exact ⟨rfl, rfl⟩

theorem BosState.unique {esize : Nat} {matrix embeddings : DataPiece} {s s' : List UInt32}
    (h : BosState newContext esize matrix embeddings s)
    (h' : BosState newContext esize matrix embeddings s') : s' = s := by
  obtain ⟨nnWeight, myEmb, hnn, hemb, rfl⟩ := h
  obtain ⟨nnWeight', myEmb', hnn', hemb', rfl⟩ := h'
  cases hnn.symm.trans hnn'
  cases hemb.symm.trans hemb'
  rfl

theorem row_zero_memory (s : ConstSliceable) : (s.row 0).memory = s.data.memory := by
  obtain ⟨⟨⟨data, chars, hlt⟩, size⟩, rowSize, numRows⟩ := s
  simp [ConstSliceable.row]

theorem computeBosState_ok_iff {rnn : MikolovRnn} {embeddings : ConstSliceable}
    {bosState : List UInt32} : computeBosState newContext rnn embeddings 0 = .ok bosState ↔
      4 * rnn.header.layerSize.toNat ≤ 64 * 1024 ∧
        isAligned embeddings.data.memory.data 64 = true ∧
          BosState newContext rnn.header.layerSize.toNat rnn.weights.memory embeddings.data.memory
            bosState := by
  unfold computeBosState BosState
  simp only [throw_bind, ite_throw_ok_iff, bind_ok_iff, pure_ok_iff, floatsAt_ok_iff,
    row_zero_memory, Bool.not_eq_true', Bool.not_eq_false, Nat.not_lt]
  constructor
  · rintro ⟨hpage, haligned, nnWeight, hnn, myEmb, hemb, hbos⟩
    exact ⟨hpage, haligned, nnWeight, myEmb, hnn, hemb, hbos⟩
  · rintro ⟨hpage, haligned, nnWeight, myEmb, hnn, hemb, hbos⟩
    exact ⟨hpage, haligned, nnWeight, hnn, myEmb, hemb, hbos⟩

theorem arr1d_ok_iff {data : DataPiece} {expected : UInt64} {s : ArraySlice} :
    arr1d data expected = .ok s ↔ data.size ≤ expected * 4 ∧ s = ⟨data, expected⟩ := by
  simp only [arr1d, ite_throw_ok_iff, pure_ok_iff, UInt64.not_lt]

theorem arr2d_ok_iff {data : DataPiece} {nrows ncols : UInt64} {s : ConstSliceable} :
    arr2d data nrows ncols = .ok s ↔
      data.size ≤ nrows * ncols * 4 ∧ s = ⟨⟨data, nrows * ncols⟩, ncols, nrows⟩ := by
  simp only [arr2d, ite_throw_ok_iff, pure_ok_iff, UInt64.not_lt]

theorem rnnPart_ok_iff {model : ModelInfo DataPiece} {p : ModelPart DataPiece} :
    rnnPart model = .ok p ↔ model.firstPartOf .Rnn = some p := by
  unfold rnnPart
  cases model.firstPartOf .Rnn with
  | none =>
    constructor
    · intro h
      cases h
    · intro h
      cases h
  | some part => rw [pure_ok_iff, Option.some.injEq, eq_comm]

theorem dataAt_ok_iff {p : ModelPart DataPiece} {i : Nat} {data : DataPiece} :
    dataAt p i = .ok data ↔ p.data.elems[i]? = some data := by
  unfold dataAt
  cases p.data.elems[i]? with
  | none =>
    constructor
    · intro h
      cases h
    · intro h
      cases h
  | some piece => rw [pure_ok_iff, Option.some.injEq, eq_comm]

theorem startOf_iff {d : RnnData} {p : ModelPart DataPiece} : d.StartOf p ↔
    p.data.elems[0]? = some d.coded ∧ p.data.elems[1]? = some d.known ∧
      p.data.elems[2]? = some d.unknown ∧ p.data.elems[3]? = some d.matrix ∧
        p.data.elems[4]? = some d.embeddings ∧ p.data.elems[5]? = some d.nceEmbeddings ∧
          p.data.elems[6]? = some d.maxent := by
  unfold RnnData.StartOf
  constructor
  · rintro ⟨more, hmore⟩
    rw [hmore]
    exact ⟨rfl, rfl, rfl, rfl, rfl, rfl, rfl⟩
  · rintro ⟨h0, h1, h2, h3, h4, h5, h6⟩
    have hsplit : ∀ (l : List DataPiece) (i : Nat) (x : DataPiece), l[i]? = some x →
        l.drop i = x :: l.drop (i + 1) := by
      intro l i x hx
      obtain ⟨hi, hget⟩ := List.getElem?_eq_some_iff.mp hx
      rw [List.drop_eq_getElem_cons hi, hget]
    refine ⟨p.data.elems.drop 7, ?_⟩
    rw [← hsplit _ 6 _ h6, ← hsplit _ 5 _ h5, ← hsplit _ 4 _ h4, ← hsplit _ 3 _ h3,
      ← hsplit _ 2 _ h2, ← hsplit _ 1 _ h1, ← hsplit _ 0 _ h0, List.drop_zero]

/-- A load returns what its header and its pieces say, if they are accepted. -/
theorem load_ok_iff {model : ModelInfo DataPiece} {st : GbeamRnnFactoryState} :
    load newContext limits model = .ok st ↔ ∃ header d bosState, Accepted limits model header d ∧
      BosState newContext header.rnnHeader.layerSize.toNat d.matrix d.embeddings bosState ∧
        st = loaded header d bosState := by
  unfold load
  simp only [bind_ok_iff, pure_ok_iff, rnnPart_ok_iff, dataAt_ok_iff, rieMsg_ok_iff, arr1d_ok_iff,
    arr2d_ok_iff, MikolovRnn.init_ok_iff, computeBosState_ok_iff]
  constructor
  · rintro ⟨p, hp, coded, h0, header, hheader, known, h1, unknown, h2, matrix, h3, rnnMatrix,
      ⟨hmatrix, rfl⟩, emb, h4, embeddings, ⟨hemb, rfl⟩, nce, h5, nceEmbeddings, ⟨hnce, rfl⟩,
      maxent, h6, maxentWeights, ⟨hmaxent, rfl⟩, rnn, ⟨hma, hxa, rfl⟩, bosState,
      ⟨hpage, hea, hbos⟩, rfl⟩
    rw [UInt64.mul_comm header.rnnHeader.vocabSize] at hemb hnce
    obtain ⟨hfloats, hrow⟩ := hbos.matrix_floats
    refine ⟨header, ⟨coded, known, unknown, matrix, emb, nce, maxent⟩, bosState,
      ⟨⟨p, hp, startOf_iff.mpr ⟨h0, h1, h2, h3, h4, h5, h6⟩⟩, hheader, hmatrix, hemb, hnce,
        hmaxent, hma, hxa, hea, hpage, hfloats, hrow⟩, hbos, ?_⟩
    unfold loaded matrixSize MikolovRnn.setNceConstant
    rw [UInt64.mul_comm header.rnnHeader.vocabSize]
    cases header.config.rnnWeight.defined <;> rfl
  · rintro ⟨header, d, bosState, haccept, hbos, rfl⟩
    obtain ⟨p, hp, hstart⟩ := haccept.part
    obtain ⟨h0, h1, h2, h3, h4, h5, h6⟩ := startOf_iff.mp hstart
    refine ⟨p, hp, _, h0, header, haccept.coded, _, h1, _, h2, _, h3, _, ⟨haccept.matrix, rfl⟩,
      _, h4, _, ⟨?_, rfl⟩, _, h5, _, ⟨?_, rfl⟩, _, h6, _, ⟨haccept.maxent, rfl⟩, _,
      ⟨haccept.matrix_aligned, haccept.maxent_aligned, rfl⟩, bosState,
      ⟨haccept.page, haccept.embeddings_aligned, hbos⟩, ?_⟩
    · rw [UInt64.mul_comm header.rnnHeader.vocabSize]
      exact haccept.embeddings
    · rw [UInt64.mul_comm header.rnnHeader.vocabSize]
      exact haccept.nceEmbeddings
    · unfold loaded matrixSize MikolovRnn.setNceConstant
      rw [UInt64.mul_comm header.rnnHeader.vocabSize]
      cases header.config.rnnWeight.defined <;> rfl

/-! ## Slices and their parts -/

/-- Each slice of floats lies within its part. -/
structure Inside (st : GbeamRnnFactoryState) : Prop where
  weights : st.rnn.weights.Inside
  embeddings : st.embeddings.data.Inside
  nceEmbeddings : st.nceEmbeddings.data.Inside
  maxentWeights : st.rnn.maxentWeights.Inside

/-- No piece is cut. -/
structure Whole (header : RnnModelHeader) (d : RnnData) : Prop where
  matrix : d.matrix.chars.length = 4 * (matrixSize header.rnnHeader).toNat
  embeddings : d.embeddings.chars.length = 4 * (matrixSize header.rnnHeader).toNat
  nceEmbeddings : d.nceEmbeddings.chars.length = 4 * (matrixSize header.rnnHeader).toNat
  maxent : d.maxent.chars.length = 4 * header.rnnHeader.maxentSize.toNat

theorem Accepted.inside_loaded_iff {model : ModelInfo DataPiece} {header : RnnModelHeader}
    {d : RnnData} {bosState : List UInt32} (h : Accepted limits model header d) :
    Inside (loaded header d bosState) ↔ Whole header d := by
  constructor
  · intro hinside
    exact ⟨(ArraySlice.inside_iff_of_size_le h.matrix).mp hinside.weights,
      (ArraySlice.inside_iff_of_size_le h.embeddings).mp hinside.embeddings,
      (ArraySlice.inside_iff_of_size_le h.nceEmbeddings).mp hinside.nceEmbeddings,
      (ArraySlice.inside_iff_of_size_le h.maxent).mp hinside.maxentWeights⟩
  · intro hwhole
    exact ⟨(ArraySlice.inside_iff_of_size_le h.matrix).mpr hwhole.matrix,
      (ArraySlice.inside_iff_of_size_le h.embeddings).mpr hwhole.embeddings,
      (ArraySlice.inside_iff_of_size_le h.nceEmbeddings).mpr hwhole.nceEmbeddings,
      (ArraySlice.inside_iff_of_size_le h.maxent).mpr hwhole.maxent⟩

/-- A cut piece is not noticed: pieces that are too long are refused instead. -/
theorem load_inside_iff (model : ModelInfo DataPiece) :
    (∀ st, load newContext limits model = .ok st → Inside st) ↔
      ∀ header d, Accepted limits model header d → Whole header d := by
  constructor
  · intro h header d haccept
    obtain ⟨bosState, hbos⟩ : ∃ bosState, BosState newContext header.rnnHeader.layerSize.toNat
        d.matrix d.embeddings bosState :=
      exists_bosState haccept.matrix_floats haccept.embeddings_floats
    have hload := load_ok_iff.mpr ⟨header, d, bosState, haccept, hbos, rfl⟩
    exact haccept.inside_loaded_iff.mp (h _ hload)
  · intro h st hst
    obtain ⟨header, d, bosState, haccept, -, rfl⟩ := load_ok_iff.mp hst
    exact haccept.inside_loaded_iff.mpr (h header d haccept)

/-! ## What is made and saved -/

/-- The constant before saving. -/
def nceConstant (header : MikolovRnnModelHeader) (config : RnnInferenceConfig) : UInt32 :=
  if config.nceBias.defined then config.nceBias.value else header.nceLnz

structure Made (newContext : List UInt32 → List UInt32 → List UInt32 → List UInt32)
    (reader : MikolovModelReader) (config : RnnInferenceConfig) (st : GbeamRnnFactoryState) :
    Prop where
  rnn : st.rnn = ⟨reader.header, reader.rnnMatrix, reader.maxentWeights,
    nceConstant reader.header config⟩
  embeddings : st.embeddings =
    ⟨reader.embeddings, reader.header.layerSize.toUInt64, reader.header.vocabSize⟩
  nceEmbeddings : st.nceEmbeddings =
    ⟨reader.nceEmbeddings, reader.header.layerSize.toUInt64, reader.header.vocabSize⟩
  config : st.config = RnnInferenceConfig.initial.mergeWith config
  codedBuf : st.codedBuf_ = []
  page : 4 * reader.header.layerSize.toNat ≤ 64 * 1024
  bosState : BosState newContext reader.header.layerSize.toNat reader.rnnMatrix.memory
    reader.embeddings.memory st.bosState

theorem setConfig_initial (config : RnnInferenceConfig) (header : MikolovRnnModelHeader)
    (weights maxentW : ArraySlice) :
    setConfig config (.initial, ⟨header, weights, maxentW, header.nceLnz⟩) =
      (RnnInferenceConfig.initial.mergeWith config,
        ⟨header, weights, maxentW, nceConstant header config⟩) := by
  have hdefined : (RnnInferenceConfig.initial.mergeWith config).nceBias.defined =
      config.nceBias.defined := Cfg.defined_mergeWith_ofDefault _ _
  unfold setConfig nceConstant
  show (if (RnnInferenceConfig.initial.mergeWith config).nceBias.defined then _ else _) = _
  rw [hdefined]
  by_cases h : config.nceBias.defined = true
  · have hvalue : (RnnInferenceConfig.initial.mergeWith config).nceBias.value =
        config.nceBias.value := Cfg.value_mergeWith_of_defined h _
    rw [if_pos h, if_pos h, ← hvalue]
    rfl
  · rw [if_neg h, if_neg h]

theorem made_of_make
    {build : RnnInferenceConfig → List (List UInt8) → Except Stop RnnIdResolverState}
    {reader : MikolovModelReader} {config : RnnInferenceConfig} {st : GbeamRnnFactoryState}
    (h : make newContext build reader config = .ok st) : Made newContext reader config st := by
  unfold make at h
  simp only [throw_bind, ite_throw_ok_iff, bind_ok_iff, pure_ok_iff, MikolovRnn.init_ok_iff] at h
  obtain ⟨rnn, ⟨-, -, rfl⟩, h⟩ := h
  rw [setConfig_initial] at h
  simp only [computeBosState_ok_iff] at h
  obtain ⟨resolver, -, -, bosState, ⟨hpage, -, hbos⟩, rfl⟩ := h
  exact ⟨rfl, rfl, rfl, rfl, rfl, hpage, hbos⟩

/-- What `makeInfo` saves. -/
def savedHeader (st : GbeamRnnFactoryState) : RnnModelHeader :=
  ⟨st.config, st.resolver.unkId_, st.resolver.fields_, st.rnn.header⟩

def savedData (coded : DataPiece) (st : GbeamRnnFactoryState) : RnnData where
  coded := coded
  known := st.resolver.knownIndex_.contents
  unknown := st.resolver.unkIndex_.contents
  matrix := st.rnn.weights.memory
  embeddings := st.embeddings.data.memory
  nceEmbeddings := st.nceEmbeddings.data.memory
  maxent := st.rnn.maxentWeights.memory

theorem codedPiece_ok_iff {contents : List UInt8} {coded : DataPiece} :
    codedPiece contents = .ok coded ↔ ∃ h, coded = ⟨0, contents, h⟩ := by
  unfold codedPiece
  by_cases h : contents.length < 2 ^ 63
  · rw [dif_pos h, pure_ok_iff]
    exact ⟨fun hc => ⟨h, hc⟩, fun ⟨_, hc⟩ => hc⟩
  · rw [dif_neg h]
    constructor
    · intro hc
      cases hc
    · exact fun ⟨hc, _⟩ => absurd hc h

theorem emplaceBack_ok_iff {info info' : ModelInfo DataPiece} {part : ModelPart DataPiece} :
    emplaceBack info part = .ok info' ↔ info.parts.elems.length + 1 < 2 ^ 64 ∧
      info'.parts.elems = info.parts.elems ++ [part] := by
  unfold emplaceBack
  by_cases h : info.parts.elems.length + 1 < 2 ^ 64
  · rw [dif_pos h, pure_ok_iff]
    constructor
    · rintro rfl
      exact ⟨h, rfl⟩
    · rintro ⟨-, hparts⟩
      obtain ⟨parts⟩ := info'
      exact congrArg ModelInfo.mk (StdList.ext hparts)
  · rw [dif_neg h]
    constructor
    · intro hc
      cases hc
    · exact fun hc => absurd hc.1 h

theorem Made.makeInfo_ok_iff {reader : MikolovModelReader} {config : RnnInferenceConfig}
    {st st' : GbeamRnnFactoryState} (h : Made newContext reader config st)
    {info info' : ModelInfo DataPiece} {comment : StdString} :
    makeInfo (some st) info comment = .ok (info', st') ↔
      ∃ hlt : (savedHeader st).save.length < 2 ^ 63, ∃ part : ModelPart DataPiece,
        part.kind = .of .Rnn ∧ part.comment = comment ∧
          part.data.elems = [⟨0, (savedHeader st).save, hlt⟩, st.resolver.knownIndex_.contents,
            st.resolver.unkIndex_.contents, st.rnn.weights.memory, st.embeddings.data.memory,
            st.nceEmbeddings.data.memory, st.rnn.maxentWeights.memory] ∧
        info.parts.elems.length + 1 < 2 ^ 64 ∧ info'.parts.elems = info.parts.elems ++ [part] ∧
          st' = { st with codedBuf_ := (savedHeader st).save } := by
  have hweights : st.rnn.weights.asStringPiece = .ok st.rnn.weights.memory := by
    rw [h.rnn]
    exact reader.rnnMatrix_alloc.asStringPiece
  have hmaxent : st.rnn.maxentWeights.asStringPiece = .ok st.rnn.maxentWeights.memory := by
    rw [h.rnn]
    exact reader.maxentWeights_alloc.asStringPiece
  have hembeddings : st.embeddings.data.asStringPiece = .ok st.embeddings.data.memory := by
    rw [h.embeddings]
    exact reader.embeddings_alloc.asStringPiece
  have hnce : st.nceEmbeddings.data.asStringPiece = .ok st.nceEmbeddings.data.memory := by
    rw [h.nceEmbeddings]
    exact reader.nceEmbeddings_alloc.asStringPiece
  unfold makeInfo
  simp only [bind_ok_iff, pure_ok_iff, codedPiece_ok_iff, emplaceBack_ok_iff, hweights, hmaxent,
    hembeddings, hnce, h.codedBuf, List.nil_append, Except.ok.injEq, Prod.mk.injEq]
  constructor
  · rintro ⟨coded, ⟨hlt, rfl⟩, _, rfl, _, rfl, _, rfl, _, rfl, info'', ⟨hroom, hparts⟩, rfl, rfl⟩
    exact ⟨hlt, _, rfl, rfl, rfl, hroom, hparts, rfl⟩
  · rintro ⟨hlt, ⟨kind, partComment, data⟩, rfl, rfl, hdata, hroom, hparts, rfl⟩
    refine ⟨_, ⟨hlt, rfl⟩, _, rfl, _, rfl, _, rfl, _, rfl, info', ⟨hroom, ?_⟩, rfl, rfl⟩
    rw [hparts, show data = ⟨_, by simp⟩ from StdList.ext hdata]
    rfl

/-! ## What was made is restored -/

/-- The same number of floats, and the same floats. -/
structure Same (s s' : ArraySlice) : Prop where
  size : s'.size = s.size
  floats : s'.floats = s.floats

/-- The scorer of `st'` is the one of `st`. -/
structure Restored (st st' : GbeamRnnFactoryState) : Prop where
  resolver : st'.resolver = st.resolver
  header : st'.rnn.header = st.rnn.header
  weights : Same st.rnn.weights st'.rnn.weights
  maxentWeights : Same st.rnn.maxentWeights st'.rnn.maxentWeights
  embeddings : Same st.embeddings.data st'.embeddings.data
  embeddings_rows : st'.embeddings.rowSize = st.embeddings.rowSize ∧
    st'.embeddings.numRows = st.embeddings.numRows
  nceEmbeddings : Same st.nceEmbeddings.data st'.nceEmbeddings.data
  nceEmbeddings_rows : st'.nceEmbeddings.rowSize = st.nceEmbeddings.rowSize ∧
    st'.nceEmbeddings.numRows = st.nceEmbeddings.numRows
  nceConstant : st'.rnn.rnnNceConstant = st.rnn.rnnNceConstant
  config : st'.config = st.config
  bosState : st'.bosState = st.bosState

/-- The matrix of the network has as many floats as an embedding matrix, the weight of the network
stands for its bias, and an `int` counts the fields. -/
structure Restorable (header : MikolovRnnModelHeader) (config : RnnInferenceConfig)
    (fields : StdList UInt32) : Prop where
  matrix : header.layerSize.toUInt64 * header.vocabSize =
    header.layerSize.toUInt64 * header.layerSize.toUInt64
  constant : (if config.rnnWeight.defined then config.rnnWeight.value else header.nceLnz) =
    if config.nceBias.defined then config.nceBias.value else header.nceLnz
  rnnFields : (RnnInferenceConfig.initial.mergeWith config).rnnFields.value.elems.length < 2 ^ 31
  fields : fields.elems.length < 2 ^ 31

theorem Same.refl (s : ArraySlice) : Same s s := ⟨rfl, rfl⟩

section Saved

variable {reader : MikolovModelReader} {config : RnnInferenceConfig} {st : GbeamRnnFactoryState}
  {info : ModelInfo DataPiece} {part : ModelPart DataPiece}

theorem firstPartOf_of_parts {info' : ModelInfo DataPiece}
    (hparts : info'.parts.elems = info.parts.elems ++ [part]) (hkind : part.kind = .of .Rnn) :
    info'.firstPartOf .Rnn = (info.firstPartOf .Rnn).or (some part) := by
  unfold ModelInfo.firstPartOf
  rw [hparts, List.find?_append, List.find?_cons, hkind]
  rfl

/-- Of the checks only the one of the matrix can fail. -/
theorem Made.accepted_iff (h : Made newContext reader config st)
    (hlt : (savedHeader st).save.length < 2 ^ 63) (hfirst : info.firstPartOf .Rnn = some part)
    (hdata : part.data.elems = [⟨0, (savedHeader st).save, hlt⟩,
      st.resolver.knownIndex_.contents, st.resolver.unkIndex_.contents, st.rnn.weights.memory,
      st.embeddings.data.memory, st.nceEmbeddings.data.memory, st.rnn.maxentWeights.memory])
    {header : RnnModelHeader} {d : RnnData} :
    Accepted limits info header d ↔
      (st.config.rnnFields.value.elems.length < 2 ^ 31 ∧
        st.resolver.fields_.elems.length < 2 ^ 31) ∧
      header = savedHeader st ∧ d = savedData ⟨0, (savedHeader st).save, hlt⟩ st ∧
        reader.rnnMatrix.memory.size ≤ matrixSize reader.header * 4 := by
  have hstart : ∀ {d : RnnData}, d.StartOf part ↔
      d = savedData ⟨0, (savedHeader st).save, hlt⟩ st := by
    intro d
    rw [startOf_iff, hdata]
    simp only [List.getElem?_cons_zero, List.getElem?_cons_succ, Option.some.injEq]
    constructor
    · rintro ⟨h0, h1, h2, h3, h4, h5, h6⟩
      cases d
      simp only [savedData, RnnData.mk.injEq]
      exact ⟨h0.symm, h1.symm, h2.symm, h3.symm, h4.symm, h5.symm, h6.symm⟩
    · rintro rfl
      exact ⟨rfl, rfl, rfl, rfl, rfl, rfl, rfl⟩
  have hheader : st.rnn.header = reader.header := by rw [h.rnn]
  have hmatrix : st.rnn.weights.memory = reader.rnnMatrix.memory := by rw [h.rnn]
  constructor
  · intro haccept
    obtain ⟨p, hp, hp'⟩ := haccept.part
    obtain rfl : part = p := Option.some.inj (hfirst.symm.trans hp)
    obtain rfl := hstart.mp hp'
    obtain ⟨hfits, rfl⟩ := (RnnModelHeader.load_save_iff rfl).mp haccept.coded
    have hle : st.rnn.weights.memory.size ≤ matrixSize st.rnn.header * 4 := haccept.matrix
    rw [hheader, hmatrix] at hle
    exact ⟨hfits, rfl, rfl, hle⟩
  · rintro ⟨hfits, rfl, rfl, hle⟩
    have hbos := h.bosState.matrix_floats
    constructor
    · exact ⟨part, hfirst, hstart.mpr rfl⟩
    · exact (RnnModelHeader.load_save_iff rfl).mpr ⟨hfits, rfl⟩
    · show st.rnn.weights.memory.size ≤ matrixSize st.rnn.header * 4
      rw [hheader, hmatrix]
      exact hle
    · show st.embeddings.data.memory.size ≤ matrixSize st.rnn.header * 4
      rw [hheader, h.embeddings]
      exact reader.embeddings_alloc.size_le
    · show st.nceEmbeddings.data.memory.size ≤ matrixSize st.rnn.header * 4
      rw [hheader, h.nceEmbeddings]
      exact reader.nceEmbeddings_alloc.size_le
    · show st.rnn.maxentWeights.memory.size ≤ st.rnn.header.maxentSize * 4
      rw [h.rnn]
      exact reader.maxentWeights_alloc.size_le
    · show isAligned st.rnn.weights.memory.data 64 = true
      rw [hmatrix]
      exact reader.rnnMatrix_alloc.aligned
    · show isAligned st.rnn.maxentWeights.memory.data 64 = true
      rw [h.rnn]
      exact reader.maxentWeights_alloc.aligned
    · show isAligned st.embeddings.data.memory.data 64 = true
      rw [h.embeddings]
      exact reader.embeddings_alloc.aligned
    · show 4 * st.rnn.header.layerSize.toNat ≤ 64 * 1024
      rw [hheader]
      exact h.page
    · show 4 * (st.rnn.header.layerSize.toNat * st.rnn.header.layerSize.toNat) ≤
        st.rnn.weights.memory.chars.length
      rw [hheader, hmatrix]
      exact hbos.1
    · show 4 * st.rnn.header.layerSize.toNat ≤ st.embeddings.data.memory.chars.length
      rw [hheader, h.embeddings]
      exact hbos.2

/-- The constant of a loaded factory, in the words of the configuration that it was made with. -/
theorem Made.loadedConstant (h : Made newContext reader config st) :
    (if st.config.rnnWeight.defined then st.config.rnnWeight.value else st.rnn.header.nceLnz) =
      if config.rnnWeight.defined then config.rnnWeight.value else reader.header.nceLnz := by
  have hdefined : (RnnInferenceConfig.initial.mergeWith config).rnnWeight.defined =
      config.rnnWeight.defined := Cfg.defined_mergeWith_ofDefault _ _
  rw [h.config, h.rnn, hdefined]
  by_cases hw : config.rnnWeight.defined = true
  · rw [if_pos hw, if_pos hw]
    exact Cfg.value_mergeWith_of_defined hw _
  · rw [if_neg hw, if_neg hw]

theorem Made.restored_loaded (h : Made newContext reader config st) (coded : DataPiece)
    (hwhen : Restorable reader.header config st.resolver.fields_) :
    Restored st (loaded (savedHeader st) (savedData coded st) st.bosState) := by
  have hheader : st.rnn.header = reader.header := by rw [h.rnn]
  have hsize : ∀ {s : ArraySlice}, s.size = matrixSize reader.header →
      Same s ⟨s.memory, matrixSize st.rnn.header⟩ := by
    intro s hs
    rw [hheader, ← hs]
    exact Same.refl s
  constructor
  · show RnnIdResolverState.setState st.resolver.fields_ st.resolver.knownIndex_.contents
      st.resolver.unkIndex_.contents st.resolver.unkId_ = st.resolver
    unfold RnnIdResolverState.setState
    rw [DoubleArray.loadFromMemory_contents, DoubleArray.loadFromMemory_contents]
  · rfl
  · apply hsize
    rw [h.rnn]
    exact reader.rnnMatrix_alloc.size.trans hwhen.matrix.symm
  · show Same st.rnn.maxentWeights ⟨st.rnn.maxentWeights.memory, st.rnn.header.maxentSize⟩
    rw [h.rnn, ← reader.maxentWeights_alloc.size]
    exact Same.refl _
  · apply hsize
    rw [h.embeddings]
    exact reader.embeddings_alloc.size
  · rw [h.embeddings, ← hheader]
    exact ⟨rfl, rfl⟩
  · apply hsize
    rw [h.nceEmbeddings]
    exact reader.nceEmbeddings_alloc.size
  · rw [h.nceEmbeddings, ← hheader]
    exact ⟨rfl, rfl⟩
  · refine h.loadedConstant.trans (hwhen.constant.trans ?_)
    rw [h.rnn]
    rfl
  · rfl
  · rfl

/-- A part that is loaded is restored exactly when the condition holds. -/
theorem Made.load_restored_iff (h : Made newContext reader config st)
    (hlt : (savedHeader st).save.length < 2 ^ 63) (hfirst : info.firstPartOf .Rnn = some part)
    (hdata : part.data.elems = [⟨0, (savedHeader st).save, hlt⟩,
      st.resolver.knownIndex_.contents, st.resolver.unkIndex_.contents, st.rnn.weights.memory,
      st.embeddings.data.memory, st.nceEmbeddings.data.memory, st.rnn.maxentWeights.memory]) :
    (∃ st', load newContext limits info = .ok st' ∧ Restored st st') ↔
      Restorable reader.header config st.resolver.fields_ := by
  constructor
  · rintro ⟨st', hload, hrestored⟩
    obtain ⟨header, d, bosState, haccept, -, rfl⟩ := load_ok_iff.mp hload
    obtain ⟨⟨hrnnFields, hfields⟩, rfl, rfl, -⟩ := (h.accepted_iff hlt hfirst hdata).mp haccept
    constructor
    · have hsize : matrixSize st.rnn.header = st.rnn.weights.size := hrestored.weights.size
      rw [h.rnn] at hsize
      exact hsize.trans reader.rnnMatrix_alloc.size
    · have hconstant : (if st.config.rnnWeight.defined then st.config.rnnWeight.value
          else st.rnn.header.nceLnz) = st.rnn.rnnNceConstant := hrestored.nceConstant
      rw [h.loadedConstant] at hconstant
      rw [hconstant, h.rnn]
      rfl
    · rw [← h.config]
      exact hrnnFields
    · exact hfields
  · intro hwhen
    have hrnnFields := hwhen.rnnFields
    rw [← h.config] at hrnnFields
    have hle := reader.rnnMatrix_alloc.size_le
    rw [← hwhen.matrix] at hle
    have haccept : Accepted limits info (savedHeader st)
        (savedData ⟨0, (savedHeader st).save, hlt⟩ st) :=
      (h.accepted_iff hlt hfirst hdata).mpr ⟨⟨hrnnFields, hwhen.fields⟩, rfl, rfl, hle⟩
    have hbos : BosState newContext (savedHeader st).rnnHeader.layerSize.toNat
        st.rnn.weights.memory st.embeddings.data.memory st.bosState := by
      show BosState newContext st.rnn.header.layerSize.toNat _ _ _
      rw [h.rnn, h.embeddings]
      exact h.bosState
    exact ⟨_, load_ok_iff.mpr ⟨_, _, _, haccept, hbos, rfl⟩, h.restored_loaded _ hwhen⟩

end Saved

def zeroPiece (count : Nat) (h : count < 100) : DataPiece :=
  ⟨0, List.replicate count 0, by
    rw [List.length_replicate]
    omega⟩

def twoWordReader : MikolovModelReader where
  header := ⟨1, 1, 0, 2, 0⟩
  words := [[0x3c, 0x2f, 0x73, 0x3e], [0x61]]
  rnnMatrix := ⟨zeroPiece 4 (by decide), 1⟩
  embeddings := ⟨zeroPiece 8 (by decide), 2⟩
  nceEmbeddings := ⟨zeroPiece 8 (by decide), 2⟩
  maxentWeights := ⟨zeroPiece 0 (by decide), 0⟩
  vocabSize_eq := rfl
  rnnMatrix_alloc := ⟨rfl, rfl, rfl⟩
  embeddings_alloc := ⟨rfl, rfl, rfl⟩
  nceEmbeddings_alloc := ⟨rfl, rfl, rfl⟩
  maxentWeights_alloc := ⟨rfl, rfl, rfl⟩

def emptyArray : DoubleArray := ⟨zeroPiece 0 (by decide), rfl⟩

def emptyResolver : RnnIdResolverState := ⟨.empty, emptyArray, emptyArray, 1⟩

def twoWordState : GbeamRnnFactoryState where
  resolver := emptyResolver
  rnn := ⟨⟨1, 1, 0, 2, 0⟩, ⟨zeroPiece 4 (by decide), 1⟩, ⟨zeroPiece 0 (by decide), 0⟩, 0⟩
  embeddings := ⟨⟨zeroPiece 8 (by decide), 2⟩, 1, 2⟩
  nceEmbeddings := ⟨⟨zeroPiece 8 (by decide), 2⟩, 1, 2⟩
  config := .initial
  codedBuf_ := []
  bosState := [0]

theorem make_twoWord : make (fun _ _ myEmb => myEmb) (fun _ _ => .ok emptyResolver) twoWordReader
    .initial = .ok twoWordState := rfl

theorem length_save_twoWord : (savedHeader twoWordState).save.length < 2 ^ 63 := by
  have hsmall : ∀ v : UInt64, v.toNat < 128 → (writeVarint v).length = 1 := by
    intro v hv
    rw [writeVarint_singleton hv]
    rfl
  simp [savedHeader, twoWordState, emptyResolver, RnnModelHeader.save, RnnModelHeader.toValue,
    Members.serializeSave, Member.doSerializeSave, Cfg.doSerializeSave, SerialType.doSerializeSave,
    Scalar.save, Scalar.saveI32, RnnInferenceConfig.initial, Cfg.ofDefault, writeString,
    writeFixed32, StdList.empty, StdList.size, hsmall, show (1 : Int32).toUInt32 = 1 from rfl]

theorem exists_makeInfo_twoWord : ∃ info' st', makeInfo (some twoWordState) ⟨.empty⟩ .empty =
    .ok (info', st') := by
  have hmade := made_of_make make_twoWord
  exact ⟨⟨⟨[⟨.of .Rnn, .empty, ⟨_, by simp⟩⟩], by simp⟩⟩, _, hmade.makeInfo_ok_iff.mpr
    ⟨length_save_twoWord, _, rfl, rfl, rfl, by decide, rfl, rfl⟩⟩

end RnnScorerGbeamFactory

end Jumanpp.Core.Analysis.Rnn
