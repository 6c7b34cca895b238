import Jumanpp.Core.Dic.EntryWalks

/-!
# Locating the entries of the result

A formatter walks over the entries of a lattice with one walker, which keeps the buffer of the last
entry.  A marker of the beginning or the end writes its row over the features but leaves the list of an
alias that has been located before.
-/

namespace Jumanpp.Core.Dic.DicEntryBuffer

variable (buf : DicEntryBuffer)

def setCounts (numFeatures numData : Nat) (h : numFeatures + numData ≤ JPP_MAX_DIC_FIELDS) :
    DicEntryBuffer :=
  { buf with numFeatures := numFeatures, numData := numData, counts_le := h }

def overwriteFeaturesWith (newFeatures : List Int32)
    (h : newFeatures.length ≤ JPP_MAX_DIC_FIELDS) : DicEntryBuffer :=
  buf.storeFeatures newFeatures h

/-- The step counter is stored too. -/
def fillFeaturesWithValue (value : Int32) : DicEntryBuffer :=
  { buf with
    featureBuffer := List.replicate JPP_MAX_DIC_FIELDS value
    dataBuffer := buf.dataBuffer.set 0 0
    featureBuffer_length := List.length_replicate
    dataBuffer_length := by rw [List.length_set, buf.dataBuffer_length] }

/-- `remainingData_` stays as it is. -/
def fillDataWithValue (value : Int32) : DicEntryBuffer :=
  { buf with
    featureBuffer := buf.featureBuffer.take buf.numFeatures ++ (List.replicate buf.numData value ++
      buf.featureBuffer.drop (buf.numFeatures + buf.numData))
    dataBuffer := buf.dataBuffer.set 0 1
    featureBuffer_length := by
      have hcounts := buf.counts_le
      rw [List.length_append, List.length_append, List.length_take, List.length_drop,
        List.length_replicate, buf.featureBuffer_length]
      omega
    dataBuffer_length := by rw [List.length_set, buf.dataBuffer_length] }

end Jumanpp.Core.Dic.DicEntryBuffer

namespace Jumanpp.Core.Analysis

open Jumanpp.Core.Dic

def EntryPtr.Invalid : EntryPtr := -2147483644

namespace Output

/-- The header and the content of an unknown word; its pattern is an entry of the dictionary. -/
structure UnkNode (numFeatures : Nat) where
  templatePtr : EntryPtr
  content : List Int32
  templatePtr_nonneg : 0 ≤ templatePtr
  content_length : content.length = numFeatures

/-- `ExtraNodeType`: only the nodes of unknown words have a content to show. -/
inductive ExtraNode (numFeatures : Nat)
  | unknown (unk : UnkNode numFeatures)
  | alias

/-- What is read of the dictionary and of the extra nodes of the analysis. -/
structure OutputManager where
  numFeatures : Nat
  numData : Nat
  entryData : List UInt8
  extraNodes : List (ExtraNode numFeatures)
  counts_le : numFeatures + numData ≤ JPP_MAX_DIC_FIELDS

structure NodeWalker where
  buffer : DicEntryBuffer
  current : EntryPtr

namespace NodeWalker

def next (w : NodeWalker) : Bool × NodeWalker :=
  (w.buffer.nextData.1, { w with buffer := w.buffer.nextData.2 })

/-- A walker that has located nothing: its arrays hold what the memory held. -/
def Fresh (w : NodeWalker) : Prop :=
  w.buffer.remainingData.length = 0

end NodeWalker

namespace OutputManager

variable (mgr : OutputManager)

/-- `ExtraNodesContext::node`; the index is `~ptr`. -/
def node (ptr : EntryPtr) : Option (ExtraNode mgr.numFeatures) :=
  mgr.extraNodes[(-ptr - 1).toNat]?

variable {mgr} in
theorem content_le (unk : UnkNode mgr.numFeatures) : unk.content.length ≤ JPP_MAX_DIC_FIELDS := by
  have hcounts := mgr.counts_le
  rw [unk.content_length]
  omega

def setBuffer (w : NodeWalker) : DicEntryBuffer :=
  w.buffer.setCounts mgr.numFeatures mgr.numData mgr.counts_le

/-- Nothing stands for a pointer behind the extra nodes and for a store behind the end of the buffer,
which are undefined.  The result of `fillFromStorage` is ignored. -/
def locate (ptr : EntryPtr) (w : NodeWalker) : Option (Bool × NodeWalker) :=
  if ptr < 0 then
    if ptr = EntryPtr.BOS ∨ ptr = EntryPtr.EOS then
      some (true,
        ⟨((mgr.setBuffer w).fillFeaturesWithValue (Int32.ofInt ptr)).fillDataWithValue 0, ptr⟩)
    else if ptr = EntryPtr.Invalid then some (false, ⟨mgr.setBuffer w, ptr⟩)
    else
      match mgr.node ptr with
      | none => none
      | some (.unknown unk) =>
          ((mgr.setBuffer w).fillFromStorage unk.templatePtr mgr.entryData).map fun read =>
            (true, ⟨read.2.overwriteFeaturesWith unk.content (content_le unk), ptr⟩)
      | some .alias => some (false, ⟨mgr.setBuffer w, ptr⟩)
  else
    ((mgr.setBuffer w).fillFromStorage ptr mgr.entryData).map fun read => (true, ⟨read.2, ptr⟩)

/-! ## The use of a walker -/

inductive Call
  | locate (ptr : EntryPtr)
  | next

def call (w : NodeWalker) : Call → Option NodeWalker
  | .locate ptr => (mgr.locate ptr w).map Prod.snd
  | .next => some w.next.2

/-- A walker that is used again and again; a walk may stop at any row. -/
def run (calls : List Call) (w : NodeWalker) : Option NodeWalker :=
  calls.foldlM mgr.call w

variable {mgr} {w w' fresh : NodeWalker} {ptr stored : EntryPtr}

/-- A list that is still read belongs to the manager's rows. -/
def Kept (mgr : OutputManager) (w : NodeWalker) : Prop :=
  w.buffer.remainingData.length = 0 ∨ (w.buffer.numData = mgr.numData ∧ 0 < mgr.numData)

theorem Kept.setBuffer (h : mgr.Kept w) :
    (mgr.setBuffer w).remainingData.length = 0 ∨ 0 < mgr.numData :=
  h.imp_right And.right

theorem Kept.fillFromStorage {found : Bool} {filled : DicEntryBuffer} (h : mgr.Kept w)
    (hfill : (mgr.setBuffer w).fillFromStorage stored mgr.entryData = some (found, filled)) :
    filled.numData = mgr.numData ∧ (filled.remainingData.length = 0 ∨ 0 < mgr.numData) := by
  obtain ⟨-, hdata, hrest⟩ := DicEntryBuffer.fillFromStorage_frame hfill
  refine ⟨hdata, ?_⟩
  rcases hrest with hzero | hsame | hpos
  · exact .inl hzero
  · rw [hsame]
    exact h.setBuffer
  · exact .inr hpos

theorem Kept.locate {found : Bool} (h : mgr.Kept w) (hlocate : mgr.locate ptr w = some (found, w')) :
    mgr.Kept w' := by
  have hset : mgr.Kept ⟨mgr.setBuffer w, ptr⟩ := h.setBuffer.imp_right fun hpos => ⟨rfl, hpos⟩
  unfold OutputManager.locate at hlocate
  split at hlocate
  next =>
    split at hlocate
    next =>
      cases hlocate
      exact hset
    next =>
      split at hlocate
      next =>
        cases hlocate
        exact hset
      next =>
        split at hlocate
        next => cases hlocate
        next unk _ =>
          obtain ⟨⟨found', filled⟩, hfill, hread⟩ := Option.map_eq_some_iff.mp hlocate
          cases hread
          obtain ⟨hdata, hrest⟩ := h.fillFromStorage hfill
          exact hrest.imp_right fun hpos => ⟨hdata, hpos⟩
        next =>
          cases hlocate
          exact hset
  next =>
    obtain ⟨⟨found', filled⟩, hfill, hread⟩ := Option.map_eq_some_iff.mp hlocate
    cases hread
    obtain ⟨hdata, hrest⟩ := h.fillFromStorage hfill
    exact hrest.imp_right fun hpos => ⟨hdata, hpos⟩

theorem Kept.next (h : mgr.Kept w) : mgr.Kept w.next.2 := by
  obtain ⟨-, hdata, hlength⟩ := @DicEntryBuffer.nextData_frame w.buffer
  unfold Kept NodeWalker.next
  rw [hdata, hlength]
  exact h

theorem Kept.run {calls : List Call} (h : mgr.Kept w) (hrun : mgr.run calls w = some w') :
    mgr.Kept w' := by
  induction calls generalizing w with
  | nil =>
      cases hrun
      exact h
  | cons c calls ih =>
      obtain ⟨w₁, hcall, hrest⟩ := Option.bind_eq_some_iff.mp hrun
      refine ih ?_ hrest
      cases c with
      | locate ptr =>
          obtain ⟨⟨found, w₂⟩, hlocate, hw⟩ := Option.map_eq_some_iff.mp hcall
          cases hw
          exact h.locate hlocate
      | next =>
          cases hcall
          exact h.next

/-! ## What is seen of an entry -/

variable (mgr) in
/-- The entry of the dictionary that is read for a pointer, the pattern of an unknown word. -/
def storedPtr (ptr : EntryPtr) : Option EntryPtr :=
  if ptr < 0 then
    if ptr = EntryPtr.BOS ∨ ptr = EntryPtr.EOS ∨ ptr = EntryPtr.Invalid then none
    else
      match mgr.node ptr with
      | some (.unknown unk) => some unk.templatePtr
      | _ => none
  else some ptr

variable (mgr) in
/-- The markers, the entries of the dictionary and the unknown words. -/
def Holds (ptr : EntryPtr) : Prop :=
  (ptr = EntryPtr.BOS ∨ ptr = EntryPtr.EOS) ∨ ∃ stored, mgr.storedPtr ptr = some stored ∧
    DicEntryBuffer.Readable mgr.numFeatures mgr.numData stored mgr.entryData

/-- The row of a marker is written behind the features and counted once; the list that has been left
is not touched. -/
theorem locate_marker (h : ptr = EntryPtr.BOS ∨ ptr = EntryPtr.EOS) (w : NodeWalker) :
    ∃ w', mgr.locate ptr w = some (true, w') ∧ w'.current = ptr ∧
      w'.buffer.features = List.replicate mgr.numFeatures (Int32.ofInt ptr) ∧
      w'.buffer.numData = mgr.numData ∧ w'.buffer.remainingData = w.buffer.remainingData ∧
      w'.buffer.rowsLeft = 1 ∧
      w'.buffer.columns = List.replicate mgr.numData 0 := by
  have hcounts := mgr.counts_le
  have hneg : ptr < 0 := by
    rcases h with rfl | rfl <;> decide
  have htake : ((List.replicate JPP_MAX_DIC_FIELDS (Int32.ofInt ptr)).take mgr.numFeatures).length =
      mgr.numFeatures := by
    rw [List.length_take, List.length_replicate]
    omega
  unfold locate
  rw [if_pos hneg, if_pos h]
  refine ⟨_, rfl, rfl, ?_, rfl, rfl, ?_, ?_⟩
  · show ((List.replicate JPP_MAX_DIC_FIELDS (Int32.ofInt ptr)).take mgr.numFeatures ++ _).take
      mgr.numFeatures = _
    rw [List.take_append_of_le_length (by omega), List.take_take, Nat.min_self, List.take_replicate,
      Nat.min_eq_left (by omega)]
  · show (((w.buffer.dataBuffer.set 0 0).set 0 1).getD 0 0).toInt = 1
    have hpos : 0 < (w.buffer.dataBuffer.set 0 0).length := by
      rw [List.length_set, w.buffer.dataBuffer_length]
      decide
    rw [List.getD_eq_getElem?_getD, List.getElem?_set_self hpos]
    rfl
  · show (((List.replicate JPP_MAX_DIC_FIELDS (Int32.ofInt ptr)).take mgr.numFeatures ++
      (List.replicate mgr.numData 0 ++ _)).drop mgr.numFeatures).take mgr.numData = _
    rw [List.drop_append_of_le_length (by omega), List.drop_of_length_le (by omega), List.nil_append,
      List.take_append_of_le_length (by rw [List.length_replicate]), List.take_of_length_le
      (by rw [List.length_replicate])]

variable (mgr) in
/-- What stands behind the features when an entry has been read into an older buffer. -/
def storedColumns (stored : EntryPtr) (w : NodeWalker) : List Int32 :=
  ((DicEntryBuffer.storedValues mgr.numFeatures mgr.numData stored mgr.entryData).1.drop
    mgr.numFeatures ++ w.buffer.featureBuffer.drop
      (DicEntryBuffer.storedCount mgr.numFeatures mgr.numData stored)).take mgr.numData

variable (mgr) in
/-- A buffer after an entry of the dictionary has been read, up to its features. -/
def ReadFrom (stored : EntryPtr) (w w' : NodeWalker) : Prop :=
  w'.buffer.numData = mgr.numData ∧ w'.buffer.columns = mgr.storedColumns stored w ∧
    if EntryPtr.isAlias stored then
      w'.buffer.rowsLeft = w.buffer.rowsLeft ∧
        w'.buffer.remainingData = rawWithLimit mgr.entryData (EntryPtr.dicPtr stored +
          (DicEntryBuffer.storedValues mgr.numFeatures mgr.numData stored mgr.entryData).2.numReadBytes)
          (DicEntryBuffer.aliasValues mgr.numFeatures mgr.numData stored mgr.entryData)
    else w'.buffer.rowsLeft = 1 ∧ w'.buffer.remainingData.length = 0

/-- The features do not depend on the walker. -/
theorem locate_stored (hstored : mgr.storedPtr ptr = some stored)
    (hread : DicEntryBuffer.Readable mgr.numFeatures mgr.numData stored mgr.entryData) :
    ∃ features, ∀ w, ∃ w', mgr.locate ptr w = some (true, w') ∧ w'.current = ptr ∧
      w'.buffer.features = features ∧ mgr.ReadFrom stored w w' := by
  have hcounts := mgr.counts_le
  have hle := hread.le_length
  unfold storedPtr at hstored
  unfold locate
  split at hstored
  next hneg =>
    split at hstored
    next => cases hstored
    next hmarker =>
      split at hstored
      next unk hnode =>
        cases hstored
        refine ⟨unk.content, fun w => ?_⟩
        obtain ⟨filled, hfill, hfeatures, hdata, hbuffer, hrest⟩ :=
          @DicEntryBuffer.fillFromStorage_readable (mgr.setBuffer w) unk.templatePtr mgr.entryData
            hread
        rw [if_pos hneg, if_neg (by tauto), if_neg (by tauto), hnode]
        simp only [hfill, Option.map_some]
        refine ⟨_, rfl, rfl, ?_, hdata, ?_, hrest⟩
        · show (unk.content ++ filled.featureBuffer.drop unk.content.length).take filled.numFeatures = _
          rw [hfeatures]
          exact List.take_left' unk.content_length
        · show ((unk.content ++ filled.featureBuffer.drop unk.content.length).drop
            filled.numFeatures).take filled.numData = _
          rw [hfeatures, hdata, show (mgr.setBuffer w).numFeatures = mgr.numFeatures from rfl,
            List.drop_left' unk.content_length, unk.content_length, hbuffer]
          exact congrArg (List.take mgr.numData) (List.drop_append_of_le_length hle)
      next => cases hstored
  next hneg =>
    cases hstored
    refine ⟨(DicEntryBuffer.storedValues mgr.numFeatures mgr.numData ptr mgr.entryData).1.take
      mgr.numFeatures, fun w => ?_⟩
    obtain ⟨filled, hfill, hfeatures, hdata, hbuffer, hrest⟩ :=
      @DicEntryBuffer.fillFromStorage_readable (mgr.setBuffer w) ptr mgr.entryData hread
    rw [if_neg hneg, hfill]
    refine ⟨_, rfl, rfl, ?_, hdata, ?_, hrest⟩
    · show filled.featureBuffer.take filled.numFeatures = _
      rw [hfeatures, hbuffer]
      exact List.take_append_of_le_length hle
    · show (filled.featureBuffer.drop filled.numFeatures).take filled.numData = _
      rw [hfeatures, hdata, hbuffer]
      exact congrArg (List.take mgr.numData) (List.drop_append_of_le_length hle)

/-! ## A walker that has been used and one that has not -/

/-- The features and all rows of a walk. -/
def SameEntry (w₁ w₂ : NodeWalker) : Prop :=
  w₁.current = w₂.current ∧ w₁.buffer.features = w₂.buffer.features ∧
    ∃ rows, w₁.buffer.Yields rows ∧ w₂.buffer.Yields rows

variable (mgr) in
/-- The walker shows the entry as the other one does. -/
def LocatesSame (ptr : EntryPtr) (w fresh : NodeWalker) : Prop :=
  ∃ w₁ w₂, mgr.locate ptr w = some (true, w₁) ∧ mgr.locate ptr fresh = some (true, w₂) ∧
    SameEntry w₁ w₂

/-- The rows that an alias without values is taken to have: how many there are, and what stands behind
their first column. -/
def SameLeftover (numFeatures numData : Nat) (w₁ w₂ : NodeWalker) : Prop :=
  w₁.buffer.rowsLeft.toNat = w₂.buffer.rowsLeft.toNat ∧
    (0 < w₂.buffer.rowsLeft.toNat →
      (w₁.buffer.featureBuffer.drop (numFeatures + 1)).take (numData - 1) =
        (w₂.buffer.featureBuffer.drop (numFeatures + 1)).take (numData - 1))

theorem sameRows_stored {b₁ b₂ : DicEntryBuffer} (h₁ : b₁.remainingData.length = 0)
    (h₂ : b₂.remainingData.length = 0) :
    (∃ rows, b₁.Yields rows ∧ b₂.Yields rows) ↔ b₁.rowsLeft.toNat = b₂.rowsLeft.toNat ∧
      (0 < b₂.rowsLeft.toNat → b₁.columns = b₂.columns) := by
  have hrows₁ := DicEntryBuffer.yields_replicate h₁
  have hrows₂ := DicEntryBuffer.yields_replicate h₂
  rw [DicEntryBuffer.data_stored h₁] at hrows₁
  rw [DicEntryBuffer.data_stored h₂] at hrows₂
  constructor
  · rintro ⟨rows, hy₁, hy₂⟩
    have hsame := (hrows₁.unique hy₁).trans (hy₂.unique hrows₂)
    have hcount := congrArg List.length hsame
    rw [List.length_replicate, List.length_replicate] at hcount
    refine ⟨hcount, fun hpos => ?_⟩
    rw [hcount] at hsame
    exact List.replicate_right_inj (Nat.ne_of_gt hpos) |>.mp hsame
  · rintro ⟨hcount, hcolumns⟩
    refine ⟨_, hrows₁, ?_⟩
    rw [hcount]
    rcases Nat.eq_zero_or_pos b₂.rowsLeft.toNat with hzero | hpos
    · rw [hzero, List.replicate_zero]
      rwa [hzero, List.replicate_zero] at hrows₂
    · rw [hcolumns hpos]
      exact hrows₂

variable (mgr) in
/-- A marker is not located while the list of an alias is left, unless what is left of it is one row of
zeros, and an alias of which no value is counted meets the counter and the columns of a fresh walker. -/
def Clean (ptr : EntryPtr) (w fresh : NodeWalker) : Prop :=
  (ptr = EntryPtr.BOS ∨ ptr = EntryPtr.EOS → w.buffer.remainingData.length = 0 ∨
    w.buffer.Yields [List.replicate mgr.numData 0]) ∧
  ∀ stored, mgr.storedPtr ptr = some stored → EntryPtr.isAlias stored = true →
    DicEntryBuffer.aliasValues mgr.numFeatures mgr.numData stored mgr.entryData = 0 →
    SameLeftover mgr.numFeatures mgr.numData w fresh

theorem storedPtr_marker (h : ptr = EntryPtr.BOS ∨ ptr = EntryPtr.EOS) :
    mgr.storedPtr ptr = none := by
  rcases h with rfl | rfl <;> rfl

theorem locatesSame_marker_iff (hkept : mgr.Kept w) (hfresh : fresh.Fresh)
    (h : ptr = EntryPtr.BOS ∨ ptr = EntryPtr.EOS) :
    mgr.LocatesSame ptr w fresh ↔ w.buffer.remainingData.length = 0 ∨
      w.buffer.Yields [List.replicate mgr.numData 0] := by
  obtain ⟨w₁, hlocate₁, hptr₁, hfeatures₁, hdata₁, hlist₁, hleft₁, hcolumns₁⟩ :=
    @locate_marker mgr ptr h w
  obtain ⟨w₂, hlocate₂, hptr₂, hfeatures₂, hdata₂, hlist₂, hleft₂, hcolumns₂⟩ :=
    @locate_marker mgr ptr h fresh
  have hlength₂ : w₂.buffer.remainingData.length = 0 := by
    rw [hlist₂]
    exact hfresh
  have hrow : w₂.buffer.Yields [List.replicate mgr.numData 0] := by
    have hrows := DicEntryBuffer.yields_replicate hlength₂
    rwa [hleft₂, DicEntryBuffer.data_stored hlength₂, hcolumns₂] at hrows
  have hsame : mgr.LocatesSame ptr w fresh ↔ w₁.buffer.Yields [List.replicate mgr.numData 0] := by
    constructor
    · rintro ⟨w₁', w₂', hl₁, hl₂, -, -, rows, hy₁, hy₂⟩
      cases hlocate₁.symm.trans hl₁
      cases hlocate₂.symm.trans hl₂
      rwa [hy₂.unique hrow] at hy₁
    · intro hy
      exact ⟨w₁, w₂, hlocate₁, hlocate₂, hptr₁.trans hptr₂.symm, hfeatures₁.trans hfeatures₂.symm,
        _, hy, hrow⟩
  rw [hsame]
  by_cases hlength : w.buffer.remainingData.length = 0
  · have hlength₁ : w₁.buffer.remainingData.length = 0 := by
      rw [hlist₁]
      exact hlength
    have hrows := DicEntryBuffer.yields_replicate hlength₁
    rw [hleft₁, DicEntryBuffer.data_stored hlength₁, hcolumns₁] at hrows
    exact iff_of_true hrows (.inl hlength)
  · -- the list of the alias is what the walker goes on with
    obtain ⟨hdata, -⟩ := hkept.resolve_left hlength
    rw [DicEntryBuffer.yields_congr (hdata₁.trans hdata.symm) hlist₁ (by rwa [hlist₁])]
    exact (or_iff_right hlength).symm

theorem storedColumns_singular (hread : DicEntryBuffer.Readable mgr.numFeatures mgr.numData stored
    mgr.entryData) (halias : EntryPtr.isAlias stored = false) :
    mgr.storedColumns stored w = mgr.storedColumns stored fresh := by
  have hlength : (DicEntryBuffer.storedValues mgr.numFeatures mgr.numData stored
      mgr.entryData).1.length = mgr.numFeatures + mgr.numData := by
    rw [hread.1, DicEntryBuffer.storedCount, halias]
    rfl
  unfold storedColumns
  rw [List.take_append_of_le_length (by rw [List.length_drop]; omega), List.take_append_of_le_length
    (by rw [List.length_drop]; omega)]

/-- The number of the rows of an alias stands in the place of its first column. -/
theorem storedColumns_alias (hread : DicEntryBuffer.Readable mgr.numFeatures mgr.numData stored
    mgr.entryData) (halias : EntryPtr.isAlias stored = true) :
    mgr.storedColumns stored w = mgr.storedColumns stored fresh ↔
      (w.buffer.featureBuffer.drop (mgr.numFeatures + 1)).take (mgr.numData - 1) =
        (fresh.buffer.featureBuffer.drop (mgr.numFeatures + 1)).take (mgr.numData - 1) := by
  have hcount : DicEntryBuffer.storedCount mgr.numFeatures mgr.numData stored =
      mgr.numFeatures + 1 := if_pos halias
  obtain ⟨numAlias, hnum⟩ : ∃ numAlias, (DicEntryBuffer.storedValues mgr.numFeatures mgr.numData
      stored mgr.entryData).1.drop mgr.numFeatures = [numAlias] := by
    rw [← List.length_eq_one_iff, List.length_drop, hread.1, hcount]
    omega
  unfold storedColumns
  rw [hnum, hcount, List.singleton_append, List.singleton_append]
  cases mgr.numData with
  | zero => exact iff_of_true rfl rfl
  | succ k =>
      rw [List.take_succ_cons, List.take_succ_cons, Nat.add_sub_cancel]
      exact List.cons_inj_right numAlias

theorem locatesSame_stored_iff (hstored : mgr.storedPtr ptr = some stored)
    (hread : DicEntryBuffer.Readable mgr.numFeatures mgr.numData stored mgr.entryData) :
    mgr.LocatesSame ptr w fresh ↔ (EntryPtr.isAlias stored = true →
      DicEntryBuffer.aliasValues mgr.numFeatures mgr.numData stored mgr.entryData = 0 →
      SameLeftover mgr.numFeatures mgr.numData w fresh) := by
  obtain ⟨features, hlocate⟩ := locate_stored hstored hread
  obtain ⟨w₁, hlocate₁, hptr₁, hfeatures₁, hdata₁, hcolumns₁, hrest₁⟩ := hlocate w
  obtain ⟨w₂, hlocate₂, hptr₂, hfeatures₂, hdata₂, hcolumns₂, hrest₂⟩ := hlocate fresh
  have hsame : mgr.LocatesSame ptr w fresh ↔
      ∃ rows, w₁.buffer.Yields rows ∧ w₂.buffer.Yields rows := by
    constructor
    · rintro ⟨w₁', w₂', hl₁, hl₂, -, -, hrows⟩
      cases hlocate₁.symm.trans hl₁
      cases hlocate₂.symm.trans hl₂
      exact hrows
    · intro hrows
      exact ⟨w₁, w₂, hlocate₁, hlocate₂, hptr₁.trans hptr₂.symm, hfeatures₁.trans hfeatures₂.symm,
        hrows⟩
  rw [hsame]
  by_cases halias : EntryPtr.isAlias stored = true
  · rw [if_pos halias] at hrest₁ hrest₂
    obtain ⟨hleft₁, hlist₁⟩ := hrest₁
    obtain ⟨hleft₂, hlist₂⟩ := hrest₂
    have hlist := hlist₁.trans hlist₂.symm
    have hlength : w₁.buffer.remainingData.length =
        DicEntryBuffer.aliasValues mgr.numFeatures mgr.numData stored mgr.entryData := by
      rw [hlist₁]
      rfl
    by_cases hvalues :
        DicEntryBuffer.aliasValues mgr.numFeatures mgr.numData stored mgr.entryData = 0
    · have hlength₁ := hlength.trans hvalues
      rw [sameRows_stored hlength₁ (hlist ▸ hlength₁), hleft₁, hleft₂, hcolumns₁, hcolumns₂,
        storedColumns_alias hread halias]
      exact ⟨fun h _ _ => h, fun h => h halias hvalues⟩
    · -- both walkers read the list of the alias
      have hlength₁ : w₁.buffer.remainingData.length ≠ 0 := by rwa [hlength]
      have hpos : 0 < w₁.buffer.numData := by
        rw [hdata₁]
        exact DicEntryBuffer.numData_pos hvalues
      obtain ⟨rows, hrows⟩ := DicEntryBuffer.exists_yields (.inr hpos)
      have hrows₂ := (DicEntryBuffer.yields_congr (hdata₁.trans hdata₂.symm) hlist hlength₁).mp hrows
      exact iff_of_true ⟨rows, hrows, hrows₂⟩ fun _ hzero => absurd hzero hvalues
  · rw [if_neg halias] at hrest₁ hrest₂
    obtain ⟨hleft₁, hlength₁⟩ := hrest₁
    obtain ⟨hleft₂, hlength₂⟩ := hrest₂
    rw [sameRows_stored hlength₁ hlength₂, hleft₁, hleft₂, hcolumns₁, hcolumns₂,
      storedColumns_singular hread (Bool.not_eq_true _ ▸ halias)]
    exact iff_of_true ⟨rfl, fun _ => rfl⟩ fun h => absurd h halias

/-- After any use of the walker an entry is shown as by a fresh walker exactly when the walker is clean
for it. -/
theorem run_locatesSame_iff {calls : List Call} {start : NodeWalker} (hstart : start.Fresh)
    (hrun : mgr.run calls start = some w) (hfresh : fresh.Fresh) (hptr : mgr.Holds ptr) :
    mgr.LocatesSame ptr w fresh ↔ mgr.Clean ptr w fresh := by
  have hkept : mgr.Kept w := Kept.run (.inl hstart) hrun
  unfold Clean
  rcases hptr with hmarker | ⟨stored, hstored, hread⟩
  · rw [locatesSame_marker_iff hkept hfresh hmarker]
    constructor
    · intro h
      refine ⟨fun _ => h, fun stored hstored => ?_⟩
      rw [storedPtr_marker hmarker] at hstored
      cases hstored
    · exact fun h => h.1 hmarker
  · rw [locatesSame_stored_iff hstored hread]
    constructor
    · intro h
      refine ⟨fun hmarker => ?_, fun stored' hstored' => ?_⟩
      · rw [storedPtr_marker hmarker] at hstored
        cases hstored
      · rw [hstored] at hstored'
        cases hstored'
        exact h
    · exact fun h => h.2 stored hstored

/-- A dictionary of one alias: the feature, the number of rows, and 300 and 7 as rows. -/
def twoRowsManager : OutputManager where
  numFeatures := 1
  numData := 1
  entryData := [5, 2, 0xAC, 0x02, 7]
  extraNodes := []
  counts_le := by decide

def zeroWalker : NodeWalker :=
  ⟨freshBuffer 1 1 (by decide), EntryPtr.Invalid⟩

theorem run_locatesSame_iff_two :
    ∃ w, twoRowsManager.run [.locate 1, .next] zeroWalker = some w ∧
      twoRowsManager.LocatesSame 1 w zeroWalker := by
  have hptr : twoRowsManager.Holds 1 := .inr ⟨1, rfl, by decide, by decide⟩
  have hfresh : zeroWalker.Fresh := rfl
  have hrun : twoRowsManager.run [.locate 1, .next] zeroWalker = some _ := rfl
  refine ⟨_, hrun, (run_locatesSame_iff hfresh hrun hfresh hptr).mpr ⟨fun hmarker => ?_, ?_⟩⟩
  · exact absurd hmarker (by decide)
  · intro stored hstored _ hzero
    cases hstored
    exact absurd hzero (by decide)

/-- The beginning after an alias of two rows: the walker goes on with the alias. -/
theorem marker_after_alias :
    ∃ w, twoRowsManager.run [.locate 1] zeroWalker = some w ∧ zeroWalker.Fresh ∧
      twoRowsManager.Holds EntryPtr.BOS ∧
      ¬twoRowsManager.LocatesSame EntryPtr.BOS w zeroWalker := by
  have hrun : twoRowsManager.run [.locate 1] zeroWalker = some _ := rfl
  refine ⟨_, hrun, rfl, .inl (.inl rfl), ?_⟩
  rintro ⟨w₁, w₂, hl₁, hl₂, -, -, rows, hy₁, hy₂⟩
  cases hl₁
  cases hl₂
  have hrows₁ : rows = [[300], [7]] := hy₁.unique ⟨rfl, rfl, rfl, rfl, rfl⟩
  have hrows₂ : rows = [[0]] := hy₂.unique ⟨rfl, rfl, rfl⟩
  exact absurd (hrows₁.symm.trans hrows₂) (by decide)

end OutputManager

end Output

end Jumanpp.Core.Analysis
