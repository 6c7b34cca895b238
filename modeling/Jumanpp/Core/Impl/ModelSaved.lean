import Jumanpp.Core.Impl.ModelIo
import Jumanpp.Lib.Loops

/-!
# What a saved model file holds

The header depends on the sizes of the slices alone.  Every slice is found at its place in the file,
unless an empty slice that was mapped after it wrote over its last byte.
-/

namespace Jumanpp.Core.Model

open Jumanpp.Util Jumanpp.Util.Serialization Jumanpp.Lib

/-! ## The layout of the file -/

def nextOffset (offset : Nat) (buf : StringPiece) : Nat := Align (offset + buf.size) 4096

def endOffset : Nat → List StringPiece → Nat
  | offset, [] => offset
  | offset, buf :: bufs => endOffset (nextOffset offset buf) bufs

def blocksFrom : Nat → List StringPiece → List BlockPtr
  | _, [] => []
  | offset, buf :: bufs =>
      ⟨UInt64.ofNat offset, UInt64.ofNat buf.size⟩ :: blocksFrom (nextOffset offset buf) bufs

theorem length_blocksFrom : ∀ (offset : Nat) (bufs : List StringPiece),
    (blocksFrom offset bufs).length = bufs.length
  | _, [] => rfl
  | offset, buf :: bufs => by
    rw [blocksFrom, List.length_cons, List.length_cons, length_blocksFrom]

def ModelPart.rawFrom (start : Nat) (part : ModelPart StringPiece) : ModelPartRaw where
  kind := part.kind
  comment := part.comment
  data := ⟨blocksFrom start part.data.elems, by
    rw [length_blocksFrom]
    exact part.data.size_lt⟩
  start := UInt64.ofNat start
  «end» := UInt64.ofNat (endOffset start part.data.elems)

def rawPartsFrom : Nat → List (ModelPart StringPiece) → List ModelPartRaw
  | _, [] => []
  | start, part :: parts =>
      part.rawFrom start :: rawPartsFrom (endOffset start part.data.elems) parts

theorem length_rawPartsFrom : ∀ (start : Nat) (parts : List (ModelPart StringPiece)),
    (rawPartsFrom start parts).length = parts.length
  | _, [] => rfl
  | start, part :: parts => by
    rw [rawPartsFrom, List.length_cons, List.length_cons, length_rawPartsFrom]

/-- The header that is saved for a model. -/
def ModelInfo.raw (info : ModelInfo StringPiece) : ModelInfoRaw :=
  ⟨⟨rawPartsFrom 4096 info.parts.elems, by
    rw [length_rawPartsFrom]
    exact info.parts.size_lt⟩⟩

def ModelInfo.bufs (info : ModelInfo StringPiece) : List StringPiece :=
  info.parts.elems.flatMap fun part => part.data.elems

def StartsEmpty : List StringPiece → Prop
  | [] => False
  | buf :: _ => buf.chars = []

/-- No empty slice follows a slice that ends with its page, beyond the old end of the file, in a
byte that is not zero. -/
def Untouched (size_ : Nat) : Nat → List StringPiece → Prop
  | _, [] => True
  | offset, buf :: bufs =>
      (StartsEmpty bufs → offset + buf.size = nextOffset offset buf → size_ < nextOffset offset buf →
        ∀ b ∈ buf.chars.getLast?, b = 0) ∧
      Untouched size_ (nextOffset offset buf) bufs

/-! ## The file alone -/

namespace ModelSaver

section

variable {pageSize size_ : Nat}

/-- Each slice in the file, without the header. -/
def writeBufs (pageSize size_ : Nat) : List StringPiece → Nat → File → Except StatusCode File
  | [], _, f => .ok f
  | buf :: bufs, offset, f => do
      let f ← MappedFile.map pageSize .ReadWrite size_ offset buf.size false f
      writeBufs pageSize size_ bufs (nextOffset offset buf) (f.memcpy offset buf.chars)

theorem endOffset_append : ∀ (offset : Nat) (l r : List StringPiece),
    endOffset offset (l ++ r) = endOffset (endOffset offset l) r
  | _, [], _ => rfl
  | offset, buf :: l, r => endOffset_append (nextOffset offset buf) l r

theorem writeBufs_append : ∀ {l r : List StringPiece} {offset : Nat} {f mid f' : File},
    writeBufs pageSize size_ l offset f = .ok mid →
    writeBufs pageSize size_ r (endOffset offset l) mid = .ok f' →
    writeBufs pageSize size_ (l ++ r) offset f = .ok f'
  | [], r, offset, f, mid, f', hl, hr => by
    cases hl
    exact hr
  | buf :: l, r, offset, f, mid, f', hl, hr => by
    obtain ⟨g, hmap, hl⟩ := bind_ok hl
    rw [List.cons_append, writeBufs, hmap]
    exact writeBufs_append hl hr

theorem saveBufs_eq : ∀ {bufs : List StringPiece} {offset offset' : Nat} {f f' : File}
    {blocks : { l : List BlockPtr // l.length = bufs.length }},
    saveBufs pageSize size_ bufs offset f = .ok (blocks, offset', f') →
    blocks.val = blocksFrom offset bufs ∧ offset' = endOffset offset bufs ∧
      writeBufs pageSize size_ bufs offset f = .ok f'
  | [], offset, offset', f, f', blocks, h => by
    cases h
    exact ⟨rfl, rfl, rfl⟩
  | buf :: bufs, offset, offset', f, f', blocks, h => by
    obtain ⟨⟨block, offset1, f1⟩, hbuf, hrest⟩ := bind_ok h
    obtain ⟨⟨⟨blocks1, hlength⟩, offset2, f2⟩, hbufs, hend⟩ := bind_ok hrest
    obtain ⟨g, hmap, hbuf⟩ := bind_ok hbuf
    cases hbuf
    cases hend
    obtain ⟨hblocks, rfl, hwrite⟩ := saveBufs_eq hbufs
    refine ⟨?_, rfl, ?_⟩
    · show _ :: blocks1 = _
      rw [show blocks1 = _ from hblocks]
      rfl
    · rw [writeBufs, hmap]
      exact hwrite

theorem saveParts_eq : ∀ {parts : List (ModelPart StringPiece)} {start offset : Nat} {f f' : File}
    {rawParts : { l : List ModelPartRaw // l.length = parts.length }},
    saveParts pageSize size_ parts start f = .ok (rawParts, offset, f') →
    rawParts.val = rawPartsFrom start parts ∧
      writeBufs pageSize size_ (parts.flatMap fun part => part.data.elems) start f = .ok f'
  | [], start, offset, f, f', rawParts, h => by
    cases h
    exact ⟨rfl, rfl⟩
  | part :: parts, start, offset, f, f', rawParts, h => by
    obtain ⟨⟨⟨blocks, hlength⟩, offset1, f1⟩, hbufs, hrest⟩ := bind_ok h
    obtain ⟨⟨⟨rawParts1, hlengths⟩, offset2, f2⟩, hparts, hend⟩ := bind_ok hrest
    cases hend
    obtain ⟨hblocks, rfl, hwrite⟩ := saveBufs_eq hbufs
    obtain ⟨hraw, hwrites⟩ := saveParts_eq hparts
    refine ⟨?_, ?_⟩
    · show _ :: rawParts1 = _
      rw [show rawParts1 = _ from hraw, rawPartsFrom, ModelPart.rawFrom]
      congr 3
    · rw [List.flatMap_cons]
      exact writeBufs_append hwrite hwrites

theorem nextOffset_mod (offset : Nat) (buf : StringPiece) : nextOffset offset buf % 4096 = 0 := by
  rw [nextOffset, align_page]
  omega

theorem le_nextOffset (offset : Nat) (buf : StringPiece) :
    offset + buf.size ≤ nextOffset offset buf := by
  rw [nextOffset, align_page]
  omega

theorem nextOffset_empty {offset : Nat} {buf : StringPiece} (hpage : offset % 4096 = 0)
    (hempty : buf.size = 0) : nextOffset offset buf = offset := by
  rw [nextOffset, align_page]
  omega

/-- What lies before the slices stays, but for the byte before an empty first slice. -/
theorem writeBufs_frame : ∀ {bufs : List StringPiece} {offset : Nat} {f f' : File},
    writeBufs pageSize size_ bufs offset f = .ok f' → size_ ≤ f.size → offset % 4096 = 0 →
    f.size ≤ f'.size ∧ ∀ q < offset, q < f.size →
      (q + 1 = offset ∧ StartsEmpty bufs ∧ size_ < offset → f'.byte q = 0) ∧
      (¬ (q + 1 = offset ∧ StartsEmpty bufs ∧ size_ < offset) → f'.byte q = f.byte q)
  | [], offset, f, f', h, _, _ => by
    cases h
    exact ⟨Nat.le_refl _, fun q _ _ => ⟨fun hq => hq.2.1.elim, fun _ => rfl⟩⟩
  | buf :: bufs, offset, f, f', h, hsize, hpage => by
    obtain ⟨g, hmap, h⟩ := bind_ok h
    obtain ⟨hgrow, -, hbyte⟩ := MappedFile.map_readWrite hmap hsize
    have hnext := le_nextOffset offset buf
    obtain ⟨hgrow', hframe⟩ := writeBufs_frame h
      (by rw [File.memcpy_size]; omega) (nextOffset_mod offset buf)
    rw [File.memcpy_size] at hgrow' hframe
    refine ⟨Nat.le_trans hgrow hgrow', fun q hq hqs => ?_⟩
    obtain ⟨hzero, hkeep⟩ := hframe q (by omega) (by omega)
    rw [File.memcpy_byte_other (.inl hq), hbyte q hqs] at hkeep
    by_cases hempty : buf.chars = []
    · have hbuf : buf.size = 0 := by
        rw [StringPiece.size, hempty, List.length_nil]
      rw [nextOffset_empty hpage hbuf] at hzero hkeep
      simp only [hbuf, Nat.add_zero] at hkeep
      refine ⟨fun hcond => ?_, fun hcond => ?_⟩
      · by_cases hmore : StartsEmpty bufs
        · exact hzero ⟨hcond.1, hmore, hcond.2.2⟩
        · rw [hkeep fun hc => hmore hc.2.1, if_pos ⟨hcond.1, hcond.2.2⟩]
      · have hne : ¬ (q + 1 = offset ∧ size_ < offset) := fun hc => hcond ⟨hc.1, hempty, hc.2⟩
        rw [hkeep fun hc => hne ⟨hc.1, hc.2.2⟩, if_neg hne]
    · have hbuf : 0 < buf.size := List.length_pos_iff.mpr hempty
      refine ⟨fun hcond => absurd hcond.2.1 hempty, fun _ => ?_⟩
      rw [hkeep (by omega), if_neg (by omega)]

/-- The places of the slices are in a file of `size` bytes. -/
def Inside (size : Nat) : Nat → List StringPiece → Prop
  | _, [] => True
  | offset, buf :: bufs => offset + buf.size ≤ size ∧ Inside size (nextOffset offset buf) bufs

theorem writeBufs_inside : ∀ {bufs : List StringPiece} {offset : Nat} {f f' : File},
    writeBufs pageSize size_ bufs offset f = .ok f' → size_ ≤ f.size → offset % 4096 = 0 →
    Inside f'.size offset bufs
  | [], _, _, _, _, _, _ => trivial
  | buf :: bufs, offset, f, f', h, hsize, _ => by
    obtain ⟨g, hmap, h⟩ := bind_ok h
    obtain ⟨hgrow, hend, -⟩ := MappedFile.map_readWrite hmap hsize
    have hsize' : size_ ≤ (g.memcpy offset buf.chars).size := by
      rw [File.memcpy_size]
      omega
    have hpage := nextOffset_mod offset buf
    have hgrow' := (writeBufs_frame h hsize' hpage).1
    rw [File.memcpy_size] at hgrow'
    exact ⟨by omega, writeBufs_inside h hsize' hpage⟩

/-- The slices are at their places. -/
def Holds (f : File) : Nat → List StringPiece → Prop
  | _, [] => True
  | offset, buf :: bufs =>
      f.read offset buf.size = buf.chars ∧ Holds f (nextOffset offset buf) bufs

/-- A slice is read back up to the byte that the next one may have zeroed. -/
theorem read_iff {f f' : File} {offset : Nat} {buf : StringPiece} {zeroed : Prop}
    (hread : f.read offset buf.size = buf.chars)
    (hframe : ∀ q, offset ≤ q → q < offset + buf.size →
      (q + 1 = offset + buf.size ∧ zeroed → f'.byte q = 0) ∧
      (¬ (q + 1 = offset + buf.size ∧ zeroed) → f'.byte q = f.byte q)) :
    f'.read offset buf.size = buf.chars ↔ (zeroed → ∀ b ∈ buf.chars.getLast?, b = 0) := by
  rw [StringPiece.size, File.read_eq_iff] at *
  constructor
  · intro h hz b hb
    rw [List.getLast?_eq_getElem?, Option.mem_def, List.getElem?_eq_some_iff] at hb
    obtain ⟨hlast, rfl⟩ := hb
    rw [← h _ hlast, (hframe _ (by omega) (by omega)).1 ⟨by omega, hz⟩]
  · intro h k hk
    obtain ⟨hzero, hkeep⟩ := hframe (offset + k) (by omega) (by omega)
    by_cases hcond : offset + k + 1 = offset + buf.chars.length ∧ zeroed
    · rw [hzero hcond]
      refine (h hcond.2 _ ?_).symm
      rw [List.getLast?_eq_getElem?, Option.mem_def, List.getElem?_eq_some_iff]
      exact ⟨by omega, by congr 1; omega⟩
    · rw [hkeep hcond, hread k hk]

/-- By induction on the slices, each of which only the next one can reach. -/
theorem writeBufs_holds_iff : ∀ {bufs : List StringPiece} {offset : Nat} {f f' : File},
    writeBufs pageSize size_ bufs offset f = .ok f' → size_ ≤ f.size → offset % 4096 = 0 →
    (Holds f' offset bufs ↔ Untouched size_ offset bufs)
  | [], _, _, _, _, _, _ => Iff.rfl
  | buf :: bufs, offset, f, f', h, hsize, hpage => by
    obtain ⟨g, hmap, h⟩ := bind_ok h
    obtain ⟨hgrow, hend, -⟩ := MappedFile.map_readWrite hmap hsize
    have hnext := le_nextOffset offset buf
    have hsize' : size_ ≤ (g.memcpy offset buf.chars).size := by
      rw [File.memcpy_size]
      omega
    obtain ⟨hgrow', hframe⟩ := writeBufs_frame h hsize' (nextOffset_mod offset buf)
    have hrest := writeBufs_holds_iff h hsize' (nextOffset_mod offset buf)
    rw [File.memcpy_size] at hgrow' hframe
    have hread := @read_iff _ _ _ _ (StartsEmpty bufs ∧
        offset + buf.size = nextOffset offset buf ∧ size_ < nextOffset offset buf)
      (File.read_memcpy g offset buf.chars) fun q hq hqend => by
        obtain ⟨hzero, hkeep⟩ := hframe q (by omega) (by omega)
        refine ⟨fun hc => hzero ⟨by omega, hc.2.1, hc.2.2.2⟩, fun hc => hkeep fun hc' => hc ?_⟩
        exact ⟨by omega, hc'.2.1, by omega, hc'.2.2⟩
    rw [Holds, Untouched, hrest, hread]
    constructor
    · rintro ⟨hlast, htail⟩
      exact ⟨fun h1 h2 h3 => hlast ⟨h1, h2, h3⟩, htail⟩
    · rintro ⟨hlast, htail⟩
      exact ⟨fun hc => hlast hc.1 hc.2.1 hc.2.2, htail⟩

/-! ## Lists of slices -/

theorem holds_append (f : File) : ∀ (offset : Nat) (l r : List StringPiece),
    Holds f offset (l ++ r) ↔ Holds f offset l ∧ Holds f (endOffset offset l) r
  | _, [], _ => by simp [Holds, endOffset]
  | offset, buf :: l, r => by
    rw [List.cons_append, Holds, Holds, endOffset, holds_append, and_assoc]

theorem inside_append (size : Nat) : ∀ (offset : Nat) (l r : List StringPiece),
    Inside size offset (l ++ r) ↔ Inside size offset l ∧ Inside size (endOffset offset l) r
  | _, [], _ => by simp [Inside, endOffset]
  | offset, buf :: l, r => by
    rw [List.cons_append, Inside, Inside, endOffset, inside_append, and_assoc]

theorem holds_congr {f g : File} : ∀ {offset : Nat} {bufs : List StringPiece},
    Inside f.size offset bufs → (∀ q, offset ≤ q → q < f.size → g.byte q = f.byte q) →
    (Holds g offset bufs ↔ Holds f offset bufs)
  | _, [], _, _ => Iff.rfl
  | offset, buf :: bufs, hinside, hbyte => by
    have hnext := le_nextOffset offset buf
    rw [Holds, Holds, holds_congr hinside.2 fun q hq => hbyte q (by omega),
      File.read_congr (g := f) fun q hq hend => hbyte q hq (by have := hinside.1; omega)]

theorem endOffset_bounds {size : Nat} (hsize : size < 2 ^ 63) :
    ∀ {offset : Nat} {bufs : List StringPiece}, Inside size offset bufs → offset ≤ 2 ^ 63 →
      offset ≤ endOffset offset bufs ∧ endOffset offset bufs ≤ 2 ^ 63
  | _, [], _, h => ⟨Nat.le_refl _, h⟩
  | offset, buf :: bufs, hinside, _ => by
    have hend := hinside.1
    have hnext := le_nextOffset offset buf
    have hbound : nextOffset offset buf ≤ 2 ^ 63 := by
      rw [nextOffset, align_page]
      omega
    have hrest := endOffset_bounds hsize hinside.2 hbound
    rw [endOffset]
    omega

theorem rawPartsFrom_append : ∀ (start : Nat) (l r : List (ModelPart StringPiece)),
    rawPartsFrom start (l ++ r) = rawPartsFrom start l ++
      rawPartsFrom (endOffset start (l.flatMap fun part => part.data.elems)) r
  | _, [], _ => rfl
  | start, part :: l, r => by
    rw [List.cons_append, rawPartsFrom, rawPartsFrom, rawPartsFrom_append, List.flatMap_cons,
      endOffset_append, List.cons_append]

end

end ModelSaver

end Jumanpp.Core.Model
