import Jumanpp.Util.CodedIo
import Jumanpp.Util.Mmap

/-!
# The strings of a field

All strings of a field are written into one buffer, each at an aligned position.  A pointer to a string
is its position without the bits that the alignment makes zero.
-/

namespace Jumanpp.Core.Dic

open Jumanpp.Util

/-! ## Writing -/

/-- The map has the numbers of the strings until the storage is made, then the pointers. -/
structure StringStorage where
  mapping : List (StdString × Int32)
  alignmentPower : Nat
  mapping_nodup : (mapping.map (·.1.elems)).Nodup

/-- `static_cast<i32>(alignedPosition >> alignmentPower)`. -/
def pointerOf (alignmentPower alignedPosition : Nat) : Int32 :=
  Int32.ofNat (alignedPosition >>> alignmentPower)

def valueOf : List (StdString × Int32) → StdString → Int32
  | [], _ => -1
  | entry :: mapping, sp => if entry.1.elems = sp.elems then entry.2 else valueOf mapping sp

/-- The loop over the sorted strings.  Each key of the map is assigned once; the assigned pairs are the
map afterwards. -/
def storeStrings (alignmentPower : Nat) : List StdString → List UInt8 →
    List (StdString × Int32) × List UInt8
  | [], buf => ([], buf)
  | obj :: rest, buf =>
      let position := buf.length
      let alignedPosition := Align position (2 ^ alignmentPower)
      let buf := buf ++ (List.replicate (alignedPosition - position) (writeVarint 0)).flatten
      let ptr := pointerOf alignmentPower alignedPosition
      let (mapping, buf) := storeStrings alignmentPower rest (buf ++ writeString obj)
      ((obj, ptr) :: mapping, buf)

namespace StringStorage

variable (storage : StringStorage)

/-- The more frequent string comes first; `std::sort` may leave equal numbers in any order. -/
def Sorted (forSort : List (StdString × Int32)) : Prop :=
  forSort.Perm storage.mapping ∧ forSort.Pairwise fun a b => b.2 ≤ a.2

def makeStorage (forSort : List (StdString × Int32)) : List (StdString × Int32) × List UInt8 :=
  storeStrings storage.alignmentPower (forSort.map (·.1)) (writeString StdList.empty)

end StringStorage

/-! ## Reading -/

/-- Nothing stands for a pointer before the data, too. -/
def readAt (data : List UInt8) (alignPower : Nat) (ptr : Int32) : Option StdString :=
  let realPtr := ptr.toInt * 2 ^ alignPower
  if realPtr < 0 then none else (readStringPiece (data.drop realPtr.toNat)).1

/-- `position` is the number of bytes between the begin of the parser and where it stands. -/
structure StringStorageTraversal where
  data : List UInt8
  position : Nat
  lastPosition : Int32
  alignPower : Nat
  alignment : Nat

namespace StringStorageTraversal

/-- The shift of `1u` is undefined from 32 on. -/
def new (data : List UInt8) (alignPower : Nat) : Option StringStorageTraversal :=
  if alignPower < 32 then some ⟨data, 0, 0, alignPower, 2 ^ alignPower⟩ else none

variable (t : StringStorageTraversal)

def hasNext : Bool := decide (t.position < t.data.length)

def next : Option StdString × StringStorageTraversal :=
  let read := readStringPiece (t.data.drop t.position)
  let position := t.position + ((t.data.drop t.position).length - read.2.length)
  (read.1, { t with
    lastPosition := pointerOf t.alignPower t.position
    position := if read.1.isSome then Align position t.alignment else position })

/-- Calling `next` as long as there is something yields exactly these pointers and strings. -/
def Enumerates : StringStorageTraversal → List (Int32 × StdString) → Prop
  | t, [] => t.hasNext = false
  | t, (ptr, sp) :: rest =>
      t.hasNext = true ∧ t.next.1 = some sp ∧ t.next.2.lastPosition = ptr ∧
        t.next.2.Enumerates rest

end StringStorageTraversal

end Jumanpp.Core.Dic
