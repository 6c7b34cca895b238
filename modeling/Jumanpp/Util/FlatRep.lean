import Jumanpp.Lib.Probing
import Jumanpp.Lib.Slots
import Mathlib.Data.List.Nodup
import Mathlib.Data.List.Perm.Basic

/-!
# The hash table

An array of slots with open addressing.  A slot whose entry was erased keeps a mark, so that the
probes that went over it still do; the array is replaced before it is full.
-/

namespace Jumanpp.Util

open Jumanpp.Lib

/-- One of the `kWidth` places of a bucket. -/
inductive Slot (K V : Type)
  /-- `kEmpty` -/
  | empty
  /-- `kDeleted` -/
  | deleted
  | occupied (marker : Nat) (key : K) (val : V)
deriving DecidableEq

namespace Slot

variable {K V : Type}

def entry : Slot K V → Option (K × V)
  | .occupied _ key val => some (key, val)
  | _ => none

def isEmpty : Slot K V → Bool
  | .empty => true
  | _ => false

def isDeleted : Slot K V → Bool
  | .deleted => true
  | _ => false

end Slot

/-- `Marker`: the low bits of a hash that are not the mark of an empty or an erased slot. -/
def markerOf (hb : Nat) : Nat := hb + if hb < 2 then 2 else 0

/-- The buckets in one row: `1 << lglen` of them with eight slots each. -/
structure FlatRep (K V : Type) where
  lglen : Nat
  slots : List (Slot K V)
  notEmpty : Nat
  deleted : Nat
  grow : Nat
  shrink : Nat
  length_slots : slots.length = 2 ^ (lglen + 3)

namespace FlatRep

variable {K V : Type} [DecidableEq K] (hash : K → Nat)

def size (t : FlatRep K V) : Nat := t.notEmpty - t.deleted

def mask (t : FlatRep K V) : Nat := t.slots.length - 1

/-- `bucket_count` -/
def capacity (t : FlatRep K V) : Nat := t.mask + 1

def marker (k : K) : Nat := markerOf (hash k &&& 0xff)

/-- Where the probes for a key begin. -/
def start (t : FlatRep K V) (k : K) : Nat := (hash k >>> 8) &&& t.mask

/-- `NextIndex` -/
def nextIndex (t : FlatRep K V) (i num_probes : Nat) : Nat := (i + num_probes) &&& t.mask

/-! ## Searches -/

/-- The loop of `Find`; `none` if it does not end in time. -/
def findLoop (t : FlatRep K V) (k : K) : Nat → Nat → Nat → Option (Option Nat)
  | 0, _, _ => none
  | fuel + 1, index, num_probes =>
    match t.slots[index]? with
    | some (.occupied x key _) =>
      if x = marker hash k ∧ key = k then some (some index)
      else t.findLoop k fuel (t.nextIndex index num_probes) (num_probes + 1)
    | some .deleted => t.findLoop k fuel (t.nextIndex index num_probes) (num_probes + 1)
    | some .empty => some none
    | none => none

/-- The probes repeat after twice as many as there are slots. -/
def find (t : FlatRep K V) (k : K) : Option (Option Nat) :=
  t.findLoop hash k (2 * t.slots.length) (t.start hash k) 1

def withSlot (t : FlatRep K V) (index : Nat) (slot : Slot K V) : FlatRep K V :=
  { t with
    slots := t.slots.set index slot
    length_slots := by rw [List.length_set, t.length_slots] }

/-- A key and its value are put into the first erased slot that was seen, or else into the empty
one. -/
def place (t : FlatRep K V) (k : K) (v : V) (del : Option Nat) (index : Nat) : FlatRep K V × Nat :=
  match del with
  | some di => ({ t.withSlot di (.occupied (marker hash k) k v) with deleted := t.deleted - 1 }, di)
  | none =>
    ({ t.withSlot index (.occupied (marker hash k) k v) with notEmpty := t.notEmpty + 1 }, index)

/-- The loop of `FindOrInsert`, with the value that the caller constructs in a new entry.  The flag
says whether the key was found. -/
def findOrInsertLoop (t : FlatRep K V) (k : K) (v : V) :
    Nat → Nat → Nat → Option Nat → Option (Bool × FlatRep K V × Nat)
  | 0, _, _, _ => none
  | fuel + 1, index, num_probes, del =>
    match t.slots[index]? with
    | some (.occupied x key _) =>
      if x = marker hash k ∧ key = k then some (true, t, index)
      else t.findOrInsertLoop k v fuel (t.nextIndex index num_probes) (num_probes + 1) del
    | some .deleted =>
      t.findOrInsertLoop k v fuel (t.nextIndex index num_probes) (num_probes + 1)
        (del.orElse fun _ => some index)
    | some .empty => some (false, t.place hash k v del index)
    | none => none

def findOrInsert (t : FlatRep K V) (k : K) (v : V) : Option (Bool × FlatRep K V × Nat) :=
  t.findOrInsertLoop hash k v (2 * t.slots.length) (t.start hash k) 1 none

/-- `Erase` -/
def erase (t : FlatRep K V) (index : Nat) : FlatRep K V :=
  { t.withSlot index .deleted with deleted := t.deleted + 1, grow := 0 }

/-! ## The size of the array -/

/-- The loop of `Init`.  From 29 on the width of a bucket times the number of buckets does not fit
into 32 bits. -/
def lgFor (n : Nat) : Option Nat :=
  (List.range 29).find? fun lg => 5 * n < 4 * (2 ^ lg * 8)

/-- The table that `Init` makes with `1 << lg` buckets.  The products with 0.8 and with 0.4 have no
rounding errors before the digits that are cut off. -/
def blank (K V : Type) (lg : Nat) : FlatRep K V where
  lglen := lg
  slots := List.replicate (2 ^ (lg + 3)) .empty
  notEmpty := 0
  deleted := 0
  grow := 2 ^ (lg + 3) * 4 / 5
  shrink := if lg = 0 then 0 else (2 ^ (lg + 3) * 4 / 5) * 2 / 5
  length_slots := List.length_replicate

/-- `Init`; `none` if the loop does not end. -/
def init (K V : Type) (n : Nat) : Option (FlatRep K V) := (lgFor n).map (blank K V)

/-- The loop of `FreshInsert`. -/
def freshInsertLoop (t : FlatRep K V) (k : K) (v : V) : Nat → Nat → Nat → Option (FlatRep K V)
  | 0, _, _ => none
  | fuel + 1, index, num_probes =>
    match t.slots[index]? with
    | some .empty =>
      some { t.withSlot index (.occupied (marker hash k) k v) with notEmpty := t.notEmpty + 1 }
    | some _ => t.freshInsertLoop k v fuel (t.nextIndex index num_probes) (num_probes + 1)
    | none => none

def freshInsert (t : FlatRep K V) (k : K) (v : V) : Option (FlatRep K V) :=
  t.freshInsertLoop hash k v (2 * t.slots.length) (t.start hash k) 1

/-- `CopyEntries` -/
def copyEntries (t : FlatRep K V) : List (Slot K V) → Option (FlatRep K V)
  | [] => some t
  | .occupied _ k v :: slots => do
    let t ← t.freshInsert hash k v
    t.copyEntries slots
  | _ :: slots => t.copyEntries slots

/-- `Resize` -/
def resize (t : FlatRep K V) (n : Nat) : Option (FlatRep K V) := do
  let fresh ← init K V n
  fresh.copyEntries hash t.slots

/-- The copy constructor. -/
def copy (t : FlatRep K V) : Option (FlatRep K V) := t.resize hash t.size

def maybeResize (t : FlatRep K V) : Option (FlatRep K V) :=
  if t.notEmpty < t.grow then some t
  else if t.grow = 0 ∧ t.shrink ≤ t.size then
    let t := { t with grow := t.capacity * 4 / 5 }
    if t.notEmpty < t.grow then some t
    else t.resize hash (t.size + 1)
  else t.resize hash (t.size + 1)

/-- What `clear_no_resize` makes of a slot of a bucket that is or is not trivially destructible. -/
def cleared (trivially_destructable : Bool) : Slot K V → Slot K V
  | .deleted => if trivially_destructable then .empty else .deleted
  | _ => .empty

def clearNoResize (t : FlatRep K V) (trivially_destructable : Bool) : FlatRep K V :=
  { t with
    slots := t.slots.map (cleared trivially_destructable)
    notEmpty := 0
    deleted := 0
    length_slots := by rw [List.length_map, t.length_slots] }

def clear (t : FlatRep K V) (trivially_destructable : Bool) : Option (FlatRep K V) :=
  { t.clearNoResize trivially_destructable with grow := 0 }.maybeResize hash

end FlatRep

end Jumanpp.Util
