import AwkCore.Bytes
import AwkCore.Sequence

/-!
# Hash tables in order of insertion

The entries of a table stand in a sequence of slots in the order in which they were inserted. An
index of open addresses finds them: its marks are empty, name a slot, or remember a deleted entry.
A deleted slot stays until the index is rebuilt, which happens before an insertion that would fill
more than four fifths of it.

Keys are compared by their bytes, which the operations read through `view`.
-/
namespace AwkCore

/-- The 32-bit FNV-1a hash of a key. -/
def hashBytes (key : Bytes) : UInt32 :=
  key.foldl (fun h b => (h ^^^ b.toUInt32) * 0x01000193) 0x811c9dc5

inductive Mark
  | empty
  | deleted
  | slot (n : Nat)
  deriving DecidableEq, Repr

namespace Mark

/-- A mark in a cell of 32 bits. -/
def cell : Mark → Int32
  | empty => 0
  | deleted => -1
  | slot n => .ofNat (n + 1)

/-- The mark that is read from a cell. -/
def ofCell (c : Int32) : Mark :=
  if c = 0 then empty
  else if c = -1 then deleted
  else slot (c.toNatClampNeg - 1)

end Mark

structure Slot (κ ν : Type) where
  hash : UInt32
  key : κ
  value : ν
  deleted : Bool
  deriving Repr

/-- The marks name slots by numbers of any size. In cells of 32 bits they can be kept as long as there are
less than `2 ^ 31` slots (`Table.run_new_cells`). -/
structure Table (κ ν : Type) where
  index : Array Mark
  limit : Nat
  live : Nat
  deleted : Nat
  slots : Sequence (Slot κ ν)

/-- A walk over the places of an index: the next place, and the bits of the hash still to be used.
Once these are used up every place comes in turn. -/
structure Walk where
  place : Nat
  perturb : Nat
  deriving DecidableEq, Repr

namespace Walk

def start (size : Nat) (hash : UInt32) : Walk := ⟨hash.toNat % size, hash.toNat⟩

def next (size : Nat) (w : Walk) : Walk :=
  let perturb := w.perturb / 32
  ⟨(5 * w.place + perturb + 1) % size, perturb⟩

end Walk

/-- Where a search ends: at a slot named by a place of the index, at the place where the key may be
put, or nowhere within the steps allowed. -/
inductive Probe
  | found (place slot : Nat)
  | vacant (place : Nat)
  | exhausted
  deriving DecidableEq, Repr

namespace Table

variable {κ ν : Type}

def minimumSize : Nat := 8

def limitFor (size : Nat) : Nat := size * 8 / 10

def ofSize (size : Nat) (slots : Sequence (Slot κ ν)) : Table κ ν :=
  ⟨Array.replicate size .empty, limitFor size, 0, 0, slots⟩

def new : Table κ ν := ofSize minimumSize Sequence.new

def size (t : Table κ ν) : Nat := t.index.size

/-- Steps of a walk after which every place of the index has come. -/
def reach (t : Table κ ν) : Nat := t.size + 7

/-- Follow a walk to the key or to an empty place. The first place of a deleted entry on the way is
taken in preference to the empty one. -/
def probeFrom (t : Table κ ν) (isHere : Slot κ ν → Bool) (reusable : Option Nat) (w : Walk) :
    (steps : Nat) → Probe
  | 0 => .exhausted
  | steps + 1 =>
    match t.index[w.place]? with
    | none => .exhausted
    | some .empty => .vacant (reusable.getD w.place)
    | some .deleted => t.probeFrom isHere (some (reusable.getD w.place)) (w.next t.size) steps
    | some (.slot n) =>
      if (t.slots.get? n).any isHere then .found w.place n
      else t.probeFrom isHere reusable (w.next t.size) steps

def probe (t : Table κ ν) (view : κ → Bytes) (key : Bytes) : Probe :=
  let hash := hashBytes key
  t.probeFrom (fun s => s.hash == hash && view s.key == key) none (Walk.start t.size hash) t.reach

def emptyPlaceFrom (index : Array Mark) (w : Walk) : (steps : Nat) → Option Nat
  | 0 => none
  | steps + 1 =>
    if index[w.place]? = some .empty then some w.place
    else emptyPlaceFrom index (w.next index.size) steps

/-- The first place on the walk of a hash that was never used. -/
def emptyPlace? (t : Table κ ν) (hash : UInt32) : Option Nat :=
  emptyPlaceFrom t.index (Walk.start t.size hash) t.reach

def slot? (t : Table κ ν) (view : κ → Bytes) (key : Bytes) : Option Nat :=
  match t.probe view key with
  | .found _ slot => some slot
  | _ => none

def valueAt? (t : Table κ ν) (slot : Nat) : Option ν := (t.slots.get? slot).map Slot.value

def find? (t : Table κ ν) (view : κ → Bytes) (key : Bytes) : Option ν :=
  (t.slot? view key).bind t.valueAt?

def contains (t : Table κ ν) (view : κ → Bytes) (key : Bytes) : Bool :=
  (t.slot? view key).isSome

def setValue (t : Table κ ν) (slot : Nat) (value : ν) : Table κ ν :=
  { t with slots := t.slots.modify slot fun s => { s with value := value } }

/-- Append a slot and let a place of the index name it. -/
def attach (t : Table κ ν) (place : Nat) (s : Slot κ ν) : Table κ ν :=
  { t with
    index := t.index.setIfInBounds place (.slot t.slots.size)
    live := t.live + 1
    slots := t.slots.append s }

/-- Append a slot at an empty place of the index. -/
def reattach (t : Table κ ν) (s : Slot κ ν) : Table κ ν :=
  match t.emptyPlace? s.hash with
  | some place => t.attach place s
  | none => t

def liveSlots (t : Table κ ν) : List (Slot κ ν) := t.slots.toList.filter fun s => !s.deleted

/-- Live entries in order of insertion. -/
def entries (t : Table κ ν) : List (κ × ν) := t.liveSlots.map fun s => (s.key, s.value)

def keys (t : Table κ ν) : List κ := t.liveSlots.map Slot.key

/-- Keys of entries that are deleted while their slots are still there. -/
def deadKeys (t : Table κ ν) : List κ := (t.slots.toList.filter Slot.deleted).map Slot.key

/-- Size of the index after it is rebuilt: twice the size when the live entries come up to half the
limit. -/
def rebuiltSize (t : Table κ ν) : Nat :=
  if t.limit / 2 ≤ t.live then 2 * t.size else t.size

/-- Build the index anew for the live slots and drop the others. -/
def rebuild (t : Table κ ν) : Table κ ν :=
  t.liveSlots.foldl reattach (ofSize t.rebuiltSize (Sequence.withCapacity t.live))

/-- Where an insertion has left the table: the slot of the key, whether it is new, and the keys of
the slots that a rebuild has dropped. -/
structure Placement (κ ν : Type) where
  table : Table κ ν
  slot : Nat
  created : Bool
  dropped : List κ

def placeInRebuilt (t : Table κ ν) (s : Slot κ ν) : Placement κ ν :=
  let u := t.rebuild
  let slot := u.slots.size
  ⟨u.reattach s, slot, true, t.deadKeys⟩

/-- Find the slot of a key, or insert one with the default value. -/
def findOrInsert [Inhabited ν] (t : Table κ ν) (view : κ → Bytes) (key : κ) : Placement κ ν :=
  let bytes := view key
  let s : Slot κ ν := ⟨hashBytes bytes, key, default, false⟩
  match t.probe view bytes with
  | .found _ slot => ⟨t, slot, false, []⟩
  | .vacant place =>
    if t.live + t.deleted < t.limit then
      let slot := t.slots.size
      ⟨t.attach place s, slot, true, []⟩
    else t.placeInRebuilt s
  | .exhausted => t.placeInRebuilt s

/-- Every key that a slot holds, live or not. -/
def heldKeys (t : Table κ ν) : List κ := t.slots.toList.map Slot.key

/-- Every value that a slot holds; that of a deleted slot is the default. -/
def heldValues (t : Table κ ν) : List ν := t.slots.toList.map Slot.value

/-- Delete a key: its slot keeps the key and gives up the value, which is answered. -/
def delete [Inhabited ν] (t : Table κ ν) (view : κ → Bytes) (key : Bytes) : Table κ ν × Option ν :=
  match t.probe view key with
  | .found place slot =>
    let value := t.valueAt? slot
    ({ t with
        index := t.index.setIfInBounds place .deleted
        live := t.live - 1
        deleted := t.deleted + 1
        slots := t.slots.modify slot fun s => { s with deleted := true, value := default } },
      value)
  | _ => (t, none)

def clear (t : Table κ ν) : Table κ ν := ofSize t.size t.slots.clear

end Table

end AwkCore
