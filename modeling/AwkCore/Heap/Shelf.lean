import AwkCore.Heap

/-!
# Tables outside of values

A shelf has a table in use and a saved one over a common heap. Keys and values come from outside by
content: each gets a handle of its own, and that on the key goes when the operation is over.
-/
namespace AwkCore

structure Shelf where
  heap : Heap
  current : Elements
  saved : Elements

/-- The slot of a key as an operation finds or makes it, with the handles on the key given to it
while it is still held. -/
structure Visit where
  slot : Nat
  hash : UInt32
  key : TextRef
  value : Stored
  created : Bool
  keyHolders : Nat

namespace Shelf

def empty : Shelf := ⟨Heap.empty, Table.new, Table.new⟩

def find? (s : Shelf) (key : Bytes) : Option Stored := s.current.find? s.heap.bytes key

def insert (s : Shelf) (key : Bytes) (value : Content) : Shelf :=
  let (h, k) := s.heap.addText key
  let (h, v) := h.add value
  let (h, t) := h.insert s.current k v
  { s with heap := h.releaseText k, current := t }

def storeAt (s : Shelf) (slot : Nat) (value : Content) : Shelf :=
  let (h, v) := s.heap.add value
  let (h, t) := h.storeAt s.current slot v
  { s with heap := h, current := t }

/-- Store a value under a key that is present; nothing happens if it is not. -/
def replace (s : Shelf) (key : Bytes) (value : Content) : Shelf :=
  match s.current.slot? s.heap.bytes key with
  | some slot => s.storeAt slot value
  | none => s

def visit (s : Shelf) (key : Bytes) : Shelf × Visit :=
  let (h, k) := s.heap.addText key
  let (h, p) := h.findOrInsert s.current k
  let slot := p.table.slots.get? p.slot
  let v : Visit :=
    { slot := p.slot
      hash := slot.elim 0 Slot.hash
      key := slot.elim k Slot.key
      value := slot.elim default Slot.value
      created := p.created
      keyHolders := h.texts.holders k }
  ({ s with heap := h.releaseText k, current := p.table }, v)

def delete (s : Shelf) (key : Bytes) : Shelf × Bool :=
  let (h, t, found) := s.heap.delete s.current key
  ({ s with heap := h, current := t }, found)

def clear (s : Shelf) : Shelf :=
  { s with heap := s.heap.discard s.current, current := s.current.clear }

def save (s : Shelf) : Shelf :=
  { s with heap := (s.heap.duplicate s.current).discard s.saved, saved := s.current }

def exchange (s : Shelf) : Shelf := { s with current := s.saved, saved := s.current }

end Shelf

end AwkCore
