import AwkCore.Heap.Cells
import AwkCore.Heap.Desk

/-!
# Arrays in cells

Deeds are what can be done with the tables of arrays when keys and values come from cells, which hold
strings, arrays and other values side by side. One string may be a key, a value and in several cells at
once; an array may be a value of another one, or of itself.
-/
namespace AwkCore

namespace Heap

/-- Another table for an array. -/
def setTable (h : Heap) (a : ArrayRef) (t : Elements) : Heap :=
  { h with arrays := h.arrays.set a.place t }

/-- A new array with a table, which brings its handles along. -/
def addTable (h : Heap) (t : Elements) : Heap × ArrayRef :=
  let a : ArrayRef := ⟨h.arrays.fresh⟩
  ({ h with arrays := h.arrays.add t }, a)

end Heap

namespace Cells

/-- What can be done. Cells are named by their numbers: first that of the array, if there is one, then
that of the key. -/
inductive Deed
  | set (i : Nat) (v : Content)
  | copy (i j : Nat)
  | rewrite (i : Nat) (content : Bytes)
  | insert (i k j : Nat)
  | visit (i k : Nat)
  | exchange (i k j : Nat)
  | delete (i k : Nat)
  | clear (i : Nat)
  | clone (i j : Nat)
  | takeKey (i n j : Nat)
  | takeValue (i k j : Nat)
  deriving Repr

variable (c : Cells)

def array? (i : Nat) : Option ArrayRef :=
  match c.cell i with
  | .array a => some a
  | _ => none

def text? (i : Nat) : Option TextRef := (c.cell i).text?

/-- Put a value into a cell and let go of the one that was there. If there is no such cell the value goes. -/
def give (h : Heap) (i : Nat) (v : Stored) : Cells :=
  if i < c.cells.size then c.write h i v else { c with heap := h.release v }

/-- The array of one cell and the string of another one as its key; nothing happens without them. -/
def withKey (i k : Nat) (f : ArrayRef → TextRef → Cells) : Cells :=
  match c.array? i, c.text? k with
  | some a, some key => f a key
  | _, _ => c

def withTable (i : Nat) (f : ArrayRef → Elements → Cells) : Cells :=
  (c.array? i).elim c fun a => f a (c.heap.elements a)

/-- Swap the value of a cell with that of a slot. -/
def exchangeAt (a : ArrayRef) (slot j : Nat) : Cells :=
  let t := c.heap.elements a
  if j < c.cells.size then
    { heap := c.heap.setTable a (t.setValue slot (c.cell j))
      cells := c.cells.setIfInBounds j ((t.valueAt? slot).getD default) }
  else c

/-- Change the string of a cell; other handles on it do not see the change. -/
def rewrite (i : Nat) (content : Bytes) : Cells :=
  match c.cell i with
  | .string r =>
    let (texts, r) := c.heap.texts.replace r content
    ⟨{ c.heap with texts := texts }, c.cells.setIfInBounds i (.string r)⟩
  | _ => c

def perform : Deed → Cells
  | .set i v =>
    let (h, v) := c.heap.add v
    c.give h i v
  | .copy i j => c.give (c.heap.retain (c.cell j)) i (c.cell j)
  | .rewrite i content => c.rewrite i content
  | .insert i k j =>
    c.withKey i k fun a key =>
      let (h, t) := (c.heap.retain (c.cell j)).insert (c.heap.elements a) key (c.cell j)
      c.setElements h a t
  | .visit i k =>
    c.withKey i k fun a key =>
      let (h, p) := c.heap.findOrInsert (c.heap.elements a) key
      c.setElements h a p.table
  | .exchange i k j =>
    c.withKey i k fun a key =>
      ((c.heap.elements a).slot? c.heap.bytes (c.heap.bytes key)).elim c (c.exchangeAt a · j)
  | .delete i k =>
    c.withKey i k fun a key =>
      let (h, t, _) := c.heap.delete (c.heap.elements a) (c.heap.bytes key)
      c.setElements h a t
  | .clear i => c.withTable i fun a t => c.setElements (c.heap.discard t) a t.clear
  | .clone i j =>
    c.withTable i fun _ t =>
      let (h, a) := (c.heap.duplicate t).addTable t
      c.give h j (.array a)
  | .takeKey i n j =>
    c.withTable i fun _ t => (t.keys[n]?).elim c fun r => c.give (c.heap.retainText r) j (.string r)
  | .takeValue i k j =>
    c.withKey i k fun a key =>
      ((c.heap.elements a).find? c.heap.bytes (c.heap.bytes key)).elim c fun v =>
        c.give (c.heap.retain v) j v

def performAll (deeds : List Deed) : Cells := deeds.foldl perform c

end Cells

end AwkCore
