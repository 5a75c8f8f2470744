import AwkCore.Proofs.Heap.Seen

/-!
# Arrays in common

An array is assigned by handle: both cells have the same array afterwards, until one of them is assigned
again. A cell with an array has one as long as it is not overwritten. An action that is refused has done
nothing.
-/
namespace AwkCore

namespace Value

variable {τ α : Type} {target source : Value τ α}

end Value

namespace Cells

open Heap Table

variable {c d : Cells} {i j k : ℕ} {v : Stored} {a : ArrayRef} {action : Action} {e : StoreError}
  {lost : List Stored} {book : Book}

/-- The value under a key of the array of a cell, if they are there. -/
def element (c : Cells) (i : ℕ) (key : Bytes) : Stored :=
  (c.array? i).elim .uninitialized fun a =>
    ((c.heap.elements a).find? c.heap.bytes key).getD .uninitialized

/-- Nothing has changed: neither a cell, nor a content on the heap, nor the number of handles on it. -/
structure Unchanged (c d : Cells) : Prop where
  cells : d.cells = c.cells
  heap : Intact c.heap d.heap

theorem Unchanged.refl (c : Cells) : Unchanged c c := ⟨rfl, fun _ => rfl, fun _ => rfl⟩

/-- The entries of the array of a cell, if it has one, with their strings by content. -/
def seen (c : Cells) (i : ℕ) : Dictionary Bytes (Value Bytes ArrayRef) :=
  Dictionary.image c.heap.bytes c.heap.read (c.elements i)

section Sees

variable (tallies : c.heap.Tallies (c.cells.toList ++ lost) book) (held : c.cell j = .array a)

include tallies held

end Sees

theorem Unchanged.seen (unchanged : Unchanged c d) (i : ℕ) : d.seen i = c.seen i := by
  have bytes : d.heap.bytes = c.heap.bytes :=
    funext fun r => congrArg Buffer.content (Texts.buffer_congr (unchanged.heap.texts r.place))
  have read : d.heap.read = c.heap.read := by
    funext v
    rw [Heap.read, Heap.read, bytes]
  have tables (a : ArrayRef) : d.heap.elements a = c.heap.elements a := by
    rw [Heap.elements, Heap.elements, Pool.get?, Pool.get?, unchanged.heap.arrays]
  have cell : d.cell i = c.cell i := by rw [Cells.cell, Cells.cell, unchanged.cells]
  simp only [Cells.seen, elements, bytes, read, tables, cell]

/-- An array that is put into itself by way of one of two cells is seen in it by way of the other. -/
example : ((empty 2).run [.useAsArray 1, .assign 0 1, .put 0 (ascii "self") 1]).seen 1 =
    [(ascii "self", .array ⟨0⟩)] := by
  decide +kernel

end Cells

end AwkCore
