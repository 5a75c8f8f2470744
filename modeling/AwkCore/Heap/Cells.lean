import AwkCore.Heap

/-!
# Cells

A row of cells holds values that can be copied, assigned and used as arrays. A cell that holds
nothing yet may become an array or a scalar, and an array stays an array under assignment.
-/
namespace AwkCore

structure Cells where
  heap : Heap
  cells : Array Stored

namespace Cells

/-- What can be done with cells. `copy` and `set` overwrite a cell whatever it holds. -/
inductive Action
  | set (i : Nat) (v : Content)
  | copy (i j : Nat)
  | assign (i j : Nat)
  | assignContent (i : Nat) (v : Content)
  | useAsArray (i : Nat)
  | put (i : Nat) (key : Bytes) (j : Nat)
  | assignElement (i : Nat) (key : Bytes) (j : Nat)
  | useElement (i : Nat) (key : Bytes)
  | get (i : Nat) (key : Bytes) (j : Nat)
  | delete (i : Nat) (key : Bytes)
  | toText (i j : Nat)
  | toNumber (i j : Nat)
  | push (i : Nat) (bytes : Bytes)
  deriving Repr

/-- How an action ends; a flag tells whether the element was there. -/
inductive Outcome
  | done
  | refused (e : StoreError)
  | flag (present : Bool)
  | nothing
  deriving DecidableEq, Repr

def empty (n : Nat) : Cells := ⟨Heap.empty, Array.replicate n .uninitialized⟩

def cell (c : Cells) (i : Nat) : Stored := (c.cells[i]?).getD .uninitialized

/-- Overwrite a cell by a value whose handle it takes over. -/
def write (c : Cells) (h : Heap) (i : Nat) (v : Stored) : Cells :=
  ⟨h.release (c.cell i), c.cells.setIfInBounds i v⟩

/-- The array of a cell; a cell that holds nothing gets an empty one. -/
def useAsArray (c : Cells) (i : Nat) : Except StoreError (Cells × ArrayRef) :=
  match c.cell i with
  | .array a => .ok (c, a)
  | .uninitialized =>
    let (h, a) := c.heap.addArray
    .ok (c.write h i (.array a), a)
  | _ => .error .scalarAsArray

def setElements (c : Cells) (h : Heap) (a : ArrayRef) (t : Elements) : Cells :=
  { c with heap := { h with arrays := h.arrays.set a.place t } }

def withArray (c : Cells) (i : Nat) (f : Cells → ArrayRef → Cells × Outcome) : Cells × Outcome :=
  match c.useAsArray i with
  | .error e => (c, .refused e)
  | .ok (c, a) => f c a

/-- Store a value under a key of an array, whatever was there. -/
def putElement (v : Stored) (key : Bytes) (c : Cells) (a : ArrayRef) : Cells × Outcome :=
  let (h, k) := (c.heap.retain v).addText key
  let (h, t) := h.insert (h.elements a) k v
  (c.setElements (h.releaseText k) a t, .done)

/-- Assign a value to an element of an array, which is made if it is not there. -/
def assignElement (v : Stored) (key : Bytes) (c : Cells) (a : ArrayRef) : Cells × Outcome :=
  let (h, k) := c.heap.addText key
  let (h, p) := h.findOrInsert (h.elements a) k
  let h := h.releaseText k
  match ((p.table.valueAt? p.slot).getD default).checkAssign v with
  | .error e => (c.setElements h a p.table, .refused e)
  | .ok () =>
    let (h, t) := (h.retain v).storeAt p.table p.slot v
    (c.setElements h a t, .done)

/-- Use an element of an array as an array, which is made if it is not there. -/
def useElement (key : Bytes) (c : Cells) (a : ArrayRef) : Cells × Outcome :=
  let (h, k) := c.heap.addText key
  let (h, p) := h.findOrInsert (h.elements a) k
  let h := h.releaseText k
  match (p.table.valueAt? p.slot).getD default with
  | .array _ => (c.setElements h a p.table, .done)
  | .uninitialized =>
    let (h, b) := h.addArray
    let (h, t) := h.storeAt p.table p.slot (.array b)
    (c.setElements h a t, .done)
  | _ => (c.setElements h a p.table, .refused .scalarAsArray)

/-- Copy an element of an array into a cell. -/
def getElement (j : Nat) (key : Bytes) (c : Cells) (a : ArrayRef) : Cells × Outcome :=
  match (c.heap.elements a).find? c.heap.bytes key with
  | some v => (c.write (c.heap.retain v) j v, .flag true)
  | none => (c, .flag false)

def deleteElement (key : Bytes) (c : Cells) (a : ArrayRef) : Cells × Outcome :=
  let (h, t, found) := c.heap.delete (c.heap.elements a) key
  (c.setElements h a t, .flag found)

def apply (c : Cells) : Action → Cells × Outcome
  | .set i v =>
    let (h, v) := c.heap.add v
    (c.write h i v, .done)
  | .copy i j => (c.write (c.heap.retain (c.cell j)) i (c.cell j), .done)
  | .assign i j =>
    match (c.cell i).checkAssign (c.cell j) with
    | .error e => (c, .refused e)
    | .ok () => (c.write (c.heap.retain (c.cell j)) i (c.cell j), .done)
  | .assignContent i v =>
    let (h, v) := c.heap.add v
    match (c.cell i).checkAssign v with
    | .error e => ({ c with heap := h.release v }, .refused e)
    | .ok () => (c.write h i v, .done)
  | .useAsArray i => c.withArray i fun c _ => (c, .done)
  | .put i key j => c.withArray i (putElement (c.cell j) key)
  | .assignElement i key j => c.withArray i (assignElement (c.cell j) key)
  | .useElement i key => c.withArray i (useElement key)
  | .get i key j => c.withArray i (getElement j key)
  | .delete i key => c.withArray i (deleteElement key)
  | .toText i j =>
    let (h, r) := c.heap.textOf (c.cell j)
    (c.write h i (.string r), .done)
  | .toNumber i j => (c.write c.heap i (.number (c.heap.read (c.cell j)).toNumber), .done)
  | .push i bytes =>
    match c.cell i with
    | .string r =>
      let (texts, r) := c.heap.texts.push r bytes
      (⟨{ c.heap with texts := texts }, c.cells.setIfInBounds i (.string r)⟩, .done)
    | _ => (c, .nothing)

def elements (c : Cells) (i : Nat) : List (TextRef × Stored) :=
  match c.cell i with
  | .array a => (c.heap.elements a).entries
  | _ => []

def order (c : Cells) (i j : Nat) : Ordering :=
  (c.heap.read (c.cell i)).order (c.heap.read (c.cell j))

def run (c : Cells) (actions : List Action) : Cells :=
  actions.foldl (fun c action => (c.apply action).1) c

end Cells

end AwkCore
