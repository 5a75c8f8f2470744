import AwkCore.Table
import AwkCore.Texts
import AwkCore.Value

/-!
# The memory of values

Stored values hold their strings and arrays by handle. The heap counts the handles on each string
buffer and on each array: every value, every key of a table and every handle outside counts one.
When the last handle on an array goes, the handles that its table holds go with it.
-/
namespace AwkCore

structure ArrayRef where
  place : Nat
  deriving DecidableEq, Repr

abbrev Stored := Value TextRef ArrayRef

/-- A value by content, which stands for a new array if it is one. -/
abbrev Content := Value Bytes Unit

abbrev Elements := Table TextRef Stored

structure Heap where
  texts : Texts
  arrays : Pool Elements

namespace Heap

def empty : Heap := ⟨Pool.empty, Pool.empty⟩

def bytes (h : Heap) (r : TextRef) : Bytes := h.texts.bytes r

def read (h : Heap) (v : Stored) : Value Bytes ArrayRef := v.map h.bytes id

def elements (h : Heap) (a : ArrayRef) : Elements := (h.arrays.get? a.place).getD Table.new

/-- Handles on the string or array of a value. -/
def holders (h : Heap) : Stored → Nat
  | .string s => h.texts.holders s
  | .numericString s _ => h.texts.holders s
  | .array a => Pool.holders h.arrays a.place
  | _ => 0

def addText (h : Heap) (content : Bytes) : Heap × TextRef :=
  let (texts, r) := h.texts.create (Buffer.ofBytes content)
  ({ h with texts := texts }, r)

def addArray (h : Heap) : Heap × ArrayRef :=
  let a : ArrayRef := ⟨h.arrays.fresh⟩
  ({ h with arrays := h.arrays.add Table.new }, a)

def add (h : Heap) : Content → Heap × Stored
  | .uninitialized => (h, .uninitialized)
  | .number n => (h, .number n)
  | .string s => let (h, r) := h.addText s; (h, .string r)
  | .numericString s n => let (h, r) := h.addText s; (h, .numericString r n)
  | .array _ => let (h, a) := h.addArray; (h, .array a)
  | .regex p => (h, .regex p)
  | .variableRef i => (h, .variableRef i)
  | .elementRef i => (h, .elementRef i)
  | .fieldRef i => (h, .fieldRef i)

def retainText (h : Heap) (r : TextRef) : Heap := { h with texts := h.texts.share r }

def retain (h : Heap) : Stored → Heap
  | .string s => h.retainText s
  | .numericString s _ => h.retainText s
  | .array a => { h with arrays := h.arrays.retain a.place }
  | _ => h

def releaseTexts (h : Heap) (rs : List TextRef) : Heap :=
  { h with texts := rs.foldl Texts.drop h.texts }

def releaseText (h : Heap) (r : TextRef) : Heap := h.releaseTexts [r]

def weight (arrays : Pool Elements) : Nat := arrays.total fun t => t.heldValues.length

/-- Let go of values, and of all that is held by the arrays whose last handle goes. -/
def releaseAll (h : Heap) : List Stored → Heap
  | [] => h
  | .string s :: vs => (h.releaseText s).releaseAll vs
  | .numericString s _ :: vs => (h.releaseText s).releaseAll vs
  | .array a :: vs =>
    match _freed : h.arrays.release a.place with
    | (arrays, some t) =>
      releaseAll ({ h with arrays := arrays }.releaseTexts t.heldKeys) (t.heldValues ++ vs)
    | (arrays, none) => releaseAll { h with arrays := arrays } vs
  | .uninitialized :: vs => h.releaseAll vs
  | .number _ :: vs => h.releaseAll vs
  | .regex _ :: vs => h.releaseAll vs
  | .variableRef _ :: vs => h.releaseAll vs
  | .elementRef _ :: vs => h.releaseAll vs
  | .fieldRef _ :: vs => h.releaseAll vs
termination_by vs => weight h.arrays + vs.length
decreasing_by
  all_goals
    first
    | have total := Pool.total_release (fun t => t.heldValues.length) h.arrays a.place
      rw [_freed] at total
      simp [weight, releaseTexts] at total ⊢
      omega
    | simp [releaseText, releaseTexts]

def release (h : Heap) (v : Stored) : Heap := h.releaseAll [v]

/-- The string that a value counts as: its own if it has one, else a new one. The answer is a handle
of its own. -/
def textOf (h : Heap) (v : Stored) : Heap × TextRef :=
  match v with
  | .string s => (h.retainText s, s)
  | .numericString s _ => (h.retainText s, s)
  | v => h.addText (h.read v).toText

/-- Find or insert a key in a table. A new slot takes a handle on the key, and the keys of slots
that are dropped on the way lose one. -/
def findOrInsert (h : Heap) (t : Elements) (key : TextRef) : Heap × Table.Placement TextRef Stored :=
  let p := t.findOrInsert h.bytes key
  let h := if p.created then h.retainText key else h
  (h.releaseTexts p.dropped, p)

/-- Store a value in a slot; the handle moves into the table. -/
def storeAt (h : Heap) (t : Elements) (slot : Nat) (v : Stored) : Heap × Elements :=
  let old := (t.valueAt? slot).getD default
  (h.release old, t.setValue slot v)

/-- Store a value under a key; the handle on the value moves into the table. -/
def insert (h : Heap) (t : Elements) (key : TextRef) (v : Stored) : Heap × Elements :=
  let (h, p) := h.findOrInsert t key
  h.storeAt p.table p.slot v

/-- Delete a key and let go of its value; tells whether it was there. -/
def delete (h : Heap) (t : Elements) (key : Bytes) : Heap × Elements × Bool :=
  match t.delete h.bytes key with
  | (t, some v) => (h.release v, t, true)
  | (t, none) => (h, t, false)

def discard (h : Heap) (t : Elements) : Heap :=
  (h.releaseTexts t.heldKeys).releaseAll t.heldValues

/-- Take handles for a copy of a table. -/
def duplicate (h : Heap) (t : Elements) : Heap :=
  t.heldValues.foldl retain (t.heldKeys.foldl retainText h)

end Heap

end AwkCore
