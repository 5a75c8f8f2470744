import AwkCore.Heap
import AwkCore.Texts.Bank

/-!
# Tables beside registers

A desk has a table and a row of registers, which hold handles on strings of the same heap. Keys and
values come from the registers, so one buffer may be a key, a value and in several registers at once.
Actions on the registers alone are those of a bank. An archive has a row of tables and lays one of them
on the desk at a time; a table may be made a copy of another one, whose strings it shares.
-/
namespace AwkCore

namespace Value

variable {σ τ α : Type}

/-- Put what a string stands for in its place, if it stands for something. -/
def fill (f : σ → Option τ) : Value σ α → Option (Value τ α)
  | string s => (f s).map string
  | numericString s n => (f s).map (numericString · n)
  | uninitialized => some uninitialized
  | number n => some (number n)
  | array a => some (array a)
  | regex p => some (regex p)
  | variableRef i => some (variableRef i)
  | elementRef i => some (elementRef i)
  | fieldRef i => some (fieldRef i)

def text? : Value τ α → Option τ
  | string s | numericString s _ => some s
  | _ => none

/-- The value with another string in the place of its own, if it has one. -/
def withText (v : Value τ α) (s : τ) : Value τ α := v.map (fun _ => s) id

end Value

/-- Take a handle for a value that is made of handles already out. It gets a new array if it is one. -/
def Heap.hold (h : Heap) (v : Value TextRef Unit) : Heap × Stored :=
  let stored : Stored := v.map id fun _ => ⟨h.arrays.fresh⟩
  if v.isArray then (h.addArray.1, stored) else (h.retain stored, stored)

structure Desk where
  heap : Heap
  table : Elements
  registers : Array (Option TextRef)

namespace Desk

/-- What can be done at a desk. Registers are named by their numbers: first that of the key, then, in a
value, that of its string. -/
inductive Action
  | outside (a : Bank.Action)
  | insert (i : Nat) (v : Value Nat Unit)
  | visit (i : Nat)
  | replace (i : Nat) (v : Value Nat Unit)
  | exchange (i j : Nat)
  | delete (i : Nat)
  | clear
  | takeKey (n j : Nat)
  | takeValue (i j : Nat)
  deriving Repr

def bank (d : Desk) : Bank := ⟨d.heap.texts, d.registers⟩

def withBank (d : Desk) (b : Bank) : Desk :=
  { d with heap := { d.heap with texts := b.texts }, registers := b.registers }

def handle? (d : Desk) (i : Nat) : Option TextRef := d.bank.handle? i

def text? (d : Desk) (i : Nat) : Option Bytes := (d.handle? i).map d.heap.bytes

/-- The slot of the key that a register has. -/
def slot? (d : Desk) (i : Nat) : Option Nat := (d.text? i).bind (d.table.slot? d.heap.bytes)

def insert (d : Desk) (key : TextRef) (v : Value TextRef Unit) : Desk :=
  let (h, v) := d.heap.hold v
  let (h, t) := h.insert d.table key v
  { d with heap := h, table := t }

/-- Find a key or insert it without a value. -/
def visit (d : Desk) (key : TextRef) : Desk :=
  let (h, p) := d.heap.findOrInsert d.table key
  { d with heap := h, table := p.table }

def storeAt (d : Desk) (slot : Nat) (v : Value TextRef Unit) : Desk :=
  let (h, v) := d.heap.hold v
  let (h, t) := h.storeAt d.table slot v
  { d with heap := h, table := t }

/-- Swap the string of a stored value with that of a register. Both keep their handles, so this is how
a value is changed where it stands. -/
def exchangeAt (d : Desk) (slot : Nat) (j : Nat) : Desk :=
  match d.table.valueAt? slot, d.handle? j with
  | some v, some r =>
    match v.text? with
    | some s =>
      { d with
        table := d.table.setValue slot (v.withText r)
        registers := d.registers.setIfInBounds j (some s) }
    | none => d
  | _, _ => d

def delete (d : Desk) (key : Bytes) : Desk :=
  let (h, t, _) := d.heap.delete d.table key
  { d with heap := h, table := t }

def clear (d : Desk) : Desk :=
  { d with heap := d.heap.discard d.table, table := d.table.clear }

/-- Put a new handle on a string of the table into a register. -/
def take (d : Desk) (j : Nat) (r : TextRef) : Desk :=
  d.withBank (d.bank.put (d.heap.texts.share r) j r)

/-- An action that needs a string or a slot which is not there does nothing. -/
def apply (d : Desk) : Action → Desk
  | .outside a => d.withBank (d.bank.apply a)
  | .insert i v =>
    match d.handle? i, v.fill d.handle? with
    | some key, some v => d.insert key v
    | _, _ => d
  | .visit i => (d.handle? i).elim d d.visit
  | .replace i v =>
    match d.slot? i, v.fill d.handle? with
    | some slot, some v => d.storeAt slot v
    | _, _ => d
  | .exchange i j => (d.slot? i).elim d (d.exchangeAt · j)
  | .delete i => (d.text? i).elim d d.delete
  | .clear => d.clear
  | .takeKey n j => (d.table.keys[n]?).elim d (d.take j)
  | .takeValue i j =>
    (((d.slot? i).bind d.table.valueAt?).bind Value.text?).elim d (d.take j)

end Desk

structure Archive where
  heap : Heap
  tables : Array Elements
  registers : Array (Option TextRef)

namespace Archive

inductive Action
  | on (m : Nat) (a : Desk.Action)
  | copy (m k : Nat)
  deriving Repr

def empty (tables registers : Nat) : Archive :=
  ⟨Heap.empty, Array.replicate tables Table.new, Array.replicate registers none⟩

def desk? (s : Archive) (m : Nat) : Option Desk :=
  (s.tables[m]?).map fun t => ⟨s.heap, t, s.registers⟩

/-- Take a table back from the desk. -/
def put (s : Archive) (m : Nat) (d : Desk) : Archive :=
  ⟨d.heap, s.tables.setIfInBounds m d.table, d.registers⟩

/-- An action that needs a table which is not there does nothing. -/
def apply (s : Archive) : Action → Archive
  | .on m a => (s.desk? m).elim s fun d => s.put m (d.apply a)
  | .copy m k =>
    match s.tables[m]?, s.tables[k]? with
    | some t, some old =>
      { s with
        heap := (s.heap.duplicate t).discard old
        tables := s.tables.setIfInBounds k t }
    | _, _ => s

def run (s : Archive) (actions : List Action) : Archive := actions.foldl apply s

end Archive

end AwkCore
