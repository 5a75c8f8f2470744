import AwkCore.Texts

/-!
# Registers of strings

A bank is a row of registers, each of which may hold a handle on a string. Its actions are all that
can be done with handles: making them, sharing them, letting them go, and changing strings through
them. An action on an empty register, or on one that is not there, does nothing.
-/
namespace AwkCore

structure Bank where
  texts : Texts
  registers : Array (Option TextRef)

namespace Bank

inductive Action
  | create (i : Nat) (b : Buffer)
  | share (i j : Nat)
  | drop (i : Nat)
  | swap (i j : Nat)
  | update (i offset : Nat) (bytes : Bytes)
  | push (i : Nat) (bytes : Bytes)
  | copyFrom (i j : Nat)
  | extend (i j : Nat)
  deriving Repr

def empty (registers : Nat) : Bank := ⟨Pool.empty, Array.replicate registers none⟩

def handle? (b : Bank) (i : Nat) : Option TextRef := b.registers[i]?.join

/-- Put a handle into a register, whose own handle has gone already. -/
def place (b : Bank) (texts : Texts) (i : Nat) (r : Option TextRef) : Bank :=
  ⟨texts, b.registers.setIfInBounds i r⟩

def dropFrom (b : Bank) (texts : Texts) (i : Nat) : Texts :=
  match b.handle? i with
  | some r => texts.drop r
  | none => texts

/-- Put a new handle into a register and let go of the one it held. -/
def put (b : Bank) (texts : Texts) (i : Nat) (r : TextRef) : Bank :=
  if i < b.registers.size then b.place (b.dropFrom texts i) i (some r) else b

def change (b : Bank) (i : Nat) (f : TextRef → Texts × TextRef) : Bank :=
  match b.handle? i with
  | none => b
  | some r => b.place (f r).1 i (some (f r).2)

/-- Change the string of one register by that of another. A register and itself stand for two
handles. -/
def combine (b : Bank) (i j : Nat) (f : Texts → TextRef → TextRef → Texts × TextRef) : Bank :=
  match b.handle? j with
  | none => b
  | some source =>
    if i = j then
      b.change i fun r =>
        let (texts, r) := f (b.texts.share source) r source
        (texts.drop source, r)
    else b.change i fun r => f b.texts r source

def apply (b : Bank) : Action → Bank
  | .create i buffer =>
    let (texts, r) := b.texts.create buffer
    b.put texts i r
  | .share i j =>
    match b.handle? j with
    | none => b
    | some r => b.put (b.texts.share r) i r
  | .drop i => b.place (b.dropFrom b.texts i) i none
  | .swap i j => ⟨b.texts, b.registers.swapIfInBounds i j⟩
  | .update i offset bytes => b.change i fun r => b.texts.update r offset bytes
  | .push i bytes => b.change i fun r => b.texts.push r bytes
  | .copyFrom i j => b.combine i j Texts.copyFrom
  | .extend i j => b.combine i j Texts.extend

def run (b : Bank) (actions : List Action) : Bank := actions.foldl apply b

end Bank

end AwkCore
