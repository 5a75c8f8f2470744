import AwkCore.Bytes

/-!
# String buffers

A buffer holds a string and one NUL byte after it, which counts in its capacity. Room for a string
that grows is at least doubled; room never shrinks.
-/
namespace AwkCore

structure Buffer where
  data : Bytes
  capacity : Nat
  deriving DecidableEq, Repr

namespace Buffer

/-- A buffer for a string, with the room asked for or else what the string needs. -/
def holding (content : Bytes) (room : Nat) : Buffer :=
  ⟨content ++ [0], max room (content.length + 1)⟩

def ofBytes (content : Bytes) : Buffer := holding content 0

def withCapacity (n : Nat) : Buffer := holding [] (n + 1)

def content (b : Buffer) : Bytes := b.data.dropLast

def length (b : Buffer) : Nat := b.data.length - 1

/-- The string up to its first NUL, or to the one that ends it. -/
def untilNul (b : Buffer) : Bytes := b.data.takeWhile (· ≠ 0)

/-- Room for a number of bytes: the capacity at least doubles when it does not suffice. -/
def reserve (b : Buffer) (needed : Nat) : Buffer :=
  if b.capacity < needed then { b with capacity := max needed (2 * b.capacity) } else b

def setContent (b : Buffer) (content : Bytes) : Buffer :=
  { b.reserve (content.length + 1) with data := content ++ [0] }

end Buffer

end AwkCore
