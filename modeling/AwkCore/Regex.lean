import AwkCore.Regex.ByteSet

/-!
# Regular expressions over bytes

An expression matches a stretch of bytes. Its assertions look at the two neighbours of a place
between bytes, of which they see no more than whether there is one and whether it belongs to a word.
-/
namespace AwkCore

/-- What stands on one side of a place: the end of the text, a byte of a word, or another byte. -/
inductive Neighbour
  | edge | word | other
  deriving DecidableEq, Repr

def Neighbour.ofByte (b : Byte) : Neighbour := if ByteSet.word.contains b then word else other

structure Place where
  before : Neighbour
  after : Neighbour
  deriving DecidableEq, Repr

inductive Assertion
  | textStart | textEnd | wordBoundary | noWordBoundary | wordStart | wordEnd
  deriving DecidableEq, Repr

def Assertion.holds (a : Assertion) (p : Place) : Bool :=
  let left := p.before = .word
  let right := p.after = .word
  match a with
  | textStart => p.before = .edge
  | textEnd => p.after = .edge
  | wordBoundary => left ≠ right
  | noWordBoundary => left = right
  | wordStart => ¬ left ∧ right
  | wordEnd => left ∧ ¬ right

/-- The expression `repeated r low high` is a row of at least `low` copies of `r`, and at most `high`
if there is such a bound. A group is what stands in parentheses. -/
inductive Regex
  | empty
  | one (set : ByteSet)
  | assertion (a : Assertion)
  | seq (r s : Regex)
  | alt (r s : Regex)
  | group (r : Regex)
  | repeated (r : Regex) (low : Nat) (high : Option Nat)
  deriving DecidableEq, Repr

namespace Regex

def byte (b : Byte) : Regex := one (ByteSet.single b)

end Regex

end AwkCore
