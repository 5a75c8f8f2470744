import AwkCore.Bytes

/-!
# Sets of bytes

A set of bytes is a row of 256 bits, one for each byte.
-/
namespace AwkCore

structure ByteSet where
  bits : BitVec 256
  deriving DecidableEq, Repr

namespace ByteSet

def contains (s : ByteSet) (b : Byte) : Bool := s.bits.getLsbD b.toNat

def empty : ByteSet := ⟨0⟩

def range (low high : Byte) : ByteSet :=
  ⟨BitVec.ofNat 256 ((Nat.pow 2 (high.toNat + 1 - low.toNat) - 1) <<< low.toNat)⟩

def single (b : Byte) : ByteSet := range b b

def union (s t : ByteSet) : ByteSet := ⟨s.bits ||| t.bits⟩
def inter (s t : ByteSet) : ByteSet := ⟨s.bits &&& t.bits⟩
def compl (s : ByteSet) : ByteSet := ⟨~~~s.bits⟩
def diff (s t : ByteSet) : ByteSet := s.inter t.compl
def symmDiff (s t : ByteSet) : ByteSet := ⟨s.bits ^^^ t.bits⟩

def unions (sets : List ByteSet) : ByteSet := sets.foldl union empty

/-- Number of ranges that the set falls into: each starts at a byte whose neighbour below is not in
the set. -/
def runs (s : ByteSet) : Nat :=
  let starts := s.bits &&& ~~~(s.bits <<< 1)
  (List.range 256).countP starts.getLsbD

/-- The byte of a set that has no other: taking one away from its power of two clears its bit. -/
def byte? (s : ByteSet) : Option Byte :=
  if s.bits ≠ 0 ∧ s.bits &&& (s.bits - 1) = 0 then some (Nat.log2 s.bits.toNat).toUInt8 else none

def complIf (negated : Bool) (s : ByteSet) : ByteSet := if negated then s.compl else s

def ofRanges (ranges : List (Byte × Byte)) : ByteSet :=
  ranges.foldl (fun s r => s.union (range r.1 r.2)) empty

def digit : ByteSet := range 0x30 0x39
def upper : ByteSet := range 0x41 0x5a
def lower : ByteSet := range 0x61 0x7a
def alpha : ByteSet := upper.union lower
def alnum : ByteSet := alpha.union digit
def word : ByteSet := alnum.union (single 0x5f)
def blank : ByteSet := ofRanges [(0x09, 0x09), (0x20, 0x20)]

/-- Space and the controls from tab to carriage return, the vertical tab among them. -/
def space : ByteSet := ofRanges [(0x09, 0x0d), (0x20, 0x20)]

def graph : ByteSet := range 0x21 0x7e
def punct : ByteSet := graph.diff alnum

def named : List (String × ByteSet) :=
  [("alnum", alnum), ("alpha", alpha), ("ascii", range 0x00 0x7f), ("blank", blank),
    ("cntrl", ofRanges [(0x00, 0x1f), (0x7f, 0x7f)]), ("digit", digit), ("graph", graph),
    ("lower", lower), ("print", range 0x20 0x7e), ("punct", punct), ("space", space),
    ("upper", upper), ("word", word),
    ("xdigit", ofRanges [(0x30, 0x39), (0x41, 0x46), (0x61, 0x66)])]

def named? (name : Bytes) : Option ByteSet :=
  (named.find? fun entry => ascii entry.1 = name).map Prod.snd

def notNewline : ByteSet := (single Byte.newline).compl

end ByteSet

end AwkCore
