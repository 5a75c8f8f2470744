import AwkCore.Bytes

/-!
# Double precision numbers

The nonnegative doubles in ascending order are numbered from zero: the rank of a double is its place
in that order, which is also its bit pattern without the sign. Infinity ends the order and a single
NaN stands one above it. Every finite double is a whole number of units of 2^-1074.
-/
namespace AwkCore

def infinityRank : Nat := 0x7ff0000000000000

structure Binary64 where
  negative : Bool
  rank : Nat
  rank_le : rank ≤ infinityRank + 1 := by decide
  deriving DecidableEq, Repr

namespace Binary64

/-- Doubles of one binary exponent: ranks go up to the next power of two in this many steps. -/
def binade : Nat := Nat.pow 2 52

def zero : Binary64 := ⟨false, 0, by decide⟩
def infinity : Binary64 := ⟨false, infinityRank, by decide⟩
def nan : Binary64 := ⟨false, infinityRank + 1, by decide⟩

instance : Inhabited Binary64 := ⟨zero⟩

def isNaN (x : Binary64) : Bool := infinityRank < x.rank
def isInfinite (x : Binary64) : Bool := x.rank == infinityRank
def isZero (x : Binary64) : Bool := x.rank == 0

def negate (x : Binary64) : Binary64 := { x with negative := !x.negative }

/-- Bit pattern with the sign on top; every pattern beyond infinity is read as the one NaN. -/
def ofBits (bits : Nat) : Binary64 :=
  ⟨Nat.pow 2 63 ≤ bits, min (bits % Nat.pow 2 63) (infinityRank + 1), Nat.min_le_right _ _⟩

def toBits (x : Binary64) : Nat := (if x.negative then Nat.pow 2 63 else 0) + x.rank

/-- The binary exponent above the smallest one, zero for subnormal numbers. -/
def scale (x : Binary64) : Nat := x.rank / binade - 1

/-- The magnitude of a finite double in units of 2^-1074. -/
def units (x : Binary64) : Nat := (x.rank - x.scale * binade) * Nat.pow 2 x.scale

/-- Number of units in one. -/
def one : Nat := Nat.pow 2 1074

/-- The nearest whole number to a quotient; halfway cases go to the even neighbour. -/
def roundDiv (num den : Nat) : Nat :=
  let q := num / den
  let twice := 2 * (num % den)
  if twice < den then q
  else if den < twice then q + 1
  else q + q % 2

/-- The nonnegative double nearest to a quotient, ties to the even rank. -/
def nearest (num den : Nat) : Binary64 :=
  let scaled := num * one
  let scale := Nat.log2 (scaled / den) - 52
  let rank := scale * binade + roundDiv scaled (den * Nat.pow 2 scale)
  ⟨false, min rank infinityRank, Nat.le_succ_of_le (Nat.min_le_right _ _)⟩

def ofNat (n : Nat) : Binary64 := nearest n 1

def ofInt (n : Int) : Binary64 :=
  if n < 0 then (ofNat n.natAbs).negate else ofNat n.natAbs

/-- Position on the number line, the same for both zeros; none for a NaN. -/
def position? (x : Binary64) : Option Int :=
  if x.isNaN then none else some (if x.negative then -(x.rank : Int) else x.rank)

/-- Order of two numbers; a NaN counts as equal to everything. -/
def order (x y : Binary64) : Ordering :=
  match x.position?, y.position? with
  | some a, some b => compare a b
  | _, _ => .eq

end Binary64

end AwkCore
