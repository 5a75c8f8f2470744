import AwkCore.Binary64

/-!
# Decimal numbers

A decimal is a whole number times a power of ten. `Decimal.nearest` reads it as a double, with no
limit on the number of digits or the size of the exponent.
-/
namespace AwkCore

/-- The number `mantissa * 10 ^ exponent`. -/
structure Decimal where
  mantissa : Nat
  exponent : Int
  deriving DecidableEq, Repr

namespace Decimal

/-- Every number of this order of magnitude lies above the largest double. -/
def tooLarge : Int := 310

/-- Every number below this order of magnitude rounds to zero. -/
def tooSmall : Int := -330

/-- A power of ten that the number reaches, unless it is zero. -/
def lowMagnitude (d : Decimal) : Int := (Nat.log2 d.mantissa * 3 / 10 : Nat) + d.exponent

/-- A power of ten that the number stays below. -/
def highMagnitude (d : Decimal) : Int := (Nat.log2 d.mantissa / 3 + 1 : Nat) + d.exponent

/-- The nearest double, ties to even; a number out of range gives infinity or zero without its power
of ten being worked out. -/
def nearest (d : Decimal) : Binary64 :=
  if d.mantissa = 0 then Binary64.zero
  else if tooLarge ≤ d.lowMagnitude then Binary64.infinity
  else if d.highMagnitude ≤ tooSmall then Binary64.zero
  else if d.exponent < 0 then Binary64.nearest d.mantissa (Nat.pow 10 (-d.exponent).toNat)
  else Binary64.nearest (d.mantissa * Nat.pow 10 d.exponent.toNat) 1

end Decimal

end AwkCore
