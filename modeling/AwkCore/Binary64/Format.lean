import AwkCore.Binary64.Decimal

/-!
# Numbers as text

Whole numbers below 10^15 are written with all their digits. Other numbers are rounded to six
significant digits and written in positional form, or with an exponent when the number is small or
large, without zeros at the end of the fraction.
-/
namespace AwkCore

def digitCount (n : Nat) : Nat :=
  if n < 10 then 1 else digitCount (n / 10) + 1

/-- Six significant digits and the power of ten of the first. -/
structure Significant where
  digits : Nat
  exponent : Int
  deriving DecidableEq, Repr

namespace Significant

def precision : Nat := 6

/-- The power of ten at or below a positive quotient. -/
def magnitude (num den : Nat) : Int :=
  if den ≤ num then digitCount (num / den) - 1
  else -(digitCount ((den - 1) / num) : Int)

/-- Six digits for a number that lies between 10^e and 10^(e+1). -/
def digitsAt (num den : Nat) (e : Int) : Nat :=
  let places := (precision - 1 : Int) - e
  if 0 ≤ places then Binary64.roundDiv (num * Nat.pow 10 places.toNat) den
  else Binary64.roundDiv num (den * Nat.pow 10 (-places).toNat)

/-- A positive quotient rounded to six digits, ties to even. -/
def round (num den : Nat) : Significant :=
  let e := magnitude num den
  let digits := digitsAt num den e
  if digits = Nat.pow 10 precision then ⟨Nat.pow 10 (precision - 1), e + 1⟩ else ⟨digits, e⟩

end Significant

namespace Binary64

def padded (width n : Nat) : String :=
  let digits := toString n
  String.ofList (List.replicate (width - digits.length) '0') ++ digits

/-- Digits with a point after the first `whole` of them; zeros that end the fraction are left out. -/
def pointed (whole : Nat) (digits : List Char) : List Char :=
  let fraction := ((digits.drop whole).reverse.dropWhile (· == '0')).reverse
  digits.take whole ++ (if fraction.isEmpty then [] else '.' :: fraction)

/-- A magnitude rounded to so many places behind the point, ties to even. -/
def fixedText (x : Binary64) (places : Nat) : List Char :=
  let digits := (padded (places + 1) (roundDiv (x.units * Nat.pow 10 places) one)).toList
  pointed (digits.length - places) digits

/-- Text of a magnitude in six significant digits: an exponent below -4 or from 6 on is written out.
With any other exponent the magnitude is rounded again, to the places that six digits leave it. -/
def generalText (x : Binary64) : String :=
  let s := Significant.round x.units one
  if s.exponent < -4 || Significant.precision ≤ s.exponent then
    String.ofList (pointed 1 (toString s.digits).toList) ++ (if s.exponent < 0 then "e-" else "e+")
      ++ padded 2 s.exponent.natAbs
  else String.ofList (x.fixedText ((Significant.precision - 1 : Int) - s.exponent).toNat)

def plainBound : Nat := Nat.pow 10 15

/-- The whole number that a finite double is, if it is one below the bound. -/
def plain? (x : Binary64) : Option Nat :=
  if x.units % one = 0 ∧ x.units / one < plainBound then some (x.units / one) else none

/-- Text of a double. A whole number has no sign of zero; a NaN and an infinity have names. -/
def text (x : Binary64) : String :=
  let sign := if x.negative then "-" else ""
  if x.isNaN then sign ++ "nan"
  else if x.isInfinite then sign ++ "inf"
  else match x.plain? with
    | some 0 => "0"
    | some n => sign ++ toString n
    | none => sign ++ x.generalText

end Binary64

end AwkCore
