import AwkCore.Binary64.Decimal

/-!
# Numbers written in text

A numeral is a row of digits with at most one point and an optional exponent. A reader takes the
longest numeral that the text begins with: an exponent mark without digits after it is left alone.
-/
namespace AwkCore

/-- A numeral read from the front of a text: its parts, and how many bytes it takes. -/
structure Numeral where
  whole : Bytes
  fraction : Bytes
  exponent : Int
  length : Nat
  deriving DecidableEq, Repr

namespace Numeral

def digits (s : Bytes) : Bytes := s.takeWhile Byte.isDigit

def value (digits : Bytes) : Nat := digits.foldl (fun n d => 10 * n + Byte.digitValue d) 0

/-- Sign and digits of an exponent that follows a mark, with their length; none without a digit. -/
def exponentBody? (s : Bytes) : Option (Int × Nat) :=
  let sign := match s with
    | 0x2b :: _ => some false
    | 0x2d :: _ => some true
    | _ => none
  let ds := digits (s.drop (if sign.isSome then 1 else 0))
  if ds.isEmpty then none
  else
    let n : Int := value ds
    some (if sign = some true then -n else n, (if sign.isSome then 1 else 0) + ds.length)

/-- The exponent at the front of a text and its length with the mark; zero when there is none. -/
def exponentPart (s : Bytes) : Int × Nat :=
  match s with
  | mark :: rest =>
    if mark = 0x65 ∨ mark = 0x45 then
      match exponentBody? rest with
      | some (e, length) => (e, length + 1)
      | none => (0, 0)
    else (0, 0)
  | [] => (0, 0)

/-- Digits after a point at the front of a text, and their length with the point. -/
def fractionPart (s : Bytes) : Bytes × Nat :=
  match s with
  | 0x2e :: rest => (digits rest, (digits rest).length + 1)
  | _ => ([], 0)

def read? (s : Bytes) : Option Numeral :=
  let whole := digits s
  let point := fractionPart (s.drop whole.length)
  let mark := exponentPart (s.drop (whole.length + point.2))
  if whole.isEmpty && point.1.isEmpty then none
  else some ⟨whole, point.1, mark.1, whole.length + point.2 + mark.2⟩

/-- The part of a numeral that has been reached when it is read byte by byte. -/
inductive Stage
  | whole | fraction | mark | sign | exponent
  deriving DecidableEq, Repr

/-- The stage after one more byte, unless the byte can be no part of the numeral. -/
def Stage.next? (stage : Stage) (b : Byte) : Option Stage :=
  match stage with
  | whole | fraction =>
    if Byte.isDigit b then some stage
    else if b = 0x2e ∧ stage = whole then some fraction
    else if b = 0x65 ∨ b = 0x45 then some mark
    else none
  | mark =>
    if Byte.isDigit b then some exponent
    else if b = 0x2b ∨ b = 0x2d then some sign
    else none
  | sign | exponent => if Byte.isDigit b then some exponent else none

def decimal (n : Numeral) : Decimal :=
  ⟨value (n.whole ++ n.fraction), n.exponent - n.fraction.length⟩

def number (n : Numeral) : Binary64 := n.decimal.nearest

/-- A sign at the front of a text: whether it is a minus, and the text after it. -/
def splitSign (s : Bytes) : Bool × Bytes :=
  match s with
  | 0x2d :: rest => (true, rest)
  | 0x2b :: rest => (false, rest)
  | _ => (false, s)

def signed (negative : Bool) (x : Binary64) : Binary64 := if negative then x.negate else x

/-- The number that a text begins with after blanks and a sign; zero if there is none. -/
def leading (s : Bytes) : Binary64 :=
  let body := splitSign (s.dropWhile Byte.isSpace)
  match read? body.2 with
  | some n => signed body.1 n.number
  | none => Binary64.zero

def trim (s : Bytes) : Bytes :=
  ((s.dropWhile Byte.isSpace).reverse.dropWhile Byte.isSpace).reverse

/-- The number that a text is as a whole, blanks around it and a sign allowed. -/
def whole? (s : Bytes) : Option Binary64 :=
  let body := splitSign (trim s)
  match read? body.2 with
  | some n => if n.length = body.2.length then some (signed body.1 n.number) else none
  | none => none

end Numeral

end AwkCore
