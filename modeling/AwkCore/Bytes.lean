/-!
# Bytes

Program text, strings and regular expressions are lists of bytes. The character classes here are
those of ASCII: a byte above 0x7f is in none of them.
-/
namespace AwkCore

abbrev Byte := UInt8

abbrev Bytes := List Byte

def ascii (s : String) : Bytes := s.toList.map Char.toUInt8

namespace Byte

def newline : Byte := 0x0a
def carriageReturn : Byte := 0x0d
def backslash : Byte := 0x5c

def isDigit (b : Byte) : Bool := 0x30 ≤ b && b ≤ 0x39
def isOctalDigit (b : Byte) : Bool := 0x30 ≤ b && b ≤ 0x37
def isUpper (b : Byte) : Bool := 0x41 ≤ b && b ≤ 0x5a
def isLower (b : Byte) : Bool := 0x61 ≤ b && b ≤ 0x7a
def isLetter (b : Byte) : Bool := isUpper b || isLower b
def isNameStart (b : Byte) : Bool := isLetter b || b == 0x5f
def isNamePart (b : Byte) : Bool := isNameStart b || isDigit b
def isAscii (b : Byte) : Bool := b < 0x80
def isPrintable (b : Byte) : Bool := 0x20 ≤ b && b ≤ 0x7e

def isBlank (b : Byte) : Bool := b == 0x20 || b == 0x09

/-- Space, tab, line feed, form feed and carriage return. A vertical tab is not among them. -/
def isSpace (b : Byte) : Bool :=
  b == 0x20 || b == 0x09 || b == 0x0a || b == 0x0c || b == 0x0d

/-- The value of a decimal digit, read also from bytes that are none. -/
def digitValue (b : Byte) : Nat := b.toNat - 0x30

def hexValue? (b : Byte) : Option Nat :=
  if isDigit b then some (b.toNat - 0x30)
  else if 0x61 ≤ b && b ≤ 0x66 then some (b.toNat - 0x61 + 10)
  else if 0x41 ≤ b && b ≤ 0x46 then some (b.toNat - 0x41 + 10)
  else none

def hexDigit (n : Nat) : Byte :=
  if n < 10 then (0x30 + n).toUInt8 else (0x61 + (n - 10)).toUInt8

def hexPair (b : Byte) : Bytes := [hexDigit (b.toNat / 16), hexDigit (b.toNat % 16)]

end Byte

namespace Bytes

/-- Lexicographic order by byte value; a proper beginning comes first. -/
def order : Bytes → Bytes → Ordering
  | [], [] => .eq
  | [], _ :: _ => .lt
  | _ :: _, [] => .gt
  | a :: as, b :: bs => if a < b then .lt else if b < a then .gt else order as bs

end Bytes

end AwkCore
