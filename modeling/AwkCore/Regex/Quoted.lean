import AwkCore.Regex.Pattern
import AwkCore.Token.Quoting

/-!
# Quoted regular expressions

A byte string is quoted when each of its bytes is spelled so that it stands for itself in a regular
expression. What reaches the reader of patterns is then one atom for each byte.
-/
namespace AwkCore

namespace Byte

/-- The signs that mean something in a regular expression. -/
def regexSigns : Bytes := ascii ".[]()*+?\x7b\x7d|^$-"

/-- A byte that stands for itself in a pattern. -/
def plainly (b : Byte) : Bytes := if b ∈ regexSigns ∨ b = backslash then [backslash, b] else [b]

end Byte

/-- A byte to be quoted, and which digits are capital letters if it takes a hexadecimal escape. -/
structure Quotation where
  byte : Byte
  high : Bool
  low : Bool
  deriving DecidableEq, Repr

namespace Quotation

def written (q : Quotation) : Bytes :=
  if q.byte ∈ Byte.regexSigns ∨ q.byte ∈ [0x22, 0x2f, Byte.backslash] then [Byte.backslash, q.byte]
  else if Byte.isPrintable q.byte then [q.byte]
  else if q.byte = Byte.newline then ascii "\\n"
  else if q.byte = Byte.carriageReturn then ascii "\\r"
  else q.byte.escapedIn q.high q.low

/-- The regular expression literal that some quoted bytes make. -/
def literal (qs : List Quotation) : Bytes := 0x2f :: qs.flatMap written ++ [0x2f]

end Quotation

/-- The atom of a pattern that reads one byte. -/
def Pattern.atom (b : Byte) : Bytes := if Byte.isAscii b then b.plainly else hexEscape b

end AwkCore
