import AwkCore.Scanner.Literal
import AwkCore.Token

/-!
# Tokens written out

Tokens are written in the order in which they stand. A space goes before each, but not before the
end of a line and not between a function and its arguments. Literals are written in escapes alone.
-/
namespace AwkCore

/-- A byte as an escape of two hexadecimal digits. -/
def Byte.escaped (b : Byte) : Bytes := Byte.backslash :: 0x78 :: Byte.hexPair b

/-- A literal with its delimiters, every byte of it escaped. -/
def Scanner.Delimiter.enclose (d : Delimiter) (text : Bytes) : Bytes :=
  d.byte :: text.flatMap Byte.escaped ++ [d.byte]

namespace Token

/-- A token as it is written. The end of input is not. -/
def written (t : Token) : Bytes :=
  match t.kind with
  | .endOfInput => []
  | .string => Scanner.Delimiter.quote.enclose t.text
  | .regex => Scanner.Delimiter.slash.enclose t.text
  | _ => t.text

/-- What stands between a token and the one before it, whose kind is given. -/
def gap (previous : Kind) (t : Token) : Bytes :=
  if t.kind = .newline ∨ t.kind = .endOfInput then []
  else if previous = .function ∧ t.kind = .operator .leftParen then []
  else [0x20]

def renderAfter (previous : Kind) : List Token → Bytes
  | [] => []
  | t :: ts => t.gap previous ++ t.written ++ renderAfter t.kind ts

/-- The program that some tokens make. -/
def render (ts : List Token) : Bytes := renderAfter .endOfInput ts

end Token

end AwkCore
