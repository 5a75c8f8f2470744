import AwkCore.Scanner.Literal

/-!
# Ways to write a string

A string literal can write a byte in several ways, and it can be continued on a new line between two
bytes. Pieces are the choices that make up a literal: together they say what is written, which string
it stands for and which warnings it gives.
-/
namespace AwkCore

namespace Byte

/-- A hexadecimal digit; from ten on it is a letter, capital or not. -/
def hexDigitIn (capital : Bool) (n : Nat) : Byte :=
  if capital && 10 ≤ n then (0x41 + (n - 10)).toUInt8 else hexDigit n

def octalDigit (n : Nat) : Byte := (0x30 + n).toUInt8

/-- A byte as an escape of two hexadecimal digits, each with a capital letter or not. -/
def escapedIn (high low : Bool) (b : Byte) : Bytes :=
  [backslash, 0x78, hexDigitIn high (b.toNat / 16), hexDigitIn low (b.toNat % 16)]

/-- The letters and signs that name an escape, with the bytes that they stand for. -/
def escapeNames : List (Byte × Byte) :=
  [(0x5c, 0x5c), (0x61, 0x07), (0x62, 0x08), (0x66, 0x0c), (0x6e, 0x0a), (0x72, 0x0d),
    (0x74, 0x09), (0x76, 0x0b), (0x22, 0x22), (0x2f, 0x2f)]

/-- A byte that stands for itself behind a backslash, though with a warning. -/
def Unnamed (b : Byte) : Prop :=
  isDigit b = false ∧ b ∉ [0x78, newline, carriageReturn] ∧ b ∉ escapeNames.map Prod.fst

end Byte

/-- The ways in which a string literal can write a byte. -/
inductive Spelling
  | plain (b : Byte) (usual : b ∉ [0x22, Byte.backslash, Byte.newline, Byte.carriageReturn])
  | named (c b : Byte) (names : (c, b) ∈ Byte.escapeNames)
  | hexadecimal (high low : Bool) (b : Byte)
  | octal (code : Fin 512)
  | unnamed (b : Byte) (meaningless : b.Unnamed)

namespace Spelling

/-- The byte that is meant. A code above 255 wraps around. -/
def byte : Spelling → Byte
  | plain b _ | named _ b _ | hexadecimal _ _ b | unnamed b _ => b
  | octal code => code.val.toUInt8

def written : Spelling → Bytes
  | plain b _ => [b]
  | named c _ _ => [Byte.backslash, c]
  | hexadecimal high low b => b.escapedIn high low
  | octal code =>
    [Byte.backslash, Byte.octalDigit (code / 64), Byte.octalDigit (code / 8 % 8),
      Byte.octalDigit (code % 8)]
  | unnamed b _ => [Byte.backslash, b]

def warnings (l : Location) : Spelling → List Diagnostic
  | unnamed b _ =>
    let c := Scanner.shown b
    [⟨l, "'\\" ++ c ++ "' treated as plain '" ++ c ++ "'"⟩]
  | _ => []

end Spelling

/-- A byte of a string, or the end of a line in the middle of it. -/
inductive Piece
  | spelled (s : Spelling)
  | continued

namespace Piece

def text : Piece → Bytes
  | spelled s => [s.byte]
  | continued => []

def written : Piece → Bytes
  | spelled s => s.written
  | continued => [Byte.backslash, Byte.newline]

/-- The literal that some pieces make. -/
def literal (ps : List Piece) : Bytes := 0x22 :: ps.flatMap written ++ [0x22]

/-- The warnings of pieces that start in some line of a unit. -/
def warnings (unit : String) : (line : Nat) → List Piece → List Diagnostic
  | _, [] => []
  | line, spelled s :: ps => s.warnings ⟨unit, line⟩ ++ warnings unit line ps
  | line, continued :: ps => warnings unit (line + 1) ps

end Piece

end AwkCore
