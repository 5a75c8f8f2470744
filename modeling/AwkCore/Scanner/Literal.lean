import AwkCore.Program.Stream

/-!
# String and regular expression literals

A literal runs up to its closing delimiter. Escapes are resolved on the way; in a regular expression
a backslash that means something to its reader stays.
-/
namespace AwkCore.Scanner

inductive Delimiter
  | quote
  | slash
  deriving DecidableEq, Repr

namespace Delimiter

def byte : Delimiter → Byte
  | quote => 0x22
  | slash => 0x2f

def noun : Delimiter → String
  | quote => "string"
  | slash => "regex"

end Delimiter

/-- Bytes after which a backslash in a regular expression is no surprise. -/
def regexPunctuation : Bytes := ascii ".[]()*+?\x7b\x7d|^$-"

def namedEscape? (c : Byte) : Option Byte :=
  if c = 0x5c then some 0x5c
  else if c = 0x61 then some 0x07
  else if c = 0x62 then some 0x08
  else if c = 0x66 then some 0x0c
  else if c = 0x6e then some 0x0a
  else if c = 0x72 then some 0x0d
  else if c = 0x74 then some 0x09
  else if c = 0x76 then some 0x0b
  else if c = 0x22 then some 0x22
  else if c = 0x2f then some 0x2f
  else none

/-- What an escape adds to the literal, its warnings, and how many glyphs after the backslash it
uses. -/
structure Escape where
  bytes : Bytes
  warnings : List Diagnostic
  used : Nat
  deriving DecidableEq, Repr

/-- An escape in numbers: the value of its digits modulo 256. -/
def codeByte (base : Nat) (digits : List Nat) : Byte :=
  (digits.foldl (fun n d => base * n + d) 0).toUInt8

def hexDigits (gs : List Glyph) : List Nat :=
  ((gs.take 2).map (Byte.hexValue? ·.byte)).takeWhile Option.isSome |>.filterMap id

def octalDigits (gs : List Glyph) : List Nat :=
  ((gs.take 3).takeWhile (Byte.isOctalDigit ·.byte)).map (Byte.digitValue ·.byte)

def shown (c : Byte) : String := (Char.ofNat c.toNat).toString

/-- An escape without a meaning: only the backslash is dealt with, the character is left over. -/
def unknownEscape (d : Delimiter) (g : Glyph) : Escape :=
  let c := shown g.byte
  match d with
  | .quote => ⟨[], [⟨g.location, "'\\" ++ c ++ "' treated as plain '" ++ c ++ "'"⟩], 0⟩
  | .slash =>
    let warnings :=
      if g.byte ∈ regexPunctuation then []
      else [⟨g.location, "'\\" ++ c ++ "' -- unknown regex escape"⟩]
    ⟨[Byte.backslash], warnings, 0⟩

/-- The escape that the glyphs after a backslash make. -/
def readEscape (d : Delimiter) : List Glyph → Escape
  | [] => ⟨[], [], 0⟩
  | g :: gs =>
    if g.byte = Byte.newline then ⟨[], [], 1⟩
    else match namedEscape? g.byte with
      | some b =>
        if d = .slash ∧ b = Byte.backslash then ⟨[b, b], [], 1⟩ else ⟨[b], [], 1⟩
      | none =>
        if g.byte = 0x78 then
          let digits := hexDigits gs
          if digits.isEmpty then ⟨[g.byte], [], 1⟩
          else ⟨[codeByte 16 digits], [], 1 + digits.length⟩
        else if Byte.isOctalDigit g.byte then
          let digits := octalDigits (g :: gs)
          ⟨[codeByte 8 digits], [], digits.length⟩
        else if Byte.isDigit g.byte then ⟨[g.byte], [], 1⟩
        else unknownEscape d g

inductive LiteralEnd
  | closed
  | brokenLine
  | exhausted
  deriving DecidableEq, Repr

/-- The content of a literal, the warnings it gave, how it ended, and what is left. -/
structure Literal where
  text : Bytes
  warnings : List Diagnostic
  ending : LiteralEnd
  rest : List Glyph
  deriving DecidableEq, Repr

def Literal.prepend (bytes : Bytes) (warnings : List Diagnostic) (l : Literal) : Literal :=
  { l with text := bytes ++ l.text, warnings := warnings ++ l.warnings }

/-- Read a literal after its opening delimiter; the first glyphs, as many as `used` tells, belong to
an escape already resolved. -/
def readLiteral (d : Delimiter) : (used : Nat) → List Glyph → Literal
  | _, [] => ⟨[], [], .exhausted, []⟩
  | used + 1, _ :: gs => readLiteral d used gs
  | 0, g :: gs =>
    if g.byte = d.byte then ⟨[], [], .closed, gs⟩
    else if g.byte = Byte.newline then ⟨[], [], .brokenLine, g :: gs⟩
    else if g.byte = Byte.backslash then
      let e := readEscape d gs
      (readLiteral d e.used gs).prepend e.bytes e.warnings
    else (readLiteral d 0 gs).prepend [g.byte] []

end AwkCore.Scanner
