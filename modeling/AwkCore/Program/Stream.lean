import AwkCore.Program

/-!
# The characters of a program

The scanner sees the bytes of a program without its carriage returns, each with its place. A line
feed is supplied at the end when the last byte read was none, so every readable program ends a line.
-/
namespace AwkCore

/-- A byte that the scanner sees. `linesRead` counts the program's lines read so far, and `joined`
tells that the byte before it on its line was seen too. -/
structure Glyph where
  byte : Byte
  location : Location
  linesRead : Nat
  joined : Bool
  deriving DecidableEq, Repr

/-- The glyphs that are left, what comes after them, and the number of lines in the program. -/
structure Stream where
  glyphs : List Glyph
  ending : Except Failure Location
  lineCount : Nat

namespace Stream

/-- The glyphs of a line; a carriage return only cuts the joint between its neighbours. -/
def ofBytes (location : Location) (linesRead : Nat) : Bool → Bytes → List Glyph
  | _, [] => []
  | joined, b :: bs =>
    if b = Byte.carriageReturn then ofBytes location linesRead false bs
    else ⟨b, location, linesRead, joined⟩ :: ofBytes location linesRead true bs

def ofLines (linesRead : Nat) : List Line → List Glyph
  | [] => []
  | l :: ls => ofBytes l.location (linesRead + 1) false l.bytes ++ ofLines (linesRead + 1) ls

/-- The line feed supplied where a program ends without one. -/
def supplied (p : Program) : List Glyph :=
  match p.ending with
  | .error _ => []
  | .ok place =>
    if p.text.getLast? = some Byte.newline then []
    else [⟨Byte.newline, place, p.lines.length, false⟩]

def ofProgram (p : Program) : Stream :=
  ⟨ofLines 0 p.lines ++ supplied p, p.ending, p.lines.length⟩

/-- The failure that lies right ahead, when no glyph is left before it. -/
def fault? (s : Stream) : Option Failure :=
  match s.glyphs, s.ending with
  | [], .error failure => some failure
  | _, _ => none

def finish (s : Stream) : Location :=
  match s.ending with
  | .ok place => place
  | .error _ => default

/-- Lines of the program that have been read when the stream is in this state. -/
def linesRead (s : Stream) : Nat :=
  match s.glyphs with
  | g :: _ => g.linesRead
  | [] => s.lineCount

end Stream

end AwkCore
