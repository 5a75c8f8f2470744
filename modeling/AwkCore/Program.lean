import AwkCore.Text.Utf8
import AwkCore.Diagnostic

/-!
# Program text

A program is a list of units read back to back, with nothing between them. Reading cuts each unit
into lines and counts its lines anew; it ends early at a unit that cannot be read.
-/
namespace AwkCore

/-- A named piece of program text, or the reason why it cannot be read. -/
structure SourceUnit where
  name : String
  body : Except Failure Bytes

def inlineName : String := "(command line)"

/-- A line as it is read: its last byte may be a line feed, no other byte is. -/
structure Line where
  location : Location
  bytes : Bytes
  deriving DecidableEq, Repr

/-- The lines of a program in order, and how reading ends: at the place where the last unit ends, or
with a failure. -/
structure Program where
  lines : List Line
  ending : Except Failure Location

namespace Program

/-- Cut a text after each line feed; what follows the last one is a line too, unless it is empty. -/
def cut : Bytes → List Bytes
  | [] => []
  | b :: bs =>
    if b = Byte.newline then [b] :: cut bs
    else match cut bs with
      | [] => [[b]]
      | l :: ls => (b :: l) :: ls

def linesOf (unit : String) (text : Bytes) : List Line :=
  (cut text).mapIdx fun i bytes => ⟨⟨unit, i + 1⟩, bytes⟩

def ofUnits (start : Location) : List SourceUnit → Program
  | [] => ⟨[], .ok start⟩
  | u :: us =>
    match u.body with
    | .error failure => ⟨[], .error failure⟩
    | .ok text =>
      let lines := linesOf u.name text
      let rest := ofUnits ⟨u.name, lines.length⟩ us
      ⟨lines ++ rest.lines, rest.ending⟩

def inline (text : Bytes) : Program := ofUnits ⟨inlineName, 0⟩ [⟨inlineName, .ok text⟩]

/-- The text of a program up to its end or to the unit that fails. -/
def text (p : Program) : Bytes := p.lines.flatMap Line.bytes

end Program

/-- A line as it is echoed: number in three columns, then the text, ended by a line feed. -/
def Line.echo (l : Line) : String :=
  let number := toString l.location.line
  let text := Utf8.lossy l.bytes
  "|>" ++ String.ofList (List.replicate (3 - number.length) ' ') ++ number ++ " " ++ text
    ++ (if l.bytes.getLast? = some Byte.newline then "" else "\n")

end AwkCore
