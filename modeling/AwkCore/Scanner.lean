import AwkCore.Scanner.Step

/-!
# Scanning a program

A scanner holds the stream, the current token and the kind of the token before it. Whether a slash
divides is decided from the current token alone. A failure of the input comes to light as soon as
the last glyph before it is used, ahead of any other complaint about the token that used it.
-/
namespace AwkCore

structure Scanner where
  stream : Stream
  current : Token
  previous : Kind

namespace Scanner

/-- A scanner at the start of a program. The token before the first counts as the end of input. -/
def ofProgram (p : Program) : Scanner :=
  let stream := Stream.ofProgram p
  ⟨stream, ⟨.endOfInput, [], Binary64.zero, stream.finish⟩, .endOfInput⟩

/-- What a call for a token gives: the scanner after it or a failure, the warnings it recorded, and
how many lines of the program have been read by then. -/
structure Advance where
  outcome : Except Failure Scanner
  warnings : List Diagnostic
  linesRead : Nat

def next (s : Scanner) : Advance :=
  match s.stream.fault? with
  | some failure => ⟨.error failure, [], s.stream.linesRead⟩
  | none =>
    let step := readToken s.stream.finish s.current.kind.producesValue s.stream.glyphs
    let stream := { s.stream with glyphs := step.rest }
    let outcome := match stream.fault? with
      | some failure => .error failure
      | none => step.outcome.map fun token => ⟨stream, token, s.current.kind⟩
    ⟨outcome, step.warnings, stream.linesRead⟩

end Scanner

end AwkCore
