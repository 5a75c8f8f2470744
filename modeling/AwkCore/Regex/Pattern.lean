import AwkCore.Bytes

/-!
# Patterns

A pattern comes as bytes of any value. Before it is compiled, every byte above 0x7f, with the backslash
that escapes it if there is one, is written as a hexadecimal escape for that byte.

What compiles a pattern and searches with it is no part of this library. It is an engine, of which no
more is fixed than the questions that it is asked.
-/
namespace AwkCore

/-- A compiled pattern is known by the ASCII text that it was compiled from. -/
structure Pattern where
  source : Bytes
  deriving DecidableEq, Repr

namespace Pattern

def hexEscape (b : Byte) : Bytes := ascii "\\x" ++ Byte.hexPair b

/-- Write a pattern in ASCII; `held` tells that a backslash that escapes the next byte was read. -/
def inAsciiFrom : (held : Bool) → Bytes → Bytes
  | false, [] => []
  | true, [] => [Byte.backslash]
  | false, b :: s =>
    if b = Byte.backslash then inAsciiFrom true s
    else if Byte.isAscii b then b :: inAsciiFrom false s
    else hexEscape b ++ inAsciiFrom false s
  | true, b :: s =>
    if Byte.isAscii b then Byte.backslash :: b :: inAsciiFrom false s
    else hexEscape b ++ inAsciiFrom false s

def inAscii (pattern : Bytes) : Bytes := inAsciiFrom false pattern

end Pattern

/-- Why an engine does not compile a pattern: it is no regular expression, or what it compiles to is
larger than the engine admits. -/
inductive Refusal
  | malformed
  | tooLarge
  deriving DecidableEq, Repr

/-- An engine for regular expressions over bytes: whether it refuses the ASCII text of a pattern, and
otherwise whether it finds the pattern in a subject. -/
structure Engine where
  refusal? : (source : Bytes) → Option Refusal
  finds : (source subject : Bytes) → Bool

namespace Engine

variable (engine : Engine)

def compile? (pattern : Bytes) : Option Pattern :=
  let source := Pattern.inAscii pattern
  if engine.refusal? source = none then some ⟨source⟩ else none

def isMatch (p : Pattern) (subject : Bytes) : Bool := engine.finds p.source subject

end Engine

end AwkCore
