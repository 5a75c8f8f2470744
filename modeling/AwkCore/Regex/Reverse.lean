import AwkCore.Regex

/-!
# Reversed expressions

The reverse of an expression matches the same texts read backward.
-/
namespace AwkCore

def Assertion.reverse : Assertion → Assertion
  | textStart => textEnd
  | textEnd => textStart
  | wordBoundary => wordBoundary
  | noWordBoundary => noWordBoundary
  | wordStart => wordEnd
  | wordEnd => wordStart

namespace Regex

def before (r : Regex) : Regex → Regex
  | empty => r
  | rest => seq r rest

/-- The reverse of an expression in front of a row. -/
def reverseOnto : Regex → Regex → Regex
  | empty, rest => rest
  | one set, rest => (one set).before rest
  | assertion a, rest => (assertion a.reverse).before rest
  | seq r s, rest => s.reverseOnto (r.reverseOnto rest)
  | alt r s, rest => (alt (r.reverseOnto empty) (s.reverseOnto empty)).before rest
  | group r, rest => (group (r.reverseOnto empty)).before rest
  | repeated r low high, rest => (repeated (r.reverseOnto empty) low high).before rest

def reverse (r : Regex) : Regex := r.reverseOnto empty

end Regex

end AwkCore
