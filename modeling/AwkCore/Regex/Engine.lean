import AwkCore.Regex.Limit
import AwkCore.Regex.Marked
import AwkCore.Regex.Parse
import AwkCore.Regex.Pattern

/-!
# An engine to run with

A context can be run with this engine: it reads a pattern as an expression, refuses one whose automaton
would be too large, and searches with marks. It knows no flags and no names of groups. What is proved of
contexts holds with every engine.
-/
namespace AwkCore.Regex

def engine : Engine where
  refusal? source :=
    match parse? source with
    | none => some .malformed
    | some r => if r.withinLimit then none else some .tooLarge
  finds source subject := (parse? source).any (·.search subject)

end AwkCore.Regex
