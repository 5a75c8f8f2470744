import AwkCore.Context
import AwkCore.Scanner.Progress

/-!
# Entering a whole program

`Context.enterProgram` scans what is left of a program and enters every token before the end of
input into the tables. A pattern that is refused enters nothing and does not stop the scan.
-/
namespace AwkCore.Context

/-- The context after a scan, what each token was entered as, and the failure that stopped it. -/
structure Compilation where
  context : Context
  entries : List Entry
  failure : Option Failure

def enterAll (c : Context) (engine : Engine) : List Scanner.Advance → Compilation
  | [] => ⟨c, [], none⟩
  | a :: as =>
    match a.outcome with
    | .error failure => ⟨c, [], some failure⟩
    | .ok s =>
      let c := { c with scanner := s }
      if s.current.kind = .endOfInput then ⟨c, [], none⟩
      else
        let (c, entry) := c.enterToken engine
        let rest := enterAll c engine as
        { rest with entries := entry :: rest.entries }

def enterProgram (c : Context) (engine : Engine) : Compilation :=
  c.enterAll engine c.scanner.advances

end AwkCore.Context
