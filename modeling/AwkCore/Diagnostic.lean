/-!
# Places, warnings and failures

A failure is one of the causes below; its wording is `Failure.message`.
-/
namespace AwkCore

/-- A line of a program, counted from one in the unit it belongs to. -/
structure Location where
  unit : String
  line : Nat
  deriving DecidableEq, Repr, Inhabited

def Location.text (l : Location) : String := l.unit ++ ": " ++ toString l.line

structure Diagnostic where
  location : Location
  message : String
  deriving DecidableEq, Repr

def Diagnostic.text (d : Diagnostic) : String := d.location.text ++ ": warning: " ++ d.message

inductive FileFault
  | missing
  | notDirectory
  | isDirectory
  | other (text : String)
  deriving DecidableEq, Repr

def FileFault.text : FileFault → String
  | missing => "No such file or directory (os error 2)"
  | notDirectory => "Not a directory (os error 20)"
  | isDirectory => "Is a directory (os error 21)"
  | other text => text

inductive Failure
  | lexical (location : Location) (message : String)
  | cannotOpen (path : String) (cause : FileFault)
  | cannotRead (cause : FileFault)
  | noProgram
  | runtime (message : String)
  deriving DecidableEq, Repr

def Failure.message : Failure → String
  | lexical location message => location.text ++ ": " ++ message
  | cannotOpen path cause => "can't open " ++ path ++ ": " ++ cause.text
  | cannotRead cause => "I/O error: " ++ cause.text
  | noProgram => "no program source given"
  | runtime message => "runtime error: " ++ message

end AwkCore
