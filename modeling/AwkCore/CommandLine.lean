import AwkCore.Program.Files
import AwkCore.Scanner.Progress
import AwkCore.Text.Escaped

/-!
# The command line

The command lists the tokens of a program, one on a line: the line number, the class, the kind and
the text with control bytes made visible. Warnings, echoed lines and failures go to the other
output.
-/
namespace AwkCore.CommandLine

def commandName : String := "zawk"
def version : String := "0.1.0"

/-- The program that the arguments select: the first operand or the files named by options. -/
inductive Selection
  | text (program : String)
  | files (paths : List String)
  deriving DecidableEq, Repr

inductive Command
  | help
  | version
  | refuse (message : String)
  | list (selection : Selection) (echo : Bool)
  deriving DecidableEq, Repr

/-- Options seen so far: program files, the first operand, and whether lines are echoed. -/
structure Options where
  paths : List String := []
  operand : Option String := none
  echo : Bool := false
  deriving DecidableEq, Repr

namespace Options

def addPath (o : Options) (path : String) : Options := { o with paths := o.paths ++ [path] }

/-- An operand is the program unless a file or an operand came before. -/
def addOperand (o : Options) (operand : String) : Options :=
  if o.paths.isEmpty && o.operand.isNone then { o with operand := some operand } else o

/-- What is asked for when no argument is left. Program files take precedence over an operand. -/
def command (o : Options) : Command :=
  if o.paths.isEmpty then
    match o.operand with
    | some program => .list (.text program) o.echo
    | none => .refuse "no program provided"
  else .list (.files o.paths) o.echo

end Options

/-- Read the arguments from the left. Help, the version and a refusal end the reading at once. -/
def parseFrom (o : Options) : List String → Command
  | [] => o.command
  | arg :: args =>
    if arg = "--help" ∨ arg = "-h" then .help
    else if arg = "--version" then .version
    else if arg = "-f" then
      match args with
      | [] => .refuse "option -f requires an argument"
      | path :: args => parseFrom (o.addPath path) args
    else if arg = "-p" then parseFrom { o with echo := true } args
    else if arg = "--" then
      match args with
      | [] => o.command
      | operand :: _ => (o.addOperand operand).command
    else match arg.toList with
      | '-' :: 'f' :: path => parseFrom (o.addPath (String.ofList path)) args
      | '-' :: _ :: _ => .refuse ("unknown option: " ++ arg)
      | _ => parseFrom (o.addOperand arg) args

def parse (args : List String) : Command := parseFrom {} args

def helpText : String :=
  "Usage: zawk [OPTIONS] 'program'\n" ++
  "       zawk [OPTIONS] -f progfile [-f progfile]...\n\n" ++
  "Scan an AWK program and print its tokens, one per line:\n" ++
  "  <line> <class> <kind> <text>\n\n" ++
  "Options:\n" ++
  "  -f progfile    Read the AWK program from file ('-' for stdin)\n" ++
  "  -p             Echo program lines to stderr as they are read\n" ++
  "  --version      Print version information\n" ++
  "  --help         Print this help message\n\n" ++
  "Environment:\n" ++
  "  ZAWK_LOG       Log filter (e.g. debug, zawk=trace)\n\n" ++
  "Examples:\n" ++
  "  zawk '\x7b print $1 \x7d'\n" ++
  "  zawk -f prog.awk -f lib.awk\n\n"

structure Report where
  code : Nat
  stdout : String
  stderr : String
  deriving DecidableEq, Repr

def textOf (bytes : Bytes) : String := String.ofList (bytes.map fun b => Char.ofNat b.toNat)

def tokenLine (t : Token) : String :=
  toString t.location.line ++ "\t" ++ t.kind.tokenClass.text ++ "\t" ++ t.kind.text ++ "\t"
    ++ textOf (Escaped.escape t.text) ++ "\n"

/-- Failures other than those of the scanner are reported in the name of the command. -/
def failureLine (failure : Failure) : String :=
  match failure with
  | .lexical _ _ => failure.message ++ "\n"
  | _ => commandName ++ ": " ++ failure.message ++ "\n"

def refusal (message : String) : Report := ⟨2, "", commandName ++ ": " ++ message ++ "\n"⟩

def warningLines (ds : List Diagnostic) : String := String.join (ds.map fun d => d.text ++ "\n")

def listed (a : Scanner.Advance) : String :=
  match a.outcome with
  | .ok s => tokenLine s.current
  | .error _ => ""

def failed (a : Scanner.Advance) : Bool :=
  match a.outcome with
  | .ok _ => false
  | .error _ => true

/-- What is noted call by call: the lines to be echoed that have been read since the last call, then
warnings, then the failure if there is one. -/
def notesFrom (echo : List Line) (linesRead : Nat) : List Scanner.Advance → List String
  | [] => []
  | a :: as =>
    let fresh := a.linesRead - linesRead
    let failure := match a.outcome with
      | .ok _ => ""
      | .error failure => failureLine failure
    (String.join ((echo.take fresh).map Line.echo) ++ warningLines a.warnings ++ failure)
      :: notesFrom (echo.drop fresh) a.linesRead as

/-- Report the calls of a scan, with some lines to be echoed. -/
def reportCalls (echo : List Line) (calls : List Scanner.Advance) : Report :=
  ⟨if calls.any failed then 2 else 0, String.join (calls.map listed),
    String.join (notesFrom echo 0 calls)⟩

def report (p : Program) (echo : Bool) : Report :=
  reportCalls (if echo then p.lines else []) (Scanner.ofProgram p).advances

def Selection.program (system : FileSystem) (stdin : OpenFile) : Selection → Except Failure Program
  | text program => .ok (Program.inline (Utf8.encode program))
  | files paths => system.program stdin paths

def Command.report (read : Selection → Except Failure Program) : Command → Report
  | help => ⟨0, helpText, ""⟩
  | version => ⟨0, commandName ++ " " ++ CommandLine.version ++ "\n", ""⟩
  | refuse message => refusal message
  | list selection echo =>
    match read selection with
    | .error failure => refusal failure.message
    | .ok program => CommandLine.report program echo

def run (args : List String) (system : FileSystem) (stdin : OpenFile) : Report :=
  (parse args).report (Selection.program system stdin)

end AwkCore.CommandLine
