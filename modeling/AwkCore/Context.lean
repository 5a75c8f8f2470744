import AwkCore.Heap
import AwkCore.Scanner

/-!
# The tables of a compiler

A context scans a program and fills the tables that a compiler and an interpreter share: symbols,
functions, literals, fields, code and a stack. Names and literals are known by their place in a
table. The first global is no variable; the special variables come next. The engine that compiles
patterns is given from outside.
-/
namespace AwkCore

inductive SpecialVariable
  | argc | argv | convfmt | environ | filename | fnr | fs | nf | nr | ofmt | ofs | ors | rlength | rs
  | rstart | subsep
  deriving DecidableEq, Repr

namespace SpecialVariable

def all : List SpecialVariable :=
  [argc, argv, convfmt, environ, filename, fnr, fs, nf, nr, ofmt, ofs, ors, rlength, rs, rstart,
    subsep]

def name : SpecialVariable → String
  | argc => "ARGC"
  | argv => "ARGV"
  | convfmt => "CONVFMT"
  | environ => "ENVIRON"
  | filename => "FILENAME"
  | fnr => "FNR"
  | fs => "FS"
  | nf => "NF"
  | nr => "NR"
  | ofmt => "OFMT"
  | ofs => "OFS"
  | ors => "ORS"
  | rlength => "RLENGTH"
  | rs => "RS"
  | rstart => "RSTART"
  | subsep => "SUBSEP"

/-- Place among the globals; they start at one. -/
def index (v : SpecialVariable) : Nat := v.ctorIdx + 1

end SpecialVariable

inductive Usage
  | unknown | scalar | map | maybeMap
  deriving DecidableEq, Repr

structure Symbol where
  name : String
  usage : Usage
  deriving DecidableEq, Repr

def Symbol.new (name : String) : Symbol := ⟨name, .unknown⟩

structure Function where
  name : String
  defined : Bool
  called : Bool
  locals : Sequence Symbol
  address : Nat
  deriving DecidableEq, Repr

def Function.new (name : String) : Function := ⟨name, false, false, Sequence.new, 0⟩

structure Context where
  scanner : Scanner
  heap : Heap
  globals : Sequence Symbol
  locals : Sequence Symbol
  functions : Sequence Function
  literals : Sequence Stored
  fields : Sequence Stored
  code : Sequence Int
  stack : Sequence Stored

namespace Context

/-- The two arrays among the special variables are known as such. -/
def specialSymbol (v : SpecialVariable) : Symbol :=
  ⟨v.name, if v = .argv ∨ v = .environ then .map else .scalar⟩

def initialGlobals : List Symbol :=
  Symbol.new "" :: SpecialVariable.all.map specialSymbol

/-- Globals from this place on come from the program. -/
def specialLimit : Nat := initialGlobals.length

def workCapacity : Nat := 1024

def new (scanner : Scanner) : Context where
  scanner := scanner
  heap := Heap.empty
  globals := Sequence.ofList initialGlobals
  locals := Sequence.new
  functions := Sequence.new
  literals := Sequence.new
  fields := Sequence.new
  code := Sequence.withCapacity workCapacity
  stack := Sequence.withCapacity workCapacity

/-- Advance by a token, or leave the context as it is and answer the failure. -/
def scan (c : Context) : Except Failure Context :=
  c.scanner.next.outcome.map fun s => { c with scanner := s }

/-- The least place from one on whose global has a name. -/
def findGlobal? (c : Context) (name : String) : Option Nat :=
  ((c.globals.toList.drop 1).findIdx? (·.name = name)).map (· + 1)

def addGlobal (c : Context) (name : String) : Context :=
  { c with globals := c.globals.append (Symbol.new name) }

def findOrAddGlobal (c : Context) (name : String) : Context × Nat :=
  match c.findGlobal? name with
  | some i => (c, i)
  | none =>
    let i := c.globals.size
    (c.addGlobal name, i)

def findFunction? (c : Context) (name : String) : Option Nat :=
  c.functions.toList.findIdx? (·.name = name)

def findOrAddFunction (c : Context) (name : String) : Context × Nat :=
  match c.findFunction? name with
  | some i => (c, i)
  | none =>
    let i := c.functions.size
    ({ c with functions := c.functions.append (Function.new name) }, i)

def setUsage (c : Context) (i : Nat) (usage : Usage) : Context :=
  { c with globals := c.globals.modify i fun s => { s with usage := usage } }

def defineFunction (c : Context) (i : Nat) (locals : List String) : Context :=
  { c with
    functions := c.functions.modify i fun f =>
      { f with
        defined := true
        address := c.code.size
        locals := f.locals.appendAll (locals.map Symbol.new) } }

def addLocal (c : Context) (name : String) : Context :=
  { c with locals := c.locals.append (Symbol.new name) }

def clearLocals (c : Context) : Context := { c with locals := c.locals.clear }

def emit (c : Context) (word : Int) : Context := { c with code := c.code.append word }

def addLiteral (c : Context) (v : Content) : Context :=
  let (h, v) := c.heap.add v
  { c with heap := h, literals := c.literals.append v }

def addField (c : Context) (text : Bytes) : Context :=
  let (h, v) := c.heap.add (Value.ofInput text)
  { c with heap := h, fields := c.fields.append v }

def push (c : Context) (v : Content) : Context :=
  let (h, v) := c.heap.add v
  { c with heap := h, stack := c.stack.append v }

def pushLiteral (c : Context) (v : Stored) : Context :=
  { c with heap := c.heap.retain v, stack := c.stack.append v }

/-- Drop the top of the stack, a value that was looked at before. -/
def pop (c : Context) : Context :=
  match c.stack.last? with
  | some v => { c with heap := c.heap.release v, stack := c.stack.pop }
  | none => c

/-- Whether a token has a literal, and the literal unless its pattern is refused. -/
inductive LiteralContent
  | none
  | refused
  | content (v : Content)

def literalOf (engine : Engine) (t : Token) : LiteralContent :=
  match t.kind with
  | .number => .content (.number t.value)
  | .string => .content (.string t.text)
  | .regex =>
    match engine.compile? t.text with
    | some p => .content (.regex p)
    | Option.none => .refused
  | _ => .none

/-- What entering a token into the tables answers: a place, or nothing, or that its pattern is
refused. -/
inductive Entry
  | place (i : Nat)
  | nothing
  | refused
  deriving DecidableEq, Repr

def enterLiteral (c : Context) (engine : Engine) : Context × Entry :=
  match literalOf engine c.scanner.current with
  | .content v =>
    let i := c.literals.size
    (c.addLiteral v, .place i)
  | .refused => (c, .refused)
  | .none => (c, .nothing)

/-- Enter the current token: a variable, a function or a literal. -/
def enterToken (c : Context) (engine : Engine) : Context × Entry :=
  let t := c.scanner.current
  match t.kind with
  | .name => let (c, i) := c.findOrAddGlobal (Utf8.lossy t.text); (c, .place i)
  | .function => let (c, i) := c.findOrAddFunction (Utf8.lossy t.text); (c, .place i)
  | _ => c.enterLiteral engine

end Context

end AwkCore
