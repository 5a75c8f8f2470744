import AwkCore.Context

/-!
# Requests to a context

What drives a context asks one thing after another: to scan on, to look a name up or to enter one,
to enter the literal of the current token, to emit code, and to use the stack. Each request has an
answer, and a failure or a refusal does not end the run.
-/
namespace AwkCore.Context

/-- What is asked for. It is not settled in which state a scan that fails leaves the scanner, so the
request brings along the one to go on with. -/
inductive Request
  | findGlobal (name : String)
  | addGlobal (name : String)
  | findOrAddGlobal (name : String)
  | findFunction (name : String)
  | findOrAddFunction (name : String)
  | enterLiteral
  | scan (afterFailure : Scanner)
  | emit (word : Int)
  | push (v : Content)
  | pushLiteral (v : Stored)
  | pop

inductive Answer
  | global (place : Option Nat)
  | function (place : Option Nat)
  | literal (entry : Entry)
  | scanned (result : Except Failure Token)
  | address (place : Nat)
  | stacked (place : Nat)
  | popped (v : Option Stored)

def serve (c : Context) (engine : Engine) : Request → Context × Answer
  | .findGlobal name => (c, .global (c.findGlobal? name))
  | .addGlobal name => (c.addGlobal name, .global (some c.globals.size))
  | .findOrAddGlobal name => let (d, i) := c.findOrAddGlobal name; (d, .global (some i))
  | .findFunction name => (c, .function (c.findFunction? name))
  | .findOrAddFunction name => let (d, i) := c.findOrAddFunction name; (d, .function (some i))
  | .enterLiteral => let (d, entry) := c.enterLiteral engine; (d, .literal entry)
  | .scan afterFailure =>
    match c.scan with
    | .ok d => (d, .scanned (.ok d.scanner.current))
    | .error failure => ({ c with scanner := afterFailure }, .scanned (.error failure))
  | .emit word => (c.emit word, .address c.code.size)
  | .push v => (c.push v, .stacked c.stack.size)
  | .pushLiteral v => (c.pushLiteral v, .stacked c.stack.size)
  | .pop => (c.pop, .popped c.stack.last?)

def serveAll (c : Context) (engine : Engine) (requests : List Request) : Context :=
  requests.foldl (fun c request => (c.serve engine request).1) c

end AwkCore.Context
