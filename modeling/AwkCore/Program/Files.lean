import AwkCore.Program

/-!
# Program files

Where a path leads is told by a file system, which is no part of this library: nothing is fixed of it but
that it opens a path or tells why it does not, and what is read from an open file. `-` stands for
standard input, which gives its text once.
-/
namespace AwkCore

/-- What can be read from an open file, and the fault that ends the reading if one does. -/
structure OpenFile where
  bytes : Bytes
  fault : Option FileFault
  deriving DecidableEq, Repr

abbrev FileSystem := String → Except FileFault OpenFile

namespace OpenFile

def ofBytes (bytes : Bytes) : OpenFile := ⟨bytes, none⟩

/-- Files are read line by line, so a line is lost when a fault comes before its end. -/
def wholeLines (text : Bytes) : Bytes :=
  ((Program.cut text).filter fun line => line.getLast? = some Byte.newline).flatten

/-- An open file as program text under a name. -/
def units (file : OpenFile) (name : String) : List SourceUnit :=
  match file.fault with
  | none => [⟨name, .ok file.bytes⟩]
  | some cause => [⟨name, .ok (wholeLines file.bytes)⟩, ⟨name, .error (.cannotRead cause)⟩]

end OpenFile

namespace FileSystem

/-- What a path that has been opened, or has not, gives as program text. -/
def unitsOf (path : String) : Except FileFault OpenFile → List SourceUnit
  | .ok file => file.units path
  | .error cause => [⟨path, .error (.cannotOpen path cause)⟩]

/-- The units that a list of paths names; the first `-` takes all of standard input. -/
def units (files : FileSystem) (stdin : OpenFile) : List String → List SourceUnit
  | [] => []
  | path :: paths =>
    if path = "-" then stdin.units path ++ units files (.ofBytes []) paths
    else unitsOf path (files path) ++ units files stdin paths

def program (files : FileSystem) (stdin : OpenFile) (paths : List String) : Except Failure Program :=
  if paths.isEmpty then .error .noProgram
  else .ok (Program.ofUnits ⟨"", 0⟩ (files.units stdin paths))

/-- The file system that holds some files and nothing else. -/
def ofList (files : List (String × Bytes)) : FileSystem := fun path =>
  match files.lookup path with
  | some bytes => .ok (.ofBytes bytes)
  | none => .error .missing

end FileSystem

end AwkCore
