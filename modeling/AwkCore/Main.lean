import AwkCore.CommandLine

/-!
# The command

Reads the arguments and the files they name, and prints the report of `CommandLine`.
-/
namespace AwkCore.CommandLine

/-- Why a file was not opened or not read, where `ofWrongKind` names the fault of an entry that is no
file or no directory. -/
def fault (ofWrongKind : FileFault) (e : IO.Error) : FileFault :=
  match e with
  | .noFileOrDirectory _ _ _ => .missing
  | .inappropriateType _ _ _ => ofWrongKind
  | .permissionDenied _ code details => .other (details ++ " (os error " ++ toString code ++ ")")
  | e => .other (toString e)

/-- Read up to the end or to a fault. -/
partial def readToEnd (read : IO ByteArray) (before : ByteArray) : IO OpenFile := do
  match ← read.toBaseIO with
  | .error e => return ⟨before.toList, some (fault .isDirectory e)⟩
  | .ok bytes =>
    if bytes.isEmpty then return .ofBytes before.toList else readToEnd read (before ++ bytes)

def openPath (path : String) : IO (Except FileFault OpenFile) := do
  if path = "-" then
    return .ok (← readToEnd ((← IO.getStdin).read 65536) ByteArray.empty)
  match ← (IO.FS.Handle.mk path .read).toBaseIO with
  | .error e => return .error (fault .notDirectory e)
  | .ok handle => return .ok (← readToEnd (handle.read 65536) ByteArray.empty)

/-- Read files one by one up to the first that cannot be read. -/
def readUnits : List String → IO (List SourceUnit)
  | [] => return []
  | path :: paths => do
    let units := FileSystem.unitsOf path (← openPath path)
    if units.all (·.body.isOk) then return units ++ (← readUnits paths) else return units

def readSelection : Selection → IO (Except Failure Program)
  | .text program => return .ok (Program.inline (Utf8.encode program))
  | .files paths => return .ok (Program.ofUnits ⟨"", 0⟩ (← readUnits paths))

end AwkCore.CommandLine

open AwkCore CommandLine in
def main (args : List String) : IO UInt32 := do
  let command := parse args
  let program ← match command with
    | .list selection _ => readSelection selection
    | _ => pure (.error .noProgram)
  let r := command.report fun _ => program
  (← IO.getStdout).putStr r.stdout
  (← IO.getStderr).putStr r.stderr
  return r.code.toUInt32
