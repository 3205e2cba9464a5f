import Spreadsheet.CommandLine.Run

/-! The program: `eval`, `check` and `expr` on real files. -/
namespace Spreadsheet.CommandLine

/-- The reason for which the system refused. -/
def faultOf : IO.Error → FileFault
  | .noFileOrDirectory .. => .notFound
  | .permissionDenied .. => .denied
  | .inappropriateType _ 20 _ | .otherError 20 _ => .notADirectory
  | .inappropriateType _ 21 _ | .otherError 21 _ => .isADirectory
  | .invalidArgument _ 36 _ | .otherError 36 _ => .nameTooLong
  | .resourceExhausted _ 28 _ | .otherError 28 _ => .noSpace
  | .otherError number description => .other description number.toNat
  | e => .other (toString e) 0

/-- Everything that comes in on standard input. -/
partial def readAll (stream : IO.FS.Stream) (bytes : ByteArray) : IO ByteArray := do
  let more ← stream.read 65536
  if more.isEmpty then return bytes else readAll stream (bytes ++ more)

def load : Option Source → IO Content
  | none => return .ok []
  | some .standardInput => do
    match ← (readAll (← IO.getStdin) .empty).toBaseIO with
    | .ok bytes => return .ok bytes.data.toList
    | .error e => return .error (.reading (faultOf e))
  | some (.file path) => do
    match ← (IO.FS.Handle.mk path .read).toBaseIO with
    | .error e => return .error (.opening (faultOf e))
    | .ok handle =>
      match ← handle.readBinToEnd.toBaseIO with
      | .ok bytes => return .ok bytes.data.toList
      | .error e => return .error (.reading (faultOf e))

/-- Shows a report; the exit code says that the command failed. -/
def fail (r : Report) : IO UInt32 := do
  IO.eprint r.text
  return 1

def saveFile (path : String) (bytes : Bytes) : IO Unit := do
  let handle ← IO.FS.Handle.mk path .write
  handle.write ⟨bytes.toArray⟩
  handle.flush

def finish (answer : Answer) : IO UInt32 := do
  let stdout ← IO.getStdout
  stdout.write ⟨answer.output.toArray⟩
  match answer.file?, answer.report? with
  | some (path, bytes), _ =>
    match ← (saveFile path bytes).toBaseIO with
    | .ok _ => return 0
    | .error e => fail (unwritten path (faultOf e))
  | none, some r => fail r
  | none, none => return 0

/-- Runs the command that the arguments ask for. The answer is the exit code. -/
def runProgram (args : List String) : IO UInt32 := do
  match readArguments args with
  | .error .usage =>
    IO.eprint helpText
    return 2
  | .error .help =>
    IO.print helpText
    return 0
  | .error .version =>
    IO.print versionText
    return 0
  | .ok command => finish (command.run (← load command.source?))

end Spreadsheet.CommandLine

def main (args : List String) : IO UInt32 := Spreadsheet.CommandLine.runProgram args
