import Spreadsheet.CommandLine.Run
import Spreadsheet.Files.Host

/-! Running the program on a host that is held in memory. -/
namespace Spreadsheet.CommandLine

/-- What a run leaves behind. -/
structure Session where
  exit : Nat
  report? : Option Report := none
  host : Host
deriving DecidableEq, Repr

/-- Does what is left to do after a command, and says whether the command failed. -/
def Session.ofAnswer (host : Host) (answer : Answer) : Session :=
  let host := host.print answer.output
  let saved : Except Report Host := match answer.file? with
    | none => .ok host
    | some (path, bytes) => (host.save path bytes).mapError (unwritten path)
  match saved with
  | .error report => { exit := 1, report? := some report, host }
  | .ok host => { exit := if answer.report?.isSome then 1 else 0, report? := answer.report?, host }

def runIn (host : Host) (args : List String) : Session :=
  match readArguments args with
  | .error .usage => { exit := 2, host }
  | .error .help => { exit := 0, host := host.print (Text.encode helpText) }
  | .error .version => { exit := 0, host := host.print (Text.encode versionText) }
  | .ok command =>
    let content := match command.source? with
      | none => .ok []
      | some .standardInput => .ok host.input
      | some (.file path) => host.load path
    Session.ofAnswer host (command.run content)

end Spreadsheet.CommandLine
