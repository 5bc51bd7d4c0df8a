import TableImport.Command.Help
import TableImport.Command.Run

/-! The command line. -/
namespace TableImport.Command

/-- The files and the random numbers of the system. -/
def systemHost : Host IO where
  read path := do
    match ← (IO.FS.Handle.mk path .read).toBaseIO with
    | .ok file =>
      match ← file.readBinToEnd.toBaseIO with
      | .ok content => return .bytes content
      | .error _ => return .unreadable
    | .error _ => return .missing
  write path bytes := try
      IO.FS.writeBinFile path bytes
      return true
    catch _ => return false
  fresh := do
    let bytes ← IO.getRandomBytes 8
    return bytes.foldl (fun n b => n * 256 + b.toUInt64) 0

/-- Runs the command of the arguments and tells how it went. -/
def execute (args : List String) : IO UInt32 := do
  match read args with
  | .error .usage =>
    IO.eprint (helpText general.name)
    return 2
  | .error (.help command) =>
    IO.print (helpText command)
    return 0
  | .error .version =>
    IO.print versionText
    return 0
  | .ok command =>
    let report ← run systemHost command
    IO.print report.output
    for line in report.notes do
      IO.eprintln line
    match report.failure? with
    | some f =>
      for line in f.lines do
        IO.eprintln line
      return 1
    | none => return 0

end TableImport.Command

def main (args : List String) : IO UInt32 := TableImport.Command.execute args
