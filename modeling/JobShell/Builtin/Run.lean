import JobShell.Builtin.Condition
import JobShell.Builtin.Directory
import JobShell.Builtin.Echo
import JobShell.Builtin.Inquiry
import JobShell.Builtin.JobControl

/-!
Running a builtin. Sourcing a file means running lines, so it is given from outside.
-/
namespace JobShell.Builtin

open SessionM

/-- Runs the lines of a file: the status of the last one, or why the file cannot be read. -/
abbrev Sourcing := String → SessionM (Except FileError Int)

/-- Asks to leave with a status, by default that of what ran last. -/
def runExit (b : Builtin) (argv : List String) : SessionM Int := do
  let status ← match argv[1]? with
    | none => lastStatus
    | some arg =>
      match Text.readLong? arg with
      | some n => pure (n % 256)
      | none => fail b.name (arg ++ ": numeric argument required") 2
  modifyShell fun sh => { sh with exitRequest := some status }
  return status

/-- Erases the display and moves the cursor to the top left. -/
def clearScreen : Bytes := Bytes.ofString "\x1b[2J\x1b[H"

def runClear : SessionM Int := do
  let printed ← print clearScreen
  let done ← match printed with
    | .ok () => flush
    | .error e => pure (.error e)
  match done with
  | .ok () => return 0
  | .error e => fail "clear" e.fileText 1

def runSource (source : Sourcing) (b : Builtin) (argv : List String) : SessionM Int := do
  match argv[1]? with
  | none => fail b.name "filename argument required" 2
  | some file =>
    match ← source file with
    | .ok status => return status
    | .error e => fail b.name (file ++ ": " ++ e.message) 1

/-- Evaluates a condition, which `[` wants closed by a bracket. -/
def runTest (b : Builtin) (argv : List String) : SessionM Int := do
  let args := argv.tail
  if b = .bracket && args.getLast? ≠ some "]" then fail b.name "missing `]'" 2
  else
    let m ← get
    let expression := if b = .bracket then args.dropLast else args
    match Condition.evaluate m.host.tree m.shell.directory expression with
    | .ok true => return 0
    | .ok false => return 1
    | .error fault => fail b.name fault.message 2

/-- Runs a builtin with its arguments, of which the first is its own name, and gives its status. -/
def run (source : Sourcing) (b : Builtin) (argv : List String) : SessionM Int :=
  match b with
  | dot | Builtin.source => runSource source b argv
  | colon | success => return 0
  | failure => return 1
  | bracket | test => runTest b argv
  | aliasing => Tables.runAlias argv
  | background => JobControl.runBackground argv
  | changeDirectory => Directory.change argv
  | clear => runClear
  | echo => Echo.run argv
  | environment => Tables.runEnv argv
  | exit | quit => runExit b argv
  | exporting => Tables.runExport argv
  | foreground => JobControl.runForeground argv
  | help => Inquiry.runHelp argv
  | jobs => JobControl.runJobs argv
  | kill => JobControl.runKill argv
  | ping => JobControl.runPing argv
  | printDirectory => Directory.print argv
  | set => Tables.runSet argv
  | type => Inquiry.runType argv
  | unalias => Tables.runUnalias argv
  | unset => Tables.runUnset argv
  | which => Inquiry.runWhich argv

end JobShell.Builtin
