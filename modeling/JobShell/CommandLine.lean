import JobShell.Config.Files
import JobShell.Session.Dialogue
import JobShell.Session.Transcript

/-!
The command line of the shell: what it may hold, and a whole run from its arguments to an exit
status.
-/
namespace JobShell.CommandLine

structure Options where
  dumpConfig : Bool
  noRc : Bool
  command : Option String
  /-- A script and its arguments. -/
  script : Option (String × List String)
  deriving DecidableEq, Repr

inductive Refusal where
  | usage
  | unknownOption (name : String)
  deriving DecidableEq, Repr

def usageText : String :=
  "usage: jobsh [--dump-config] [--no-rc] [-c COMMAND] [SCRIPT [ARGS...]]\n"

def Refusal.message : Refusal → String
  | usage => usageText
  | unknownOption name => "jobsh: unknown option " ++ name ++ "\n" ++ usageText

namespace Options

def none : Options := ⟨false, false, .none, .none⟩

/-- Whether an argument looks like an option: it has a dash and more. -/
def isOption (arg : String) : Bool :=
  match arg.toList with
  | '-' :: _ :: _ => true
  | _ => false

/-- Reads arguments in order. The first one that is no option is the script, and takes the others
along. -/
def parse (o : Options) : List String → Except Refusal Options
  | [] => .ok o
  | "--dump-config" :: rest => { o with dumpConfig := true }.parse rest
  | "--no-rc" :: rest => { o with noRc := true }.parse rest
  | "-c" :: command :: rest => { o with command := some command }.parse rest
  | arg :: rest =>
    if arg = "-c" || arg = "-h" || arg = "--help" then .error .usage
    else if isOption arg then .error (.unknownOption arg)
    else .ok { o with script := some (arg, rest) }

/-- The positional parameters, from the name of the session on. -/
def positional (o : Options) : List String :=
  match o.script with
  | some (script, args) => script :: args
  | .none => ["jobsh"]

end Options

open SessionM

/-- Runs the file that comes first, if there is one. -/
def runStartup (path : String) : SessionM Unit := do
  let m ← get
  match m.host.tree.lookup true m.shell.directory path with
  | .ok id =>
    if m.host.tree.isFile id then
      if let .error e ← sourceFile path then
        complain ("jobsh: " ++ path ++ ": " ++ e.message ++ "\n")
  | .error _ => return

/-- The status that a session leaves behind. -/
def exitStatus : SessionM Int := do
  return (← shell).exitRequest.getD (← lastStatus)

/-- The status of a script that cannot be read. -/
def unreadableScript : Int := 127

/-- Runs what the options ask for: a command, a script, or standard input. -/
def runMain (o : Options) : SessionM Int := do
  match o.command, o.script with
  | some command, _ => let _ ← runLine command
  | none, some (script, _) =>
    if let .error e ← sourceFile script then
      complain ("jobsh: " ++ script ++ ": " ++ e.message ++ "\n")
      return unreadableScript
  | none, none => converse
  exitStatus

/-- Runs a session from its first file to its end. -/
def runSession (config : Config) (o : Options) : SessionM Int := do
  let m ← get
  let interactive := o.command.isNone && o.script.isNone && m.host.isTerminal m.shell.stdio.input
  let vars := (Variables.ofEnvironment m.shell.pid m.shell.environment).setArguments o.positional
  modifyShell fun sh => { sh with vars, interactive, forwards := interactive }
  if !o.noRc then runStartup (config.rcPath m.shell.surroundings)
  if ← isOver then exitStatus else runMain o

/-- What is there after a run. -/
structure Ending where
  /-- There is none if the run has not come to an end, or has been ended by a signal. -/
  status : Option Nat
  output : Bytes
  error : Bytes
  tree : FileTree

/-- The status that a shell leaves behind which gives a status unless it comes to a halt. -/
def leftBehind (halted : Option Halt) (status : Int) : Option Nat :=
  match halted with
  | none => some (status % 256).toNat
  | some .crashed => some crashStatus.toNat
  | some (.stuck _) | some (.struck _) => none

/-- Ends a run: output that is still held anywhere is written. -/
def finish (act : SessionM Int) (m : Machine) : Ending :=
  let closing : SessionM Int := do
    let status ← act
    let _ ← flush
    modifyHost (·.deliver fun _ => true)
    return status
  let (status, m) := closing.run m
  { status := leftBehind (m.host.haltOf? m.shell.pid) status
    output := m.host.content m.shell.stdio.output
    error := m.host.content m.shell.stdio.error
    tree := m.host.tree }

/-- Opens the log at its end. -/
def openLog (node : NodeId) : SessionM Unit := do
  let h ← onHost (·.openNode node true)
  modifyShell fun sh => { sh with log := some h }

/-- The message about an overlay that is refused. -/
def overlayRefused : String := "jobsh: config parse error: invalid document\n"

/-- Runs the shell with a configuration, of which an overlay may have been refused. -/
def runWith (config : Config) (refused : Bool) (o : Options) (log : Option NodeId) :
    SessionM Int := do
  if refused then complain overlayRefused
  if ← isHalted then return crashStatus
  if o.dumpConfig then
    proclaim config.toText
    return 0
  if config.logLevel.warns then log.forM openLog
  runSession config o

/-- A whole run of the shell in a directory. -/
def run (tree : FileTree) (dir : NodeId) (input : Node) (environment : List (String × String))
    (args : List String) : Ending :=
  match Options.none.parse args, Config.endlessOverlay? tree dir environment with
  | .error refusal, _ =>
    finish (do complain refusal.message; return 2) (.start tree dir input environment .default)
  | .ok _, some file =>
    finish (do halt (.stuck file); return 0) (.start tree dir input environment .default)
  | .ok o, none =>
    let (config, refused) := Config.load tree dir environment
    let (log, tree) :=
      if o.dumpConfig then (none, tree) else LogFile.make config.logLevel environment dir tree
    finish (runWith config refused o log) (.start tree dir input environment config)

end JobShell.CommandLine
