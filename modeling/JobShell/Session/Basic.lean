import JobShell.Config.Basic
import JobShell.Error
import JobShell.Expansion.FileName
import JobShell.Job.Table
import JobShell.Store.Variables
import JobShell.Host.Basic

/-!
The state of a session: what the shell keeps between commands, and the host underneath.
-/
namespace JobShell

/-- The open files that a process reads from and writes to. -/
structure Stdio where
  input : Handle
  output : Handle
  error : Handle
  deriving DecidableEq, Repr

structure Shell where
  vars : Variables
  aliases : Aliases
  jobs : JobTable
  settings : Settings
  /-- Where the last change of directory started. -/
  previousDirectory : Option Bytes
  /-- The status to leave with, once leaving has been asked for. -/
  exitRequest : Option Int
  /-- How many files are being sourced, one from within the other. -/
  sourceDepth : Nat
  interactive : Bool
  pid : Int
  directory : NodeId
  stdio : Stdio
  /-- Output that has been printed and not been written yet. -/
  unwritten : Bytes
  /-- Input that has been read and not been used yet. -/
  readAhead : Bytes
  environment : List (String × String)
  /-- The process that the shell is waiting for. -/
  foreground : Option Int
  /-- Whether interrupts are passed on to the process in the foreground. -/
  forwards : Bool
  /-- Where errors are recorded, if they are. -/
  log : Option Handle
  deriving DecidableEq, Repr

namespace Shell

/-- A session with nothing in its tables but the configured aliases. -/
def initial (config : Config) (environment : List (String × String)) (directory : NodeId)
    (stdio : Stdio) : Shell where
  vars := .initial Host.firstPid
  aliases := config.aliases
  jobs := .empty
  settings := config.settings
  previousDirectory := none
  exitRequest := none
  sourceDepth := 0
  interactive := false
  pid := Host.firstPid
  directory := directory
  stdio := stdio
  unwritten := []
  readAhead := []
  environment := environment
  foreground := none
  forwards := false
  log := none

/-- The home directory of the account, for a process whose environment names none. -/
def accountHome : String := "/root"

/-- The home directory that a tilde stands for. -/
def home (sh : Shell) : String :=
  match (sh.environment.find? (·.1 = "HOME")).map (·.2) with
  | some h => if h.isEmpty then accountHome else h
  | none => accountHome

def surroundings (sh : Shell) : Surroundings := ⟨sh.directory, sh.home⟩

end Shell

/-- A session and its host. -/
structure Machine where
  shell : Shell
  host : Host

namespace Machine

/-- Whether the shell has come to a halt. -/
def isHalted (m : Machine) : Bool := m.host.isHalted m.shell.pid

/-- Whether nothing more is to be done: leaving has been asked for, or the shell has come to a
halt. -/
def isOver (m : Machine) : Bool := m.shell.exitRequest.isSome || m.isHalted

end Machine

/-- Steps of a session. -/
abbrev SessionM := StateM Machine

/-- Steps of a session that can fail. -/
abbrev AttemptM := ExceptT ShellError SessionM

namespace SessionM

def shell : SessionM Shell := do return (← get).shell

def host : SessionM Host := do return (← get).host

def modifyShell (f : Shell → Shell) : SessionM Unit := modify fun m => { m with shell := f m.shell }

def modifyHost (f : Host → Host) : SessionM Unit :=
  modify fun m => { m with host := f m.host }

def vars : SessionM Variables := do return (← get).shell.vars

def modifyVars (f : Variables → Variables) : SessionM Unit :=
  modifyShell fun sh => { sh with vars := f sh.vars }

def modifyJobs (f : JobTable → JobTable) : SessionM Unit :=
  modifyShell fun sh => { sh with jobs := f sh.jobs }

/-- The status of what ran last. -/
def lastStatus : SessionM Int := do return (← vars).status

def setStatus (status : Int) : SessionM Unit := modifyVars fun v => { v with status }

def isHalted : SessionM Bool := do return (← get).isHalted

def isOver : SessionM Bool := do return (← get).isOver

/-- Carries out something on the host. -/
def onHost {α : Type} (f : Host → α × Host) : SessionM α := do
  let m ← get
  let (a, host) := f m.host
  set { m with host }
  return a

/-- The shell comes to a halt. -/
def halt (cause : Halt) : SessionM Unit := do
  let pid := (← shell).pid
  modifyHost (·.halt pid cause)

def modifyProcesses (f : ProcessTable → ProcessTable) : SessionM Unit :=
  modifyHost fun s => { s with toProcessTable := f s.toProcessTable }

/-- Carries out something on the processes of the host. -/
def onProcesses {α : Type} (f : ProcessTable → α × ProcessTable) : SessionM α :=
  onHost fun s =>
    let (a, processes) := f s.toProcessTable
    (a, { s with toProcessTable := processes })

/-- Carries out something on the host that can fail, in which case the host stays. -/
def tryHost {ε α : Type} (f : Host → Except ε (α × Host)) : SessionM (Except ε α) := do
  let m ← get
  match f m.host with
  | .error e => return .error e
  | .ok (a, host) =>
    set { m with host }
    return .ok a

end SessionM
end JobShell
