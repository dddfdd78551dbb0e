import JobShell.Builtin.Tables
import JobShell.Session.Launch

/-!
`jobs`, `fg`, `bg`, `kill` and `ping`: jobs and signals.
-/
namespace JobShell.JobControl

open SessionM

def runJobs (argv : List String) : SessionM Int := do
  if 1 < argv.length then fail "jobs" "too many arguments" 1
  else
    (← shell).jobs.list.forM fun j =>
      say ["[", toString j.id, "] ", toString j.pid, " ", j.command, ": ", j.status.text, "\n"]
    return 0

/-- The job that an argument names by its number, or the latest one. -/
def select (jobs : JobTable) : Option String → Option Job
  | none => jobs.mostRecent
  | some spec =>
    (Text.readIndex? (String.ofList (spec.toList.dropWhile (· = '%')))).bind jobs.findById

def noSuchJob (spec : Option String) : String := spec.getD "current" ++ ": no such job"

/-- Makes a job go on that is listed as stopped. -/
def resume (job : Job) : SessionM (Except Errno Unit) := do
  if job.status = .stopped then
    let self := (← shell).pid
    onProcesses (·.kill self job.pid (some .resume))
  else return .ok ()

/-- Lets a job go on in the foreground, and waits for it. That it cannot go on is said before
anything else is in the foreground again. -/
def bringBack (job : Job) : SessionM Int := do
  say [job.command, "\n"]
  let _ ← flush
  modifyJobs (·.removeByPid job.pid)
  let outcome : Except Int (Except Errno Outcome) ← withForeground job.pid do
    match ← resume job with
    | .error e =>
      return .error (← fail "fg" (if e = .noProcess then "job has terminated" else e.describe) 1)
    | .ok () => return .ok (← waitFor job.pid)
  match outcome with
  | .error status => return status
  | .ok (.ok outcome) => settle job.pid job.command outcome
  | .ok (.error e) => fail "fg" (ShellError.wait e).message 1

def runForeground (argv : List String) : SessionM Int := do
  if 2 < argv.length then fail "fg" "too many arguments" 1
  else match select (← shell).jobs argv[1]? with
    | none => fail "fg" (noSuchJob argv[1]?) 1
    | some job => bringBack job

/-- Lets a job go on in the background. -/
def letGo (job : Job) : SessionM Int := do
  if job.status = .running then
    complain ("bg: job " ++ toString job.id ++ " already in background\n")
    return 0
  match ← resume job with
  | .error e =>
    if e = .noProcess then
      modifyJobs (·.removeByPid job.pid)
      fail "bg" "job has terminated" 1
    else fail "bg" e.describe 1
  | .ok () =>
    modifyJobs (·.setStatus job.pid .running)
    say ["[", toString job.id, "] ", job.command, " &\n"]
    return 0

def runBackground (argv : List String) : SessionM Int := do
  if 2 < argv.length then fail "bg" "too many arguments" 1
  else match select (← shell).jobs argv[1]? with
    | none => fail "bg" (noSuchJob argv[1]?) 1
    | some job => letGo job

/-- The process that an argument of `kill` names, by its number or that of its job. -/
def targetOf (jobs : JobTable) (arg : String) : Option Int :=
  match arg.toList with
  | '%' :: id => ((Text.readIndex? (String.ofList id)).bind jobs.findById).map Job.pid
  | _ => Text.readShort? arg

def killOne (sig : Signal) (arg : String) : SessionM Int := do
  match targetOf (← shell).jobs arg with
  | none => fail "kill" (arg ++ ": no such process or job") 1
  | some pid =>
    match ← send pid (some sig) with
    | .ok () => return 0
    | .error e => fail "kill" ("(" ++ toString pid ++ ") - " ++ e.describe) 1

def killAll (sig : Signal) (targets : List String) : SessionM Int :=
  if targets.isEmpty then fail "kill" "usage: kill [-SIG] PID|%ID..." 2
  else Tables.forEach targets (killOne sig)

def runKill (argv : List String) : SessionM Int :=
  match argv.tail with
  | first :: rest =>
    match first.toList with
    | '-' :: spec =>
      match Signal.ofSpec? (String.ofList spec) with
      | some sig => killAll sig rest
      | none => fail "kill" (first ++ ": invalid signal specification") 1
    | _ => killAll .terminate (first :: rest)
  | [] => killAll .terminate []

/-- Sends the signal of a number taken modulo 32, of which 0 only asks for the process. -/
def runPing (argv : List String) : SessionM Int := do
  match argv with
  | [_, pid, number] =>
    match (Text.readShort? pid).filter (0 < ·), Text.readShort? number with
    | some pid, some number =>
      let number := number % 32
      match ← send pid (Signal.ofNumber? number) with
      | .ok () =>
        say ["Sent signal ", toString number, " to process with pid ", toString pid, "\n"]
        return 0
      | .error e =>
        if e = .noProcess then fail "ping" ("(" ++ toString pid ++ ") - No such process") 1
        else fail "ping" "invalid signal or process" 1
    | _, _ => fail "ping" "invalid signal or process" 1
  | _ => fail "ping" "usage: ping PID SIGNAL" 1

end JobShell.JobControl
