import JobShell.Command.Basic
import JobShell.Command.Image
import JobShell.Session.Output

/-!
Starting processes and waiting for them: programs, and copies of the shell that run apart from it.
-/
namespace JobShell.SessionM

/-- The files that a command's redirections name, opened in order: input, then output. -/
def openInput (path : String) : AttemptM Handle := do
  let dir := (← shell).directory
  let opened : Except FileError Handle ← liftM (tryHost (·.openForReading dir path))
  match opened with
  | .ok h => return h
  | .error e => throw (.redirectionTarget path e)

def openOutput (target : Target) : AttemptM Handle := do
  let dir := (← shell).directory
  let opened : Except FileError Handle ←
    liftM (tryHost (·.openForWriting dir target.path target.append))
  match opened with
  | .ok h => return h
  | .error e => throw (.redirectionTarget target.path e)

/-- What a command is to be started with. -/
def prepareImage (argv : List String) : AttemptM Image := do
  let m ← (get : SessionM Machine)
  let v := m.shell.vars
  match Image.prepare m.host.tree m.shell.directory argv v.environment (v.get? "PATH") with
  | .ok image => return image
  | .error e => throw e

/-- What the shell does with a signal while it passes interrupts on: they go to the process in the
foreground; if there is none, a line feed is shown. -/
def receiveSignal (sig : Signal) : SessionM Unit := do
  let sh ← shell
  if sh.forwards && (sig = .interrupt || sig = .terminalStop) then
    match sh.foreground with
    | some pid =>
      if 0 < pid then
        let _ ← onProcesses (·.kill sh.pid pid (some sig))
      else
        let _ ← writeDirectly [Bytes.newline]
    | none =>
      let _ ← writeDirectly [Bytes.newline]

/-- Does what a program does: it reads all of its input, writes and removes. -/
def perform (stdio : Stdio) (dir : NodeId) (image : Image) (program : Program) :
    SessionM Sequel := do
  let input ← onHost fun s =>
    match s.readAll stdio.input with
    | .ok (b, s) => (b, s)
    | .error _ => ([], s)
  let behaviour := program ⟨image.argv, image.environment, input⟩
  behaviour.writes.forM fun w =>
    writeTo (match w.1 with | .output => stdio.output | .error => stdio.error) w.2
  behaviour.removes.forM fun path =>
    modifyHost fun s => { s with tree := s.tree.remove dir path }
  return behaviour.sequel

/-- Sends a signal. A session that is reached itself stops or ends by it, unless it passes it on. -/
def send (target : Int) (signal : Option Signal) : SessionM (Except Errno Unit) := do
  let sh ← shell
  let sent ← onProcesses (·.kill sh.pid target signal)
  if let some sig := signal then
    if sh.pid = Host.firstPid && (← host).reaches sh.pid target sh.pid sh.pid then
      if sh.forwards && (sig = .interrupt || sig = .terminalStop || sig = .quit) then
        receiveSignal sig
      else if sig ≠ .pipe && (sig.effect = .ends || sig.effect = .stops) then
        halt (.struck sig)
  return sent

/-- Runs a program in a process that has been started for it. If it cannot be run, what the process
has taken over of the shell's unwritten output is written before it ends. -/
def runImage (pid : Int) (stdio : Stdio) (unwritten : Bytes) (image : Image) : SessionM Unit := do
  let dir := (← shell).directory
  if ((← host).process? pid).all Process.isEnded then return
  match image.load (← host).tree dir with
  | .error e =>
    let message := "jobsh: " ++ (ShellError.execute image.name e).message ++ "\n"
    writeTo stdio.error (Bytes.ofString message)
    writeTo stdio.output unwritten
    modifyProcesses (·.update pid (·.finish (.exited 127)))
  | .ok program =>
    let sequel ← perform stdio dir image program
    modifyProcesses (·.update pid (·.goOn sequel))
    if let .pokes sig := sequel then receiveSignal sig

/-- The status of a process that has given up. -/
def crashStatus : Int := 101

/-- The status that a copy of the shell ends with, given the one that it has come to. One that has
been stopped or that waits for ever does not end. -/
def copyEnding (pid : Int) (status : Int) : SessionM (Option Int) := do
  let s ← host
  let ended := (s.process? pid).all Process.isEnded
  let crashed := s.haltOf? pid = some .crashed
  if s.isHalted pid && !ended && !crashed then return none
  if !ended then
    let _ ← flush
  return some (if crashed then crashStatus else status)

/-- Goes back from a copy that has come to a status to the shell itself. -/
def endCopy (pid : Int) (parent : Shell) (status : Int) : SessionM Unit := do
  let left ← copyEnding pid status
  modifyShell fun _ => parent
  if let some status := left then
    modifyHost (·.deliver (·.parent = pid))
    modifyProcesses fun s => (s.orphan pid).leave pid (status % 256).toNat

/-- Runs a copy of the shell in a process that has been started for it. The session itself stays as
it is; only the host changes. -/
def runCopy (pid : Int) (copy : Shell) (body : SessionM Int) : SessionM Unit := do
  if ((← host).process? pid).all Process.isEnded then return
  let parent ← shell
  modifyHost (·.setOut pid)
  modifyShell fun _ => { copy with pid, forwards := false, foreground := none }
  let status ← body
  endCopy pid parent status

/-- Starts a process of the shell's own. -/
def spawn (ownGroup : Bool) : SessionM Int := do
  let self := (← shell).pid
  onProcesses (·.spawn self ownGroup)

/-- The process in the foreground; a number of 0 stands for none. -/
def foregroundPid : SessionM (Option Int) := do
  return (← shell).foreground.filter (· ≠ 0)

/-- Does something while a process is in the foreground. -/
def withForeground {α : Type} (pid : Int) (act : SessionM α) : SessionM α := do
  modifyShell fun sh => { sh with foreground := some pid }
  let a ← act
  modifyShell fun sh => { sh with foreground := none }
  return a

/-- Waits until a child ends or stops. -/
def waitFor (pid : Int) : SessionM (Except Errno Outcome) := do
  let self := (← shell).pid
  modifyHost (·.deliver (·.pid = pid))
  onProcesses (·.wait self pid)

/-- Makes a status of what a wait has told; a process that has stopped becomes a job. -/
def settle (pid : Int) (display : String) (outcome : Outcome) : SessionM Int := do
  if let .stopped _ := outcome then
    let id := (← shell).jobs.next
    modifyJobs (·.add pid display .stopped)
    say ["\n[", toString id, "] Stopped ", display, "\n"]
  return outcome.status

end JobShell.SessionM
