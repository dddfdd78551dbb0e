import JobShell.Builtin.Directory
import JobShell.Job.Reap
import JobShell.Session.Output

/-!
Between lines: notices about jobs that have ended, and the prompt.
-/
namespace JobShell.SessionM

/-- Takes note of what has become of the jobs, and prints what there is to say about it. -/
def reapJobs : SessionM Unit := do
  let m ← get
  let (notices, jobs, host) := m.shell.jobs.reap m.shell.pid m.host
  set { m with shell := { m.shell with jobs }, host }
  if notices.isEmpty then return
  notices.forM fun n => say [n, "\n"]
  let _ ← flush

/-- A directory with the home directory at its beginning shown as a tilde. -/
def abbreviate (dir : Bytes) (home : Option String) : String :=
  match home.map Bytes.ofString with
  | none => dir.toStringLossy
  | some home =>
    let parts := Path.normalParts dir
    let lead := Path.normalParts home
    if !Path.isAbsolute home || !lead.isPrefixOf parts then dir.toStringLossy
    else match parts.drop lead.length with
      | [] => "~"
      | rest => "~" ++ Bytes.toStringLossy (rest.flatMap (Bytes.slash :: ·))

/-- Puts a text in place of every mark for the working directory. -/
def replaceMark (text : List Char) : List Char → List Char
  | '{' :: 'c' :: 'w' :: 'd' :: '}' :: r => text ++ replaceMark text r
  | c :: r => c :: replaceMark text r
  | [] => []

/-- The prompt for the working directory. -/
def prompt : SessionM String := do
  let sh ← shell
  let dir := match ← Directory.current with
    | some dir => abbreviate dir ((sh.vars.get? "HOME").filter (!·.isEmpty))
    | none => "?"
  return String.ofList (replaceMark dir.toList sh.settings.prompt.toList)

end JobShell.SessionM
