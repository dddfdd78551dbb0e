import JobShell.Job.Table
import JobShell.Host.Basic

/-!
Bringing the table of jobs up to date with the processes.
-/
namespace JobShell.JobTable

/-- The notice about a job that has ended. -/
def notice (j : Job) (how : Ending) : String :=
  j.command ++ " with pid " ++ toString j.pid ++
    match how with
    | .exited status => if status = 0 then " exited normally" else " exited abnormally"
    | .killed s => " was killed by signal " ++ toString s.number
    | .obscure number => " was killed by signal " ++ toString number

/-- Asks for the change of every job in turn. A job that has ended goes out of the table with a
notice, one whose process cannot be asked for goes out silently. -/
def reapJobs (self : Int) : List Job → ProcessTable → List String × List Job × ProcessTable
  | [], s => ([], [], s)
  | j :: js, s =>
    let (answer, s) := s.poll self j.pid
    let (notices, jobs, s) := reapJobs self js s
    match answer with
    | .ok (some (.ended how)) => (notice j how :: notices, jobs, s)
    | .ok (some .stopped) => (notices, { j with status := .stopped } :: jobs, s)
    | .ok (some .resumed) => (notices, { j with status := .running } :: jobs, s)
    | .ok none => (notices, j :: jobs, s)
    | .error _ => (notices, jobs, s)

/-- The notices about jobs that have ended, and the table and the host after all jobs have been
asked for. -/
def reap (t : JobTable) (self : Int) (s : Host) : List String × JobTable × Host :=
  let (notices, jobs, processes) := reapJobs self t.jobs s.toProcessTable
  (notices, { t with jobs }, { s with toProcessTable := processes })

end JobShell.JobTable
