/-!
The table of jobs: processes that run in the background or have been stopped.
-/
namespace JobShell

namespace Job

inductive Status where
  | running
  | stopped
  deriving DecidableEq, Repr

def Status.text : Status → String
  | running => "Running"
  | stopped => "Stopped"

end Job

structure Job where
  id : Nat
  pid : Int
  /-- The command as it is shown in listings. -/
  command : String
  status : Job.Status
  deriving DecidableEq, Repr

/-- The jobs in the order of their registration, and the number that the next one gets. -/
structure JobTable where
  jobs : List Job
  next : Nat
  /-- Every number given out so far with its process, the latest first. -/
  issued : List (Nat × Int)
  deriving DecidableEq, Repr

namespace JobTable

def empty : JobTable := ⟨[], 1, []⟩

/-- Registers a job under a number that has not been used before. -/
def add (t : JobTable) (pid : Int) (command : String) (status : Job.Status) : JobTable where
  jobs := t.jobs ++ [⟨t.next, pid, command, status⟩]
  next := t.next + 1
  issued := (t.next, pid) :: t.issued

/-- The order of listings: by command, then by number. -/
def before (a b : Job) : Bool :=
  a.command < b.command || (a.command = b.command && a.id ≤ b.id)

def list (t : JobTable) : List Job := t.jobs.mergeSort before

def findByPid (t : JobTable) (pid : Int) : Option Job := t.jobs.find? (·.pid = pid)

def findById (t : JobTable) (id : Nat) : Option Job := t.jobs.find? (·.id = id)

/-- The job registered last of those still there. -/
def mostRecent (t : JobTable) : Option Job :=
  t.jobs.foldl (fun best j =>
    match best with
    | none => some j
    | some b => if b.id ≤ j.id then some j else some b) none

/-- Takes out the first job of a process. -/
def removeByPid (t : JobTable) (pid : Int) : JobTable :=
  { t with jobs := t.jobs.eraseP (·.pid = pid) }

/-- Sets the status of the first job of a process. -/
def setStatus (t : JobTable) (pid : Int) (status : Job.Status) : JobTable :=
  { t with jobs := go t.jobs }
where
  go : List Job → List Job
    | [] => []
    | j :: r => if j.pid = pid then { j with status } :: r else j :: go r

end JobTable
end JobShell
