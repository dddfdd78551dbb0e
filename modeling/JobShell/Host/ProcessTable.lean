import JobShell.Host.Errno
import JobShell.Host.Process

/-!
The processes of a host: how they are started, what signals and other events make of them, and how
a parent learns of it. What happens outside a session is laid down beforehand.
-/
namespace JobShell

/-- The number of the first process of a session. -/
def Host.firstPid : Int := 4000000

structure ProcessTable where
  processes : List Process
  nextPid : Int
  /-- The numbers that the next processes get, as far as they are free. -/
  offered : List Int
  /-- Whether the next copies of the shell that have done their work stay on, until an event ends
  them. -/
  lingering : List Bool
  /-- What will befall the processes from outside, one batch before each time that they are asked
  about or sent a signal. -/
  outside : List (List Event)

namespace ProcessTable

def initial : ProcessTable := ⟨[], Host.firstPid + 1, [], [], []⟩

def process? (s : ProcessTable) (pid : Int) : Option Process := s.processes.find? (·.pid = pid)

def update (s : ProcessTable) (pid : Int) (f : Process → Process) : ProcessTable :=
  { s with processes := s.processes.map fun p => if p.pid = pid then f p else p }

def drop (s : ProcessTable) (pid : Int) : ProcessTable :=
  { s with processes := s.processes.filter (·.pid ≠ pid) }

/-- Whether a number belongs to the first process of all or to a session. -/
def isSteady (pid : Int) : Bool := pid = 1 || pid = Host.firstPid

/-! ### Beginnings and ends -/

def isFree (s : ProcessTable) (pid : Int) : Bool :=
  0 < pid && !isSteady pid && s.processes.all (·.pid ≠ pid)

/-- The numbers on offer, from the first one on that is free. -/
def freeOffers (s : ProcessTable) : List Int := s.offered.dropWhile (!s.isFree ·)

/-- The number of the next process: the first free one on offer, else one beyond all others. -/
def freshPid (s : ProcessTable) : Int := s.freeOffers.headD s.nextPid

theorem freshPid_cases (s : ProcessTable) :
    (∃ rest, s.freeOffers = s.freshPid :: rest ∧ s.isFree s.freshPid = true) ∨
      s.freeOffers = [] ∧ s.freshPid = s.nextPid := by
  cases offers : s.freeOffers with
  | nil => exact .inr ⟨rfl, by simp [freshPid, offers]⟩
  | cons pid rest =>
    have free := List.head?_dropWhile_not (!s.isFree ·) s.offered
    have first : (s.offered.dropWhile (!s.isFree ·)).head? = some pid := by
      rw [← freeOffers, offers, List.head?_cons]
    rw [first] at free
    have fresh : s.freshPid = pid := by simp [freshPid, offers]
    exact .inl ⟨rest, by rw [fresh], by simpa [fresh] using free⟩

/-- The group of a process. That of a session bears its number. -/
def groupOf (s : ProcessTable) (pid : Int) : Int := ((s.process? pid).map Process.group).getD pid

/-- Starts a process, in the group of its parent or in one of its own. -/
def spawn (s : ProcessTable) (parent : Int) (ownGroup : Bool) : Int × ProcessTable :=
  let pid := s.freshPid
  let group := if ownGroup then pid else s.groupOf parent
  (pid, { s with
    processes := s.processes ++ [⟨pid, parent, group, .waiting, false, []⟩]
    nextPid := max s.nextPid (pid + 1)
    offered := s.freeOffers.tail })

/-- The children of a process that has ended pass to the first process of all, which takes note of
every end at once. -/
def orphan (s : ProcessTable) (parent : Int) : ProcessTable :=
  let left := s.processes.filter fun p => !(p.parent = parent && p.isEnded)
  { s with processes := left.map fun p => if p.parent = parent then { p with parent := 1 } else p }

/-! ### Events and signals -/

def applyEvent (s : ProcessTable) : Event → ProcessTable
  | .signal pid sig => s.update pid (·.receive sig)
  | .ends pid how => s.update pid fun p => if p.isEnded then p else p.finish how
  | .taken pid => s.drop pid

/-- Ends the process of a copy of the shell that has done its work, unless it is to stay on. -/
def leave (s : ProcessTable) (pid : Int) (status : Nat) : ProcessTable :=
  let later := { s with lingering := s.lingering.tail }
  if s.lingering.headD false then later else later.applyEvent (.ends pid (.exited status))

/-- Lets the next batch of outside events happen. -/
def advance (s : ProcessTable) : ProcessTable :=
  match s.outside with
  | [] => s
  | batch :: later => batch.foldl applyEvent { s with outside := later }

/-- Whether a signal that a process sends goes to a process with a number and a group: by its number,
as one of its own group, by a negative number of its group, or as one of all others. -/
def reaches (s : ProcessTable) (self target pid group : Int) : Bool :=
  if 0 < target then pid = target
  else if target = 0 then group = s.groupOf self
  else if target = -1 then pid ≠ self
  else group = -target

/-- Sends a signal to a process or to several; no signal only asks whether there is one to receive
it. -/
def kill (s : ProcessTable) (self target : Int) (signal : Option Signal) :
    Except Errno Unit × ProcessTable :=
  let s := s.advance
  let hit := fun p : Process => s.reaches self target p.pid p.group
  if s.processes.any hit || isSteady target || target = -1 ||
      s.reaches self target self (s.groupOf self) then
    (.ok (), { s with
      processes := s.processes.map fun p => if hit p then p.receive? signal else p })
  else (.error .noProcess, s)

/-! ### Waiting -/

def child? (s : ProcessTable) (self pid : Int) : Option Process :=
  s.processes.find? fun p => p.pid = pid && p.parent = self

/-- What a wait for a child would give right now: its end, after which it is forgotten, or a stop
that has not been told yet. -/
def collect? (s : ProcessTable) (self pid : Int) : Option (Except Errno Outcome × ProcessTable) :=
  match s.child? self pid with
  | none => some (.error .noChild, s)
  | some p =>
    match p.phase with
    | .ended how => some (Outcome.ofEnding how, s.drop pid)
    | .stopped sig .. =>
      if p.fresh then some (.ok (.stopped sig), s.update pid Process.told) else none
    | .waiting => none

/-- Waits for a child through the batches still to come. A wait that nothing would end is ended by
killing the process. -/
def waitThrough (self pid : Int) :
    List (List Event) → ProcessTable → Except Errno Outcome × ProcessTable
  | [], s => (s.collect? self pid).getD (.ok (.killed .kill), s.drop pid)
  | _ :: later, s =>
    let s := s.advance
    match s.collect? self pid with
    | some found => found
    | none => waitThrough self pid later s

/-- Waits until a child ends or stops. -/
def wait (s : ProcessTable) (self pid : Int) : Except Errno Outcome × ProcessTable :=
  waitThrough self pid s.outside s

/-- Asks for the latest change of a child that has not been told yet. -/
def poll (s : ProcessTable) (self pid : Int) : Except Errno (Option Change) × ProcessTable :=
  let s := s.advance
  match s.child? self pid with
  | none => (.error .noChild, s)
  | some p =>
    let told := s.update pid Process.told
    match p.phase with
    | .ended how =>
      (if how.isTold then .ok (some (.ended how)) else .error .invalid, s.drop pid)
    | .stopped .. => if p.fresh then (.ok (some .stopped), told) else (.ok none, s)
    | .waiting => if p.fresh then (.ok (some .resumed), told) else (.ok none, s)

end ProcessTable
end JobShell
