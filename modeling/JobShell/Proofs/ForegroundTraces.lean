import JobShell.Proofs.ProcessChanges
import JobShell.Proofs.StableSteps

/-! What a session has in the foreground while it runs. A run is followed through all its moments,
from one single step to the next, with a note of what the session is still to wait for. At each of
these moments the process that is marked as being in the foreground is the one that the note tells,
and no child of the session is lost but by a wait for it. -/
namespace JobShell

open Host (firstPid)
open SessionM

/-- What a session waits for in the foreground: a program, a job that it has brought back, or the
processes of a pipeline. -/
inductive Awaited where
  | program (pid : Int)
  | job (job : Job)
  | pipeline (pids : List Int)

namespace Awaited

/-- The process that signals are meant for: of a pipeline it is the last one. -/
def pid : Awaited → Int
  | program pid => pid
  | job j => j.pid
  | pipeline pids => pids.getLast?.getD 0

def pids : Awaited → List Int
  | program pid => [pid]
  | job j => [j.pid]
  | pipeline pids => pids

end Awaited

namespace JobControl

/-- Lets a job go on if it has stopped and waits for it, or says that it cannot go on. -/
def awaitJob (job : Job) : SessionM (Except Int (Except Errno Outcome)) := do
  match ← resume job with
  | .error e =>
    return .error (← fail "fg" (if e = .noProcess then "job has terminated" else e.describe) 1)
  | .ok () => return .ok (← waitFor job.pid)

theorem bringBack_eq (job : Job) : bringBack job = (do
    say [job.command, "\n"]
    let _ ← flush
    modifyJobs (·.removeByPid job.pid)
    match ← withForeground job.pid (awaitJob job) with
    | .error status => return status
    | .ok (.ok outcome) => settle job.pid job.command outcome
    | .ok (.error e) => fail "fg" (ShellError.wait e).message 1) := rfl

end JobControl

/-- What is done from the moment that something is put into the foreground until it is taken out of
it again. -/
inductive Awaited.Runs : Awaited → {α : Type} → SessionM α → Prop where
  | program (pid : Int) (stdio : Stdio) (image : Image) : Runs (.program pid) (do
      runImage pid stdio (← shell).unwritten image
      waitFor pid)
  | job (job : Job) : Runs (.job job) (JobControl.awaitJob job)
  | pipeline (sources : Sources) (files : Nat → Stdio) (stages : List (Int × Command × Stage)) :
    Runs (.pipeline (stages.map (·.1))) (do
      runStages sources files 0 stages
      waitForStages stages)

namespace SessionM

/-- Does something in place of the shell, which is put back afterwards. -/
def inCopy {α : Type} (child : Shell) (body : SessionM α) : SessionM α := do
  let parent ← shell
  modifyShell fun _ => child
  let a ← body
  modifyShell fun _ => parent
  return a

theorem runCopy_eq (pid : Int) (copy : Shell) (body : SessionM Int) : runCopy pid copy body = (do
    if ((← host).process? pid).all Process.isEnded then return
    modifyHost (·.setOut pid)
    let child := { copy with pid, forwards := false, foreground := none }
    if let some status ← inCopy child (do copyEnding pid (← body)) then
      modifyHost (·.deliver (·.parent = pid))
      modifyProcesses fun s => (s.orphan pid).leave pid (status % 256).toNat) := rfl

/-- The table of jobs is brought up to date. -/
def askJobs : SessionM (List String) := do
  let m ← get
  let (notices, jobs, host) := m.shell.jobs.reap m.shell.pid m.host
  set { m with shell := { m.shell with jobs }, host }
  return notices

theorem reapJobs_eq : reapJobs = (do
    let notices ← askJobs
    if notices.isEmpty then return
    notices.forM fun n => say [n, "\n"]
    let _ ← flush) := rfl

/-- The single steps that sessions are made up of, other than to wait for a process, to put one into
the foreground, and to bring the table of jobs up to date. Processes may change as long as their
parents are told. -/
inductive Plain : {α : Type} → SessionM α → Prop where
  | read {α : Type} (f : Machine → α) : Plain fun m => (f m, m)
  | shell (f : Shell → Shell) (same : ∀ sh, (f sh).foreground = sh.foreground) :
    Plain (modifyShell f)
  | files {α : Type} (f : Host → α × Host)
    (same : ∀ s, (f s).2.toProcessTable = s.toProcessTable) : Plain (onHost f)
  | tryFiles {ε α : Type} (f : Host → Except ε (α × Host))
    (same : ∀ s a t, f s = .ok (a, t) → t.toProcessTable = s.toProcessTable) : Plain (tryHost f)
  | spawn (parent : Int) (ownGroup : Bool) : Plain (onProcesses (·.spawn parent ownGroup))
  | kill (self target : Int) (signal : Option Signal) :
    Plain (onProcesses (·.kill self target signal))
  | update (pid : Int) (f : Host → Process → Process)
    (told : ∀ s (p : Process), p.Becomes (f s p)) :
    Plain (modifyHost fun s => s.updateProcess pid (f s))
  | deliver (which : Process → Bool) : Plain (modifyHost (·.deliver which))
  | leave (pid : Int) (other : pid ≠ firstPid) (status : Nat) :
    Plain (modifyProcesses fun s => (s.orphan pid).leave pid status)

end SessionM

/-- What a session is at. -/
inductive Stance where
  /-- It is between lines. -/
  | idle
  /-- It runs a line and has nothing in the foreground. -/
  | busy
  /-- It has something in the foreground, of which some processes are still to be waited for. -/
  | awaiting (w : Awaited) (pids : List Int)
  /-- It has a job in the foreground that cannot be made to go on. -/
  | lost (job : Job)

namespace Stance

/-- What is in the foreground. -/
def awaited? : Stance → Option Awaited
  | idle | busy => none
  | awaiting w _ => some w
  | lost job => some (.job job)

/-- Whether there is something to wait for in the foreground. -/
def IsWaiting (st : Stance) : Prop := ∃ w pid rest, st = awaiting w (pid :: rest)

/-- Whether what is in the foreground has been waited for, or cannot be. -/
def IsOver (w : Awaited) (st : Stance) : Prop :=
  st = awaiting w [] ∨ ∃ job, w = .job job ∧ st = lost job

/-- Whether a session does anything before it goes on to wait, or to take what is in the foreground
out of it. Once it has waited for a program or a job it does not. -/
def Works (st : Stance) : Prop :=
  st.awaited? = none ∨ st.IsWaiting ∨ (∃ pids, st = awaiting (.pipeline pids) []) ∨
    ∃ job, st = lost job

theorem works_idle : idle.Works := .inl rfl

theorem works_busy : busy.Works := .inl rfl

end Stance

/-- What a session does next: it takes a single step, waits for a process, takes what is in the
foreground out of it, or asks for all jobs. -/
inductive Move where
  | step
  | wait (pid : Int)
  | release
  | ask

/-- A moment of a run, with the states before and after what is done next. -/
structure Moment where
  stance : Stance
  move : Move
  before : Machine
  after : Machine

/-- A session that has put a process into the foreground, or none. -/
def Machine.watching (m : Machine) (pid : Option Int) : Machine :=
  { m with shell := { m.shell with foreground := pid } }

/-- The moments of a run, given what the session is at before and after it. What is in the foreground
is there from before the first of its processes is waited for until all of them have been, or until
a job turns out to have ended that should go on, and jobs are asked for only between lines. A copy
of the shell is a session of its own, which starts with nothing in the foreground. -/
inductive Trace : Stance → Stance → {α : Type} → SessionM α → Machine → List Moment → Prop where
  | step {st : Stance} {α : Type} {x : SessionM α} (works : st.Works) (plain : Plain x)
    (m : Machine) : Trace st st x m [⟨st, .step, m, (x m).2⟩]
  | bind {st st' st'' : Stance} {α β : Type} {x : SessionM β} {f : β → SessionM α} {m : Machine}
    {earlier later : List Moment} (first : Trace st st' x m earlier)
    (next : Trace st' st'' (f (x m).1) (x m).2 later) : Trace st st'' (x >>= f) m (earlier ++ later)
  | give {st st' : Stance} {α β : Type} {x : SessionM β} {m : Machine} {ms : List Moment}
    (run : Trace st st' x m ms) (f : β → α) : Trace st st' (do return f (← x)) m ms
  | ask (m : Machine) : Trace .idle .idle askJobs m [⟨.idle, .ask, m, (askJobs m).2⟩]
  | line {α : Type} {x : SessionM α} {m : Machine} {ms : List Moment}
    (run : Trace .busy .busy x m ms) : Trace .idle .idle x m ms
  | wait (w : Awaited) (pid : Int) (rest : List Int) (m : Machine) :
    Trace (.awaiting w (pid :: rest)) (.awaiting w rest) (waitFor pid) m
      [⟨.awaiting w (pid :: rest), .wait pid, m, (waitFor pid m).2⟩]
  | lose {job : Job} {m : Machine} {ms : List Moment} {e : Errno}
    (tried : Trace (.awaiting (.job job) [job.pid]) (.awaiting (.job job) [job.pid])
      (JobControl.resume job) m ms)
    (failed : (JobControl.resume job m).1 = .error e) :
    Trace (.awaiting (.job job) [job.pid]) (.lost job) (JobControl.resume job) m ms
  | watch {w : Awaited} {st : Stance} {α : Type} {act : SessionM α} {m : Machine}
    {ms : List Moment} (runs : w.Runs act) (number : 0 < w.pid)
    (during : Trace (.awaiting w w.pids) st act (m.watching (some w.pid)) ms) (ended : st.IsOver w) :
    Trace .busy .busy (withForeground w.pid act) m
      (⟨.busy, .step, m, m.watching (some w.pid)⟩ :: ms ++ [⟨st, .release,
        (act (m.watching (some w.pid))).2, (withForeground w.pid act m).2⟩])
  | copy {st : Stance} {α : Type} {child : Shell} {body : SessionM α} {m : Machine}
    {ms : List Moment} (works : st.Works) (alone : child.foreground = none)
    (apart : Trace .busy .busy body { m with shell := child } ms) :
    Trace st st (inCopy child body) m
      (⟨st, .step, m, { m with shell := child }⟩ :: ms ++ [⟨.busy, .step,
        (body { m with shell := child }).2, (inCopy child body m).2⟩])

/-! ### Children of the session -/

namespace ProcessTable

/-- The children of the session are all there, and no change of them has been passed over, those
with some numbers apart. -/
def Spares (apart : Int → Prop) (s t : ProcessTable) : Prop :=
  ∀ p ∈ s.processes, p.parent = firstPid → apart p.pid ∨ ∃ q ∈ t.processes, p.Becomes q

variable {apart : Int → Prop} {s t u : ProcessTable}

theorem Spares.of_eq (same : t = s) : s.Spares apart t :=
  fun p hp _ => .inr ⟨p, same ▸ hp, .refl p⟩

theorem Spares.trans (first : s.Spares apart t) (second : t.Spares apart u) : s.Spares apart u := by
  intro p hp own
  rcases first p hp own with left | ⟨q, hq, told⟩
  · exact .inl left
  · rcases second q hq (told.parent.trans own) with left | ⟨r, hr, told'⟩
    · exact .inl (told.pid ▸ left)
    · exact .inr ⟨r, hr, told.trans told'⟩

theorem spares_map {f : Process → Process} (told : ∀ p ∈ s.processes, p.parent = firstPid →
    p.Becomes (f p)) : s.Spares apart { s with processes := s.processes.map f } :=
  fun p hp own => .inr ⟨f p, List.mem_map_of_mem hp, told p hp own⟩

theorem spares_update (pid : Int) {f : Process → Process} (told : ∀ p : Process, p.Becomes (f p)) :
    s.Spares apart (s.update pid f) := by
  refine spares_map fun p _ _ => ?_
  split
  · exact told p
  · exact .refl p

theorem spares_drop (pid : Int) : s.Spares (· = pid) (s.drop pid) := by
  intro p hp _
  by_cases same : p.pid = pid
  · exact .inl same
  · exact .inr ⟨p, List.mem_filter.2 ⟨hp, decide_eq_true same⟩, .refl p⟩

/-- Without anything to come from outside, signals only change processes. -/
theorem spares_kill (quiet : s.outside = []) (self target : Int) (signal : Option Signal) :
    s.Spares apart (s.kill self target signal).2 := by
  have still : s.advance = s := by rw [advance, quiet]
  unfold kill
  rw [still]
  dsimp only
  split
  · refine spares_map fun p _ _ => ?_
    split
    · exact p.becomes_receive? signal
    · exact .refl p
  · exact .of_eq rfl

/-- A wait takes note of the process that is waited for, and of no other. -/
theorem spares_wait (quiet : s.outside = []) (self pid : Int) :
    s.Spares (· = pid) (s.wait self pid).2 := by
  rw [wait, quiet, waitThrough]
  unfold collect?
  split
  · exact .of_eq rfl
  · split
    · exact spares_drop pid
    · split
      · intro p hp _
        by_cases same : p.pid = pid
        · exact .inl same
        · refine .inr ⟨p, List.mem_map.2 ⟨p, hp, ?_⟩, .refl p⟩
          rw [if_neg same]
      · exact spares_drop pid
    · exact spares_drop pid

/-- When a copy of the shell leaves, its own children pass on. -/
theorem spares_leave {pid : Int} (other : pid ≠ firstPid) (status : Nat) :
    s.Spares apart ((s.orphan pid).leave pid status) := by
  intro p hp own
  have others : p.parent ≠ pid := fun same => other (same.symm.trans own)
  have kept : p ∈ (s.orphan pid).processes := by
    refine List.mem_map.2 ⟨p, List.mem_filter.2 ⟨hp, ?_⟩, if_neg others⟩
    simp [others]
  unfold leave
  dsimp only
  split
  · exact .inr ⟨p, kept, .refl p⟩
  · refine spares_update pid (fun p => ?_) p kept own
    split
    · exact .refl p
    · exact p.becomes_finish _

end ProcessTable

namespace SessionM

theorem Plain.foreground {α : Type} {x : SessionM α} (plain : Plain x) (m : Machine) :
    (x m).2.shell.foreground = m.shell.foreground := by
  cases plain with
  | shell f same => exact same m.shell
  | tryFiles f same =>
    rw [tryHost_apply]
    split <;> rfl
  | _ => rfl

theorem Plain.spares {α : Type} {x : SessionM α} (plain : Plain x) {m : Machine}
    (quiet : m.host.outside = []) (apart : Int → Prop) :
    m.host.toProcessTable.Spares apart (x m).2.host.toProcessTable := by
  cases plain with
  | read f => exact .of_eq rfl
  | shell f same => exact .of_eq rfl
  | files f same => exact .of_eq (same m.host)
  | tryFiles f same =>
    rw [tryHost_apply]
    split
    · exact .of_eq rfl
    · next done => exact .of_eq (same _ _ _ done)
  | spawn parent ownGroup =>
    exact fun p hp _ => .inr ⟨p, List.mem_append_left _ hp, .refl p⟩
  | kill self target signal => exact ProcessTable.spares_kill quiet self target signal
  | update pid f told => exact ProcessTable.spares_update pid (told m.host)
  | deliver which =>
    change m.host.toProcessTable.Spares apart (m.host.deliver which).toProcessTable
    rw [Host.toProcessTable_deliver]
    refine ProcessTable.spares_map fun p _ _ => ?_
    split
    · exact p.becomes_held []
    · exact .refl p
  | leave pid other status => exact ProcessTable.spares_leave other status

theorem spares_waitFor {m : Machine} (quiet : m.host.outside = []) (pid : Int) :
    m.host.toProcessTable.Spares (· = pid) (waitFor pid m).2.host.toProcessTable := by
  let delivered := m.host.deliver (·.pid = pid)
  have given : m.host.toProcessTable.Spares (· = pid) delivered.toProcessTable :=
    (Plain.deliver (·.pid = pid)).spares quiet _
  have quiet : delivered.outside = [] := by
    rw [m.host.toProcessTable_deliver]
    exact quiet
  exact given.trans (ProcessTable.spares_wait quiet m.shell.pid pid)

end SessionM

/-! ### Signals -/

/-- A signal to a process goes to what has its number, and to nothing else. -/
theorem ProcessTable.processes_kill (s : ProcessTable) (self : Int) {target : Int}
    (number : 0 < target) (signal : Option Signal) : (s.kill self target signal).2.processes =
      s.advance.processes.map fun p => if p.pid = target then p.receive? signal else p := by
  have targets (p : Process) :
      s.advance.reaches self target p.pid p.group = decide (p.pid = target) := if_pos number
  unfold kill
  dsimp only
  split
  · apply List.map_congr_left
    intro p _
    simp only [targets, decide_eq_true_eq]
  · next none =>
    -- There is nothing that could receive the signal.
    simp only [targets, Bool.or_eq_true, List.any_eq_true, decide_eq_true_eq, not_or, not_exists,
      not_and] at none
    have same : s.advance.processes.map (fun p => if p.pid = target then p.receive? signal else p) =
        s.advance.processes.map id := by
      apply List.map_congr_left
      intro p hp
      rw [if_neg (none.1.1.1 p hp), id]
    rw [same, List.map_id]

/-- A session at a moment at which its processes have come to some other state. -/
def Machine.amid (m : Machine) (s : ProcessTable) : Machine :=
  { m with host := { m.host with toProcessTable := s } }

namespace SessionM

theorem receiveSignal_apply (sig : Signal) (m : Machine) : receiveSignal sig m =
    (if m.shell.forwards && (sig = .interrupt || sig = .terminalStop) then
      match m.shell.foreground with
      | some pid =>
        if 0 < pid then do
          let _ ← onProcesses (·.kill m.shell.pid pid (some sig))
        else do
          let _ ← writeDirectly [Bytes.newline]
      | none => do
        let _ ← writeDirectly [Bytes.newline]
    else pure () : SessionM Unit) m := rfl

/-- What is passed on reaches the process in the foreground. -/
theorem processes_receiveSignal {m : Machine} {pid : Int} (number : 0 < pid)
    (mark : m.shell.foreground = some pid) (forwards : m.shell.forwards = true) {sig : Signal}
    (passed : sig = .interrupt ∨ sig = .terminalStop) :
    (receiveSignal sig m).2.host.processes = m.host.advance.processes.map
      fun p => if p.pid = pid then p.receive sig else p := by
  have passes : (m.shell.forwards && (sig = .interrupt || sig = .terminalStop)) = true := by
    simpa [forwards] using passed
  rw [receiveSignal_apply, if_pos passes, mark]
  dsimp only
  rw [if_pos number]
  exact m.host.toProcessTable.processes_kill m.shell.pid number (some sig)

/-- Without a process in the foreground, signals reach no process. -/
theorem toProcessTable_receiveSignal {m : Machine} (mark : m.shell.foreground = none)
    (sig : Signal) : (receiveSignal sig m).2.host.toProcessTable = m.host.toProcessTable := by
  rw [receiveSignal_apply, mark]
  split
  · exact congrArg Affairs.processes (keeps_writeDirectly (I := (· = m.affairs)) _ m rfl)
  · rfl

end SessionM

/-! ### What is marked -/

/-- What is in the foreground has a number, and what is to be waited for is part of it. -/
def Stance.Proper : Stance → Prop
  | idle | busy => True
  | awaiting w pids => 0 < w.pid ∧ pids <:+ w.pids
  | lost job => 0 < job.pid

theorem Stance.Proper.number {st : Stance} (h : st.Proper) :
    ∀ w, st.awaited? = some w → 0 < w.pid := by
  intro w awaited
  cases st with
  | idle | busy => cases awaited
  | awaiting v pids =>
    cases awaited
    exact h.1
  | lost job =>
    cases awaited
    exact h

/-- The mark tells what is in the foreground, and only that is waited for. Whatever has become of the
processes by then, an interrupt that is passed on reaches the process that stands for it and no
other. Something is in the foreground just while there is something to wait for, but for the moment
at which it is taken out again, and but for what is done about the last process of a pipeline once it
has been waited for, or about a job that cannot be made to go on. With nothing in the foreground, no
process is marked, and no signal is passed on. And as long as nothing befalls processes from outside,
no child of the session is lost but by a wait for it, or where jobs are asked for. -/
structure Moment.Disciplined (t : Moment) : Prop where
  mark : (foregroundPid t.before).1 = t.stance.awaited?.map Awaited.pid
  waits : ∀ pid, t.move = .wait pid →
    ∃ w rest, t.stance = .awaiting w (pid :: rest) ∧ pid ∈ w.pids
  lasts : t.stance.awaited?.isSome = true → t.stance.IsWaiting ∨ t.move = .release ∨
    (∃ pids, t.stance = .awaiting (.pipeline pids) []) ∨ ∃ job, t.stance = .lost job
  asks : t.move = .ask → t.stance = .idle
  reaches : ∀ w, t.stance.awaited? = some w → t.before.shell.forwards = true →
    ∀ sig, sig = .interrupt ∨ sig = .terminalStop → ∀ s : ProcessTable,
      (receiveSignal sig (t.before.amid s)).2.host.processes = s.advance.processes.map
        fun p => if p.pid = w.pid then p.receive sig else p
  spares : t.stance.awaited? = none → ∀ (sig : Signal) (s : ProcessTable),
    (receiveSignal sig (t.before.amid s)).2.host.toProcessTable = s
  keeps : t.before.host.outside = [] → t.move ≠ .ask →
    t.before.host.toProcessTable.Spares (fun pid => t.move = .wait pid) t.after.host.toProcessTable

namespace Moment

/-- It is enough that the mark is where it belongs, and that what is done next is in order. -/
theorem disciplined {t : Moment} (proper : t.stance.Proper)
    (mark : t.before.shell.foreground = t.stance.awaited?.map Awaited.pid)
    (waits : ∀ pid, t.move = .wait pid → ∃ w rest, t.stance = .awaiting w (pid :: rest))
    (lasts : t.move = .step → t.stance.Works) (asks : t.move = .ask → t.stance = .idle)
    (keeps : t.before.host.outside = [] → t.move ≠ .ask → t.before.host.toProcessTable.Spares
      (fun pid => t.move = .wait pid) t.after.host.toProcessTable) : t.Disciplined where
  mark := by
    change t.before.shell.foreground.filter (· ≠ 0) = _
    rw [mark]
    cases awaited : t.stance.awaited? with
    | none => rfl
    | some w =>
      have positive := proper.number w awaited
      rw [Option.map_some, Option.filter_some, if_pos (decide_eq_true (by omega))]
  waits pid waiting := by
    obtain ⟨w, rest, here⟩ := waits pid waiting
    rw [here] at proper
    exact ⟨w, rest, here, proper.2.subset List.mem_cons_self⟩
  lasts some := by
    cases move : t.move with
    | step =>
      obtain none | rest := lasts move
      · rw [none] at some
        cases some
      · exact rest.imp id .inr
    | wait pid =>
      obtain ⟨w, rest, here⟩ := waits pid move
      exact .inl ⟨w, pid, rest, here⟩
    | release => exact .inr (.inl rfl)
    | ask =>
      rw [asks move] at some
      cases some
  asks := asks
  reaches w awaited forwards sig passed s := by
    refine processes_receiveSignal (m := t.before.amid s) (proper.number w awaited) ?_ forwards
      passed
    rw [Machine.amid, mark, awaited, Option.map_some]
  spares awaited sig s := by
    refine toProcessTable_receiveSignal ?_ sig
    rw [Machine.amid, mark, awaited, Option.map_none]
  keeps := keeps

variable {st : Stance} {m m' : Machine}

/-- A single step, from a state in which the mark is where it belongs. -/
theorem disciplined_step (proper : st.Proper) (works : st.Works)
    (mark : m.shell.foreground = st.awaited?.map Awaited.pid)
    (keeps : m.host.outside = [] →
      m.host.toProcessTable.Spares (fun _ => False) m'.host.toProcessTable) :
    Disciplined ⟨st, .step, m, m'⟩ := by
  refine disciplined proper mark (by simp) (fun _ => works) (by simp) fun quiet _ p hp own => ?_
  exact .inr ((keeps quiet p hp own).resolve_left id)

end Moment

namespace Trace

open Moment (disciplined_step)

variable {st st' : Stance} {α : Type} {x : SessionM α} {m : Machine} {ms : List Moment}

/-- What is still to be waited for remains part of what is in the foreground. -/
theorem proper (trace : Trace st st' x m ms) (before : st.Proper) : st'.Proper := by
  induction trace with
  | step | ask | line | watch | copy => exact before
  | give run f ih => exact ih before
  | bind first next ih ih' => exact ih' (ih before)
  | wait w pid rest m => exact ⟨before.1, (List.suffix_cons pid rest).trans before.2⟩
  | lose tried failed ih => exact before.1

/-- A run leaves the mark where it belongs. -/
theorem foreground (trace : Trace st st' x m ms)
    (mark : m.shell.foreground = st.awaited?.map Awaited.pid) :
    (x m).2.shell.foreground = st'.awaited?.map Awaited.pid := by
  induction trace with
  | step works plain m => exact (plain.foreground m).trans mark
  | bind first next ih ih' => exact ih' (ih mark)
  | give run f ih => exact ih mark
  | ask m => exact mark
  | line run ih => exact ih mark
  | wait w pid rest m => exact mark
  | lose tried failed ih => exact ih mark
  | watch runs number during ended ih => rfl
  | copy works alone apart ih => exact mark

/-- At every moment of a run the mark is where it belongs. -/
theorem disciplined (trace : Trace st st' x m ms) (proper : st.Proper)
    (mark : m.shell.foreground = st.awaited?.map Awaited.pid) : ∀ t ∈ ms, t.Disciplined := by
  induction trace with
  | step works plain m =>
    refine List.forall_mem_singleton.2 (disciplined_step proper works mark fun quiet => ?_)
    exact plain.spares quiet _
  | bind first next ih ih' =>
    exact List.forall_mem_append.2 ⟨ih proper mark,
      ih' (first.proper proper) (first.foreground mark)⟩
  | give run f ih => exact ih proper mark
  | ask m =>
    exact List.forall_mem_singleton.2
      (Moment.disciplined proper mark (by simp) (by simp) (by simp) (by simp))
  | line run ih => exact ih proper mark
  | wait w pid rest m =>
    refine List.forall_mem_singleton.2 (Moment.disciplined proper mark ?_ (by simp) (by simp) ?_)
    · intro pid' same
      cases same
      exact ⟨w, rest, rfl⟩
    · intro quiet _ p hp own
      exact (spares_waitFor quiet pid p hp own).imp (fun same => by rw [same]) id
  | lose tried failed ih => exact ih proper mark
  | @watch w st α act m ms runs positive during ended ih =>
    have inside : (Stance.awaiting w w.pids).Proper := ⟨positive, List.suffix_rfl⟩
    have opening : Moment.Disciplined ⟨.busy, .step, m, m.watching (some w.pid)⟩ :=
      disciplined_step proper (.inl rfl) mark fun _ => .of_eq rfl
    have closing : Moment.Disciplined ⟨st, .release, (act (m.watching (some w.pid))).2,
        (withForeground w.pid act m).2⟩ := by
      refine Moment.disciplined (during.proper inside) (during.foreground rfl) (by simp) (by simp)
        (by simp) fun _ _ => .of_eq rfl
    exact List.forall_mem_cons.2 ⟨opening,
      List.forall_mem_append.2 ⟨ih inside rfl, List.forall_mem_singleton.2 closing⟩⟩
  | @copy st α child body m ms works alone apart ih =>
    have opening : Moment.Disciplined ⟨st, .step, m, { m with shell := child }⟩ :=
      disciplined_step proper works mark fun _ => .of_eq rfl
    have closing : Moment.Disciplined ⟨.busy, .step, (body { m with shell := child }).2,
        (inCopy child body m).2⟩ :=
      disciplined_step trivial (.inl rfl) (apart.foreground alone) fun _ => .of_eq rfl
    exact List.forall_mem_cons.2 ⟨opening,
      List.forall_mem_append.2 ⟨ih trivial alone, List.forall_mem_singleton.2 closing⟩⟩

end Trace
end JobShell
