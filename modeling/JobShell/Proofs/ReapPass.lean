import JobShell.Job.Reap
import JobShell.Proofs.ChildAccounts

/-! What a pass over all jobs finds and makes of them. Events may happen all the while, so that every
job is compared with its process as that is when it is asked for. -/
namespace JobShell

open Host (firstPid)

def Process.ending? (p : Process) : Option Ending :=
  match p.phase with
  | .ended how => some how
  | _ => none

theorem Process.ending?_eq_none {p : Process} {status : Job.Status} (now : p.status? = some status) :
    p.ending? = none := by
  unfold status? at now
  unfold ending?
  split <;> simp_all

/-- The change by which a process has come to a status. -/
def Change.ofStatus : Job.Status → Change
  | .running => .resumed
  | .stopped => .stopped

namespace ProcessTable

variable {gone : Int → Prop} {s : ProcessTable} {self pid : Int}

/-- How a child would be listed, unless it has ended or there is none. -/
def statusOf? (s : ProcessTable) (self pid : Int) : Option Job.Status :=
  (s.child? self pid).bind Process.status?

/-- How a child that is still to be reaped has ended. -/
def endingOf? (s : ProcessTable) (self pid : Int) : Option Ending :=
  (s.child? self pid).bind Process.ending?

/-- What asking for a child finds. -/
inductive Polled (self pid : Int) (s : ProcessTable) :
    Except Errno (Option Change) × ProcessTable → Prop where
  | missing (none : s.child? self pid = none) : Polled self pid s (.error .noChild, s)
  | ended {p : Process} {how : Ending} (child : s.child? self pid = some p)
    (phase : p.phase = .ended how) :
    Polled self pid s
      (if how.isTold then .ok (some (.ended how)) else .error .invalid, s.drop pid)
  | changed {p : Process} {status : Job.Status} (child : s.child? self pid = some p)
    (now : p.status? = some status) :
    Polled self pid s (.ok (some (.ofStatus status)), s.update pid Process.told)
  | same {p : Process} {status : Job.Status} (child : s.child? self pid = some p)
    (now : p.status? = some status) (old : p.fresh = false) : Polled self pid s (.ok none, s)

theorem poll_polled (s : ProcessTable) (self pid : Int) :
    Polled self pid s.advance (s.poll self pid) := by
  unfold poll
  dsimp only
  split
  · next none => exact .missing none
  · next p child =>
    split
    · next how phase => exact .ended child phase
    · next phase =>
      have now : p.status? = some .stopped := by simp [Process.status?, phase]
      split
      · exact .changed child now
      · next old => exact .same child now (by simpa using old)
    · next phase =>
      have now : p.status? = some .running := by simp [Process.status?, phase]
      split
      · exact .changed child now
      · next old => exact .same child now (by simpa using old)

end ProcessTable

namespace JobTable

open ProcessTable

variable {gone : Int → Prop}

/-- The jobs of a pass, each with the processes as they are when it is asked for. -/
def asked (self : Int) : List Job → ProcessTable → List (Job × ProcessTable)
  | [], _ => []
  | j :: js, s => (j, s.advance) :: asked self js (s.poll self j.pid).2

/-- A job as its process is at the moment; none if there is no such process or if it has ended. -/
def current? (self : Int) (a : Job × ProcessTable) : Option Job :=
  (a.2.statusOf? self a.1.pid).map fun status => { a.1 with status }

/-- The notice that is due about a job, whose process has ended in a way that can be told. -/
def notice? (self : Int) (a : Job × ProcessTable) : Option String :=
  ((a.2.endingOf? self a.1.pid).filter Ending.isTold).map (notice a.1)

/-- What remains of a job after an answer. -/
def remaining (j : Job) : Except Errno (Option Change) → Option Job
  | .ok none => some j
  | .ok (some .stopped) => some { j with status := .stopped }
  | .ok (some .resumed) => some { j with status := .running }
  | .ok (some (.ended _)) | .error _ => none

/-- What is said about a job after an answer. -/
def saying (j : Job) : Except Errno (Option Change) → Option String
  | .ok (some (.ended how)) => some (notice j how)
  | _ => none

theorem reapJobs_cons (self : Int) (j : Job) (js : List Job) (s : ProcessTable) :
    let polled := s.poll self j.pid
    let rest := reapJobs self js polled.2
    reapJobs self (j :: js) s =
      ((saying j polled.1).toList ++ rest.1, (remaining j polled.1).toList ++ rest.2.1, rest.2.2) := by
  dsimp only
  rw [reapJobs]
  generalize s.poll self j.pid = polled
  obtain ⟨answer, u⟩ := polled
  rcases answer with e | _ | change
  · rfl
  · rfl
  · cases change <;> rfl

end JobTable

namespace Accounts

open ProcessTable JobTable

variable {gone : Int → Prop} {t : JobTable} {s : ProcessTable} {before rest : List Job} {j : Job}

/-- An answer about a job tells what its process is, and leaves a table that accounts for the
children. -/
theorem poll (h : Accounts gone { t with jobs := before ++ j :: rest } [] s) :
    remaining j (s.poll firstPid j.pid).1 = current? firstPid (j, s.advance) ∧
    saying j (s.poll firstPid j.pid).1 = notice? firstPid (j, s.advance) ∧
    Accounts gone { t with jobs := before ++ (current? firstPid (j, s.advance)).toList ++ rest } []
      (s.poll firstPid j.pid).2 := by
  have h := h.evolves (evolves_advance h.sound)
  have polled := poll_polled s firstPid j.pid
  generalize s.poll firstPid j.pid = r at polled
  generalize s.advance = s at h polled
  have child {p : Process} (child : s.child? firstPid j.pid = some p) :
      ∀ q ∈ s.processes, q.pid = j.pid → q = p := by
    obtain ⟨hp, pid, -⟩ := child?_eq_some child
    exact fun q hq same => h.sound.eq_of_pid hq hp (same.trans pid.symm)
  cases polled with
  | missing none =>
    simp only [current?, notice?, statusOf?, endingOf?, none, Option.bind_none, Option.map_none,
      Option.filter_none]
    exact ⟨rfl, rfl, by simpa using h.withdraw.forget (child?_eq_none none)⟩
  | @ended p how found phase =>
    simp only [current?, notice?, statusOf?, endingOf?, found, Option.bind_some, Process.status?,
      Process.ending?, phase, Option.map_none]
    refine ⟨?_, ?_, by simpa using h.withdraw.drop⟩
    · cases how <;> rfl
    · cases how <;> rfl
  | @changed p status found now =>
    have alive := Process.ending?_eq_none now
    simp only [current?, notice?, statusOf?, endingOf?, found, Option.bind_some, now, alive,
      Option.filter_none, Option.map_none, Option.map_some]
    refine ⟨by cases status <;> rfl, by cases status <;> rfl, ?_⟩
    have suits : ∀ q ∈ s.processes, q.parent = firstPid → q.pid = j.pid → q.Suits status :=
      fun q hq _ same => .inr (.inr (child found q hq same ▸ now))
    have renoted := h.renote suits
    have told := renoted.told j.pid fun i hi same q hq _ here => by
      have eq : i = { j with status } :=
        List.inj_on_of_nodup_map renoted.distinct hi (by simp) same
      rw [eq, child found q hq here]
      exact now
    simpa using told
  | @same p status found now old =>
    have alive := Process.ending?_eq_none now
    have right : status = j.status := by
      obtain ⟨hp, pid, own⟩ := child?_eq_some found
      have noted := h.noted j (by simp) p hp own pid
      simpa [Process.Suits, now, old] using noted
    simp only [current?, notice?, statusOf?, endingOf?, found, Option.bind_some, now, alive,
      Option.filter_none, Option.map_none, Option.map_some, right]
    exact ⟨rfl, rfl, by simpa using h⟩

/-- A pass finds every job as its process is when it is asked for. -/
theorem reap (before : List Job) {jobs : List Job}
    (h : Accounts gone { t with jobs := before ++ jobs } [] s) :
    (reapJobs firstPid jobs s).1 = (asked firstPid jobs s).filterMap (notice? firstPid) ∧
    (reapJobs firstPid jobs s).2.1 = (asked firstPid jobs s).filterMap (current? firstPid) ∧
    Accounts gone { t with jobs := before ++ (reapJobs firstPid jobs s).2.1 } []
      (reapJobs firstPid jobs s).2.2 := by
  induction jobs generalizing before s with
  | nil => exact ⟨rfl, rfl, h⟩
  | cons j jobs ih =>
    obtain ⟨remains, said, next⟩ := h.poll
    obtain ⟨notices, left, accounts⟩ := ih _ next
    rw [reapJobs_cons]
    dsimp only
    rw [remains, said, notices]
    refine ⟨?_, ?_, ?_⟩
    · rw [asked, List.filterMap_cons]
      cases notice? firstPid (j, s.advance) <;> rfl
    · rw [left, asked, List.filterMap_cons]
      cases current? firstPid (j, s.advance) <;> rfl
    · rwa [← List.append_assoc]

end Accounts

/-! ### Passes in which nothing happens -/

namespace ProcessTable

/-- Nothing befalls processes from outside. -/
def Quiet (s : ProcessTable) : Prop := ∀ batch ∈ s.outside, batch = []

variable {s : ProcessTable} {self pid other : Int}

theorem Quiet.advance (h : s.Quiet) : s.advance.processes = s.processes ∧ s.advance.Quiet := by
  unfold ProcessTable.advance
  split
  · exact ⟨rfl, h⟩
  · next batch later outside =>
    have idle : batch = [] := h batch (by simp [outside])
    refine ⟨by rw [idle]; rfl, ?_⟩
    rw [idle]
    exact fun b hb => h b (by simp [outside, show b ∈ later from hb])

theorem Quiet.poll (h : s.Quiet) (self pid : Int) : (s.poll self pid).2.Quiet := by
  have polled := poll_polled s self pid
  generalize s.poll self pid = r at polled
  cases polled <;> exact h.advance.2

end ProcessTable

namespace JobTable

open ProcessTable

variable {s : ProcessTable} (quiet : s.Quiet) (self : Int)
include quiet

end JobTable
end JobShell
