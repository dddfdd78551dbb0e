import JobShell.Host.World
import JobShell.Proofs.OrderlyRuns
import JobShell.Proofs.ReapPass

/-! The states that a session can come to, whatever happens to its processes on the way. In all of
them the table of jobs accounts for the children of the session. -/
namespace JobShell

open Host (firstPid)
open ProcessTable (Evolves)

/-- The state of the session itself, with the children that it is still to wait for. -/
structure Settled (gone : Int → Prop) (pids : List Int) (a : Affairs) : Prop where
  self : a.pid = firstPid
  accounts : Accounts gone a.jobs pids a.processes

theorem oversees_settled {gone : Int → Prop} : Oversees gone (Settled gone) where
  stable pids := ⟨fun _ h => h.accounts.sound, fun _ _ h e => ⟨h.self, h.accounts.evolves e⟩⟩
  spawn h own := ⟨h.self, h.self ▸ h.accounts.spawn own⟩
  launch {a} h command := by
    refine ⟨h.self, (h.self ▸ h.accounts.spawn true).add command ?_⟩
    intro p hp _ same
    rcases List.mem_append.1 hp with hp | hp
    · exact absurd same (h.accounts.sound.freshPid_spec.1 p hp)
    · rw [List.mem_singleton.1 hp]
      exact .inr (.inr rfl)
  wait {pid pids a} h := by
    have waited := h.accounts.wait
    rw [← h.self] at waited
    rcases found : (a.processes.wait a.pid pid).1 with e | outcome
    · rw [found] at waited
      exact ⟨h.self, waited⟩
    · rw [found] at waited
      cases outcome with
      | exited | killed => exact ⟨h.self, waited⟩
      | stopped => exact fun command => ⟨h.self, waited command⟩
  remove h hj := ⟨h.self, h.accounts.removeByPid hj⟩
  forget h none := ⟨h.self, h.accounts.forget fun p hp same => absurd same (none p hp)⟩
  resume {pid _ _} h none := by
    refine ⟨h.self, h.accounts.setStatus pid ?_⟩
    intro p hp _ same
    have running := none p hp same
    cases now : p.status? with
    | none => exact .inl now
    | some status =>
      cases status with
      | running => exact .inr (.inr now)
      | stopped => exact absurd now running

/-! ### Steps -/

/-- What is in store for a step of a session: the numbers that new processes get, the copies of the
shell that stay on after their work, and what befalls processes. -/
structure Circumstances where
  offered : List Int
  lingering : List Bool
  outside : List (List Event)

/-- Whether a process is reaped by someone else than its parent. -/
def Circumstances.Takes (c : Circumstances) (pid : Int) : Prop :=
  ∃ batch ∈ c.outside, Event.taken pid ∈ batch

def ProcessTable.under (s : ProcessTable) (c : Circumstances) : ProcessTable :=
  { s with offered := c.offered, lingering := c.lingering, outside := c.outside }

namespace Machine

/-- A session at the beginning of a step under some circumstances. -/
def under (m : Machine) (c : Circumstances) : Machine :=
  { m with host := { m.host with toProcessTable := m.host.toProcessTable.under c } }

/-- What happens between steps. -/
def befall (m : Machine) (e : Event) : Machine :=
  { m with host := { m.host with toProcessTable := m.host.applyEvent e } }

/-- A number is that of a job whose process has been reaped by someone else. -/
def Lost (m : Machine) (pid : Int) : Prop :=
  pid ∈ m.shell.jobs.jobs.map Job.pid ∧ m.host.child? m.shell.pid pid = none

/-- A session that has started nothing yet. -/
structure Fresh (m : Machine) : Prop where
  self : m.shell.pid = firstPid
  jobs : m.shell.jobs = .empty
  processes : m.host.processes = []
  first : firstPid < m.host.nextPid

theorem fresh_start (tree : FileTree) (directory : NodeId) (input : Node)
    (environment : List (String × String)) (config : Config) :
    (start tree directory input environment config).Fresh := ⟨rfl, rfl, rfl, Int.lt_succ _⟩

end Machine

/-- What can be taken for granted. If processes can be reaped by others than their parents, the
number of one that has been, or is to be within the step, is not that of a job and on offer to new
processes at once, nor on offer more than once. -/
structure Circumstances.Fair (c : Circumstances) (others : Bool) (m : Machine) : Prop where
  takes : ∀ pid, c.Takes pid → others = true
  offers : others = true → ∀ pid, m.Lost pid ∨ c.Takes pid →
    (m.shell.jobs.jobs.map Job.pid ++ c.offered).count pid ≤ 1

theorem Circumstances.Fair.of_idle {c : Circumstances} (idle : c.outside = []) (m : Machine) :
    c.Fair false m := ⟨by simp [Takes, idle], nofun⟩

/-- The states that a session comes to by steps of all kinds, while its processes may end, stop and
go on at any moment. Whether they may also be reaped by others is given. -/
inductive Machine.Reaches (others : Bool) (start : Machine) : Machine → Prop where
  | start : Reaches others start start
  | befall {m : Machine} (reached : Reaches others start m) (e : Event)
    (fair : ∀ pid, e = .taken pid → others = true) : Reaches others start (m.befall e)
  | step {m : Machine} (reached : Reaches others start m) (c : Circumstances)
    (fair : c.Fair others m) (step : Transcript.Step)
    (allowed : ∀ job, step = .steal job → others = true) :
    Reaches others start (Transcript.perform step (m.under c)).2

/-! ### What holds in all states -/

namespace Accounts

open ProcessTable

variable {gone gone' : Int → Prop} {t : JobTable} {s : ProcessTable}

theorem count_le_one (h : Accounts gone t [] s) (pid : Int) :
    (t.jobs.map Job.pid ++ []).count pid ≤ 1 := by
  rw [List.append_nil]
  exact List.nodup_iff_count_le_one.1 h.distinct pid

theorem gone_of_child?_eq_none (h : Accounts gone t [] s) {pid : Int}
    (listed : pid ∈ t.jobs.map Job.pid) (none : s.child? firstPid pid = none) : gone pid := by
  by_contra here
  obtain ⟨p, hp, own, same⟩ := h.registers.present pid (by simpa using listed) here
  exact child?_eq_none none p hp same own

/-- New circumstances bring a new view of which processes can be gone. -/
theorem under (h : Accounts gone t [] s) {c : Circumstances}
    (lost : ∀ pid ∈ t.jobs.map Job.pid, s.child? firstPid pid = none → gone' pid)
    (offers : ∀ pid, gone' pid → (t.jobs.map Job.pid ++ c.offered).count pid ≤ 1)
    (takes : ∀ pid, c.Takes pid → gone' pid) : Accounts gone' t [] (s.under c) where
  registers :=
    { sound := { h.sound with takes := fun batch hb pid he => takes pid ⟨batch, hb, he⟩ }
      distinct := h.registers.distinct
      listed := h.registers.listed
      past := h.registers.past
      present := by
        intro pid listed here
        cases found : s.child? firstPid pid with
        | none => exact absurd (lost pid (by simpa using listed) found) here
        | some p =>
          obtain ⟨hp, same, own⟩ := child?_eq_some found
          exact ⟨p, hp, own, same⟩
      once := by simpa [ProcessTable.under] using offers }
  noted := h.noted
  ordered := h.ordered

end Accounts

namespace SessionM

variable {gone : Int → Prop}

/-- A pass over all jobs, as far as jobs and processes are concerned. -/
theorem affairs_reapJobs (m : Machine) :
    let reaped := JobTable.reapJobs m.shell.pid m.shell.jobs.jobs m.host.toProcessTable
    (reapJobs m).2.affairs = ⟨m.shell.pid, { m.shell.jobs with jobs := reaped.2.1 }, reaped.2.2⟩ := by
  intro reaped
  have tell : Keeps (· = ⟨m.shell.pid, { m.shell.jobs with jobs := reaped.2.1 }, reaped.2.2⟩) _ :=
    ((ofFiles_keeps _).announce reaped.1).keeps
  exact tell { shell := { m.shell with jobs := _ }, host := _ } rfl

theorem keeps_reapJobs : Keeps (Settled gone []) reapJobs := by
  intro m h
  have self : m.shell.pid = firstPid := h.self
  have reaped := (h.accounts.reap []).2.2
  rw [affairs_reapJobs, self]
  exact ⟨rfl, reaped⟩

/-- What a session does keeps its table in order, one case for each kind of step. -/
theorem keeps_step {step : Transcript.Step} (own : ∀ job, step ≠ .steal job) :
    Keeps (Settled gone []) (Transcript.perform step) := by
  have O : Oversees gone (Settled gone) := oversees_settled
  cases step with
  | line text => exact (orderly_runLine text _ O).bind fun _ => .pure _
  | builtin name argv =>
    simp only [Transcript.perform, Transcript.performBy]
    split
    · exact (orderly_builtin _ argv _ O).bind fun _ => .pure _
    · exact .pure _
  | tokens ts => exact (orderly_runParsed ts _ O).bind fun _ => .pure _
  | source path =>
    refine (orderly_sourceFile path _ O).bind ?_
    rintro (e | status)
    · exact .pure _
    · exact .pure _
  | prompt => exact keeps_prompt.bind fun _ => .pure _
  | reap => exact keeps_reapJobs.bind fun _ => .pure _
  | steal job => exact absurd rfl (own job)
  | signal number =>
    simp only [Transcript.perform, Transcript.performBy]
    split
    · exact ((O.stable []).keeps_receiveSignal _).bind fun _ => .pure _
    · exact .pure _

end SessionM

namespace Machine

open SessionM (modifyProcesses)

variable {others : Bool} {start m : Machine}

/-- The table of a session accounts for its children, those apart that others have reaped. -/
def Accounted (others : Bool) (m : Machine) : Prop :=
  ∃ gone, Settled gone [] (m.under ⟨[], [], []⟩).affairs ∧ (others = false → ∀ pid, ¬ gone pid)

/-- Only jobs whose processes have been reaped by others before are lost under new circumstances. -/
theorem Accounted.under (h : m.Accounted others) {c : Circumstances} (fair : c.Fair others m) :
    ∃ gone, Settled gone [] (m.under c).affairs ∧ (others = false → ∀ pid, ¬ gone pid) := by
  obtain ⟨gone, settled, none⟩ := h
  have self : m.shell.pid = firstPid := settled.self
  have none : others = false → ∀ pid, ¬ (m.Lost pid ∨ c.Takes pid) := by
    rintro alone pid (lost | takes)
    · exact none alone pid (settled.accounts.gone_of_child?_eq_none lost.1 (self ▸ lost.2))
    · exact absurd (fair.takes pid takes) (by simp [alone])
  refine ⟨fun pid => m.Lost pid ∨ c.Takes pid, ⟨self, ?_⟩, none⟩
  refine settled.accounts.under (c := c) ?_ ?_ fun pid takes => .inr takes
  · exact fun pid listed lost => .inl ⟨listed, self ▸ lost⟩
  · intro pid lost
    cases others with
    | false => exact absurd lost (none rfl pid)
    | true => exact fair.offers rfl pid lost

theorem accounted_of_settled {gone : Int → Prop} (h : Settled gone [] m.affairs)
    (none : others = false → ∀ pid, ¬ gone pid) : m.Accounted others :=
  ⟨gone, ⟨h.self, h.accounts.under (fun _ => h.accounts.gone_of_child?_eq_none)
    (fun pid _ => h.accounts.count_le_one pid) (by simp [Circumstances.Takes])⟩, none⟩

theorem Fresh.accounted (fresh : m.Fresh) : m.Accounted others := by
  have none : m.host.processes = [] := fresh.processes
  refine ⟨fun _ => False, ⟨fresh.self, ?_⟩, fun _ _ => id⟩
  have sound : (m.host.toProcessTable.under ⟨[], [], []⟩).Sound fun _ => False :=
    { distinct := by simp [ProcessTable.under, none]
      below := by simp [ProcessTable.under, none]
      own := by simp [ProcessTable.under, none]
      first := fresh.first
      takes := nofun }
  have jobs : (m.under ⟨[], [], []⟩).affairs.jobs = .empty := fresh.jobs
  rw [jobs]
  exact ⟨.initial sound none rfl, nofun, JobTable.ordered_empty⟩

/-- One event between steps. -/
theorem Accounted.befall (h : m.Accounted others) {e : Event}
    (fair : ∀ pid, e = .taken pid → others = true) : (m.befall e).Accounted others := by
  obtain ⟨gone, settled, none⟩ := h
  -- What is taken now can be gone from now on.
  have wider : Accounts (fun pid => gone pid ∨ e = .taken pid) m.shell.jobs []
      (m.host.toProcessTable.under ⟨[], [], []⟩) :=
    settled.accounts.under (c := ⟨[], [], []⟩)
      (fun pid listed lost => .inl (settled.accounts.gone_of_child?_eq_none listed lost))
      (fun pid _ => settled.accounts.count_le_one pid) (by simp [Circumstances.Takes])
  have evolves := ProcessTable.evolves_applyEvent wider.sound (e := e) fun pid taken => .inr taken
  have same : (m.host.toProcessTable.under ⟨[], [], []⟩).applyEvent e =
      (m.host.applyEvent e).under ⟨[], [], []⟩ := by cases e <;> rfl
  refine ⟨_, ⟨settled.self, same ▸ wider.evolves evolves⟩, ?_⟩
  rintro alone pid (lost | taken)
  · exact none alone pid lost
  · exact absurd (fair pid taken) (by simp [alone])

/-- To steal the process of a job is to let it be reaped by someone else. -/
theorem perform_steal (m : Machine) (job : Nat) :
    (Transcript.perform (.steal job) m).2 =
      match (Transcript.pidOf? job m).1 with
      | none => m
      | some pid => m.befall (.taken pid) := by
  have searched {α : Type} (f : Option Int → SessionM α) :
      (Transcript.pidOf? job >>= f) m = f (Transcript.pidOf? job m).1 m := rfl
  rw [Transcript.perform, Transcript.performBy, searched]
  cases (Transcript.pidOf? job m).1 with
  | none => rfl
  | some pid => rfl

theorem Reaches.accounted (fresh : start.Fresh) (reached : start.Reaches others m) :
    m.Accounted others := by
  induction reached with
  | start => exact fresh.accounted
  | befall _ e fair ih => exact ih.befall fair
  | @step m _ c fair step allowed ih =>
    obtain ⟨gone, settled, none⟩ := ih.under fair
    have before := accounted_of_settled settled none
    by_cases stolen : ∃ job, step = .steal job
    · obtain ⟨job, rfl⟩ := stolen
      rw [perform_steal]
      split
      · exact before
      · exact before.befall fun _ _ => allowed job rfl
    · have kept := SessionM.keeps_step (fun job eq => stolen ⟨job, eq⟩) (m.under c) settled
      exact accounted_of_settled kept none

/-- As long as nobody else reaps them, the jobs of a session are its unreaped children: each of them
is listed once, and nothing else is. -/
theorem jobs_are_unreaped_children (fresh : start.Fresh) (reached : start.Reaches false m) :
    (m.shell.jobs.jobs.map Job.pid).Nodup ∧
    ∀ pid, pid ∈ m.shell.jobs.jobs.map Job.pid ↔
      ∃ p ∈ m.host.processes, p.parent = m.shell.pid ∧ p.pid = pid := by
  obtain ⟨gone, settled, none⟩ := reached.accounted fresh
  have self : m.shell.pid = firstPid := settled.self
  have registers := settled.accounts.registers
  rw [List.append_nil] at registers
  refine ⟨registers.distinct, fun pid => ⟨fun listed => ?_, ?_⟩⟩
  · rw [self]
    exact registers.present pid listed (none rfl pid)
  · rintro ⟨p, hp, own, rfl⟩
    exact registers.listed p hp (self ▸ own)

/-- Of two copies of the shell in the background one has been stopped and the other one has been
reaped. -/
theorem jobs_are_unreaped_children_after_reap :
    ∃ start m : Machine, start.Fresh ∧ start.Reaches false m ∧
      m.shell.jobs.jobs.map Job.pid = [77] ∧
      ∀ pid, pid ∈ m.shell.jobs.jobs.map Job.pid ↔
        ∃ p ∈ m.host.processes, p.parent = m.shell.pid ∧ p.pid = pid := by
  let initial := Machine.start World.withDevices FileTree.root .null [] .default
  have fresh : initial.Fresh := fresh_start ..
  have started : initial.Reaches false initial := .start
  have launched := started.step ⟨[77, 1], [true, false], []⟩ (.of_idle rfl _)
    (.line ": & : &") nofun
  have reached := (launched.befall (.signal 77 .stop) nofun).step ⟨[], [], []⟩
    (.of_idle rfl _) .reap nofun
  exact ⟨_, _, fresh, reached, by decide +kernel, (jobs_are_unreaped_children fresh reached).2⟩

end Machine
end JobShell
