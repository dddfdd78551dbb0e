import JobShell.CommandLine
import JobShell.Proofs.FileTraffic
import JobShell.Proofs.ForegroundTraces
import JobShell.Proofs.LineSteps
import JobShell.Proofs.SessionStates

/-! Whatever a session does can be followed from moment to moment. So the mark of the process in the
foreground is where it belongs throughout every run, and it is gone after each step. -/
namespace JobShell

open Host (firstPid)
open SessionM
open Stance (works_idle works_busy)

/-! ### Numbers -/

namespace JobTable

/-- The processes of all jobs have numbers from one on. -/
def Numbered (t : JobTable) : Prop := ∀ j ∈ t.jobs, 0 < j.pid

theorem Numbered.add {t : JobTable} (h : t.Numbered) {pid : Int} (number : 0 < pid)
    (command : String) (status : Job.Status) : (t.add pid command status).Numbered := by
  intro j hj
  rcases List.mem_append.1 hj with hj | hj
  · exact h j hj
  · rw [List.mem_singleton.1 hj]
    exact number

theorem Numbered.removeByPid {t : JobTable} (h : t.Numbered) (pid : Int) :
    (t.removeByPid pid).Numbered := fun j hj => h j (List.mem_of_mem_eraseP hj)

theorem Numbered.setStatus {t : JobTable} (h : t.Numbered) (pid : Int) (status : Job.Status) :
    (t.setStatus pid status).Numbered := by
  have kept (jobs : List Job) (h : ∀ j ∈ jobs, 0 < j.pid) :
      ∀ j ∈ setStatus.go pid status jobs, 0 < j.pid := by
    induction jobs with
    | nil => exact h
    | cons k jobs ih =>
      have first := h k List.mem_cons_self
      have later (j : Job) (hj : j ∈ jobs) := h j (List.mem_cons_of_mem k hj)
      rw [setStatus.go]
      split
      · exact List.forall_mem_cons.2 ⟨first, later⟩
      · exact List.forall_mem_cons.2 ⟨first, ih later⟩
  exact kept t.jobs h

/-- What remains of a job is a job of the same process. -/
theorem pid_of_remaining {j k : Job} {answer : Except Errno (Option Change)}
    (here : remaining j answer = some k) : k.pid = j.pid := by
  unfold remaining at here
  split at here <;> cases here <;> rfl

theorem numbered_reapJobs (self : Int) {jobs : List Job} (h : ∀ j ∈ jobs, 0 < j.pid)
    (s : ProcessTable) : ∀ j ∈ (reapJobs self jobs s).2.1, 0 < j.pid := by
  induction jobs generalizing s with
  | nil => exact h
  | cons k jobs ih =>
    rw [reapJobs_cons]
    obtain ⟨first, later⟩ := List.forall_mem_cons.1 h
    refine List.forall_mem_append.2 ⟨fun j hj => ?_, ih later _⟩
    rw [pid_of_remaining (Option.mem_toList.1 hj)]
    exact first

end JobTable

/-- A number is that of a process other than the session. -/
def Host.Other (pid : Int) : Prop := 0 < pid ∧ pid ≠ firstPid

/-- New processes have numbers beyond that of the session, and jobs have numbers from one on. -/
structure Machine.Numbered (m : Machine) : Prop where
  next : firstPid < m.host.nextPid
  jobs : m.shell.jobs.Numbered

theorem ProcessTable.other_freshPid {s : ProcessTable} (next : firstPid < s.nextPid) :
    Host.Other s.freshPid := by
  obtain ⟨_, -, free⟩ | ⟨-, beyond⟩ := s.freshPid_cases
  · simp only [isFree, isSteady, Bool.and_eq_true, Bool.not_eq_true', Bool.or_eq_false_iff,
      decide_eq_true_eq, decide_eq_false_iff_not] at free
    exact ⟨free.1.1, free.1.2.2⟩
  · have positive : 0 < firstPid := by decide
    exact beyond ▸ ⟨Int.lt_trans positive next, Int.ne_of_gt next⟩

theorem Machine.Numbered.amid {m : Machine} (h : m.Numbered) {s : ProcessTable}
    (later : m.host.nextPid ≤ s.nextPid) : (m.amid s).Numbered :=
  ⟨Int.lt_of_lt_of_le h.next later, h.jobs⟩

namespace SessionM

variable {α β : Type} {st st' st'' : Stance} {Q : α → Prop}

/-- Given what the session is at before and after a step, that can be followed from moment to moment,
numbers stay in order, and what the step gives has a property. -/
def Leads (st st' : Stance) (Q : α → Prop) (x : SessionM α) : Prop :=
  ∀ m : Machine, m.Numbered → ∃ ms, Trace st st' x m ms ∧ (x m).2.Numbered ∧ Q (x m).1

/-- A step after which the session is at what it was at before. -/
abbrev Traced (st : Stance) (Q : α → Prop) (x : SessionM α) : Prop := Leads st st Q x

theorem Leads.bind {P : β → Prop} {x : SessionM β} {f : β → SessionM α} (hx : Leads st st' P x)
    (hf : ∀ b, P b → Leads st' st'' Q (f b)) : Leads st st'' Q (x >>= f) := by
  intro m hm
  obtain ⟨before, first, hm', given⟩ := hx m hm
  obtain ⟨after, next, done⟩ := hf _ given _ hm'
  exact ⟨_, first.bind next, done⟩

/-! ### Single steps -/

section
variable (works : st.Works)
include works

theorem traced_plain {x : SessionM α} (plain : Plain x)
    (numbered : ∀ m : Machine, m.Numbered → (x m).2.Numbered) : Traced st (fun _ => True) x :=
  fun m hm => ⟨_, .step works plain m, numbered m hm, trivial⟩

theorem traced_modifyShell {f : Shell → Shell}
    (same : ∀ sh, (f sh).foreground = sh.foreground ∧ (f sh).jobs = sh.jobs) :
    Traced st (fun _ => True) (modifyShell f) := by
  refine traced_plain works (.shell f fun sh => (same sh).1) fun m hm => ⟨hm.next, ?_⟩
  change (f m.shell).jobs.Numbered
  rw [(same m.shell).2]
  exact hm.jobs

theorem traced_modifyJobs {f : JobTable → JobTable} (numbered : ∀ t, t.Numbered → (f t).Numbered) :
    Traced st (fun _ => True) (modifyJobs f) :=
  traced_plain works (.shell _ fun _ => rfl) fun _ hm => ⟨hm.next, numbered _ hm.jobs⟩

theorem traced_onHost {f : Host → α × Host}
    (same : ∀ s, (f s).2.toProcessTable = s.toProcessTable) :
    Traced st (fun _ => True) (onHost f) := by
  refine traced_plain works (.files f same) fun m hm => ?_
  have next : (f m.host).2.nextPid = m.host.nextPid := congrArg ProcessTable.nextPid (same m.host)
  exact ⟨next ▸ hm.next, hm.jobs⟩

theorem traced_tryHost {ε : Type} {f : Host → Except ε (α × Host)}
    (same : ∀ s a t, f s = .ok (a, t) → t.toProcessTable = s.toProcessTable) :
    Traced st (fun _ => True) (tryHost f) := by
  refine traced_plain works (.tryFiles f same) fun m hm => ?_
  rw [tryHost_apply]
  split
  · exact hm
  · next a s done =>
    have next : s.nextPid = m.host.nextPid := congrArg ProcessTable.nextPid (same _ _ _ done)
    exact ⟨next ▸ hm.next, hm.jobs⟩

theorem traced_shell : Traced st (fun sh => sh.jobs.Numbered) shell :=
  fun m hm => ⟨_, .step works (.read Machine.shell) m, hm, hm.jobs⟩

theorem traced_pure {a : α} (given : Q a) : Traced st Q (pure a) :=
  fun m hm => ⟨_, .step works (.read fun _ => a) m, hm, given⟩

/-- What is done with files can be followed, whatever the session is at. -/
theorem ofFiles_traced :
    OfFiles (fun {α} (Q : α → Prop) (x : SessionM α) => Traced st Q x) Machine.Numbered where
  pure := traced_pure works
  bind := Leads.bind
  gives hx found := fun m hm => (hx m hm).imp fun _ done => ⟨done.1, done.2.1, found m⟩
  get := fun m hm => ⟨_, .step works (.read id) m, hm, hm⟩
  unwritten _ := traced_modifyShell works fun _ => ⟨rfl, rfl⟩
  writeDirectly b := (traced_shell works).bind fun _ _ =>
    traced_tryHost works fun _ _ _ => Host.toProcessTable_tryWrite
  complain text := (traced_shell works).bind fun sh _ =>
    traced_onHost works (f := fun s => ((), s.complain sh.pid sh.stdio.error text))
      fun s => s.toProcessTable_complain _ _ _
  record text := by
    refine (traced_shell works).bind fun sh _ => ?_
    cases sh.log with
    | none => exact traced_pure works trivial
    | some h =>
      exact traced_onHost works (f := fun s => ((), s.attempt h _))
        fun s => s.toProcessTable_attempt _ _
  onHost := traced_onHost works
  tryHost := traced_tryHost works

/-! ### Processes -/

theorem traced_onProcesses {f : ProcessTable → α × ProcessTable} (plain : Plain (onProcesses f))
    (retains : ∀ s : ProcessTable, s.Retains (f s).2) : Traced st (fun _ => True) (onProcesses f) :=
  traced_plain works plain fun m hm => hm.amid (retains m.host.toProcessTable).next

theorem traced_kill (self target : Int) (signal : Option Signal) :
    Traced st (fun _ => True) (onProcesses (·.kill self target signal)) :=
  traced_onProcesses works (.kill self target signal) fun _ => .kill self target signal

theorem traced_update (pid : Int) {f : Host → Process → Process}
    (told : ∀ s (p : Process), p.Becomes (f s p)) :
    Traced st (fun _ => True) (modifyHost fun s => s.updateProcess pid (f s)) :=
  traced_plain works (.update pid f told) fun _ hm => ⟨hm.next, hm.jobs⟩

omit works in
theorem nextPid_deliver (s : Host) (which : Process → Bool) :
    (s.deliver which).nextPid = s.nextPid := by
  rw [s.toProcessTable_deliver]
  rfl

theorem traced_deliver (which : Process → Bool) :
    Traced st (fun _ => True) (modifyHost (·.deliver which)) := by
  refine traced_plain works (.deliver which) fun m hm => ⟨?_, hm.jobs⟩
  change firstPid < (m.host.deliver which).nextPid
  rw [nextPid_deliver]
  exact hm.next

theorem traced_spawn (ownGroup : Bool) : Traced st Host.Other (spawn ownGroup) := by
  refine (traced_shell works).bind fun sh _ m hm => ?_
  have retains : m.host.toProcessTable.Retains (m.host.spawn sh.pid ownGroup).2 := .spawn _ _
  exact ⟨_, .step works (.spawn sh.pid ownGroup) m, hm.amid retains.next,
    ProcessTable.other_freshPid hm.next⟩

theorem traced_receiveSignal (sig : Signal) : Traced st (fun _ => True) (receiveSignal sig) := by
  have h := ofFiles_traced works
  have linefeed : Traced st (fun _ => True) (do let _ ← writeDirectly [Bytes.newline]) :=
    h.thenReturn (h.writeDirectly _) trivial
  refine h.andThen h.shell fun sh => h.ite ?_ (h.pure trivial)
  split
  · exact h.ite (h.thenReturn (traced_kill works _ _ _) trivial) linefeed
  · exact linefeed

theorem traced_runImage (pid : Int) (stdio : Stdio) (unwritten : Bytes) (image : Image) :
    Traced st (fun _ => True) (runImage pid stdio unwritten image) := by
  have h := ofFiles_traced works
  refine h.andThen h.shell fun sh => h.andThen h.host fun s => h.ite (h.pure trivial) ?_
  refine h.andThen h.host fun s => ?_
  split
  · refine h.andThen (h.writeTo _ _) fun _ => h.andThen (h.writeTo _ _) fun _ => ?_
    exact traced_update works pid fun _ p => p.becomes_finish _
  · refine h.andThen (h.perform _ _ _ _) fun next => ?_
    refine h.andThen (traced_update works pid fun _ p => p.becomes_goOn next) fun _ => ?_
    split
    · exact traced_receiveSignal works _
    · exact h.pure trivial

/-- A copy of the shell is a session of its own. -/
theorem traced_inCopy (child : Shell) (alone : child.foreground = none)
    (numbered : child.jobs.Numbered) {body : SessionM α} (hb : Traced .busy Q body) :
    Traced st Q (inCopy child body) := by
  intro m hm
  obtain ⟨ms, apart, after, given⟩ := hb { m with shell := child } ⟨hm.next, numbered⟩
  exact ⟨_, .copy works alone apart, ⟨after.next, hm.jobs⟩, given⟩

theorem traced_runCopy {pid : Int} (other : pid ≠ firstPid) (copy : Shell)
    (numbered : copy.jobs.Numbered) {body : SessionM Int} (hb : Traced .busy (fun _ => True) body) :
    Traced st (fun _ => True) (runCopy pid copy body) := by
  have h := ofFiles_traced works
  rw [runCopy_eq]
  refine h.andThen h.host fun s => h.ite (h.pure trivial) ?_
  refine h.andThen (h.modifyHost fun _ => rfl) fun _ => ?_
  have ran : Traced .busy (fun _ => True) (do copyEnding pid (← body)) :=
    hb.bind fun status _ => (ofFiles_traced works_busy).copyEnding pid status
  let child : Shell := { copy with pid, forwards := false, foreground := none }
  refine h.andThen (traced_inCopy works child rfl numbered ran) fun left => ?_
  cases left with
  | none => exact h.pure trivial
  | some status =>
    refine h.andThen (traced_deliver works _) fun _ => ?_
    refine traced_plain works (.leave pid other _) fun m hm => hm.amid ?_
    exact (ProcessTable.Retains.orphan pid |>.trans (.leave pid _)).next

theorem traced_settle {pid : Int} (number : 0 < pid) (display : String) (outcome : Outcome) :
    Traced st IsStatus (settle pid display outcome) := by
  have h := ofFiles_traced works
  have close : Traced st IsStatus (pure outcome.status) := h.pure outcome.isStatus
  cases outcome with
  | exited status => exact close
  | killed signal => exact close
  | stopped signal =>
    refine h.andThen h.shell fun sh => ?_
    refine h.andThen (traced_modifyJobs works fun t ht => ht.add number _ _) fun _ => ?_
    exact h.andThen (h.say _) fun _ => close

end

/-! ### The three waits -/

/-- The next process that is to be waited for is waited for. -/
theorem leads_waitFor (w : Awaited) (pid : Int) (rest : List Int) :
    Leads (.awaiting w (pid :: rest)) (.awaiting w rest) (fun _ => True) (waitFor pid) := by
  intro m hm
  refine ⟨_, .wait w pid rest m, ⟨?_, hm.jobs⟩, trivial⟩
  let delivered := m.host.deliver (·.pid = pid)
  have retains : delivered.toProcessTable.Retains (delivered.wait m.shell.pid pid).2 :=
    .waitThrough _ _ _
  have next : delivered.nextPid = m.host.nextPid := nextPid_deliver _ _
  exact Int.lt_of_lt_of_le (next ▸ hm.next) retains.next

/-- What is done while something is in the foreground can be followed, until that has been waited
for or cannot be. -/
def Attends (w : Awaited) (Q : α → Prop) (act : SessionM α) : Prop :=
  ∀ m : Machine, m.Numbered → ∃ st, st.IsOver w ∧ ∃ ms, Trace (.awaiting w w.pids) st act m ms ∧
    (act m).2.Numbered ∧ Q (act m).1

theorem Leads.attends {w : Awaited} {act : SessionM α}
    (ha : Leads (.awaiting w w.pids) (.awaiting w []) Q act) : Attends w Q act :=
  fun m hm => ⟨_, .inl rfl, ha m hm⟩

theorem traced_withForeground {w : Awaited} {act : SessionM α} (runs : w.Runs act)
    (number : 0 < w.pid) (ha : Attends w Q act) :
    Traced .busy Q (withForeground w.pid act) := by
  intro m hm
  obtain ⟨st, ended, ms, during, after, given⟩ := ha (m.watching (some w.pid)) ⟨hm.next, hm.jobs⟩
  exact ⟨_, .watch runs number during ended, ⟨after.next, after.jobs⟩, given⟩

/-- A job that is brought back is waited for, unless it can no longer be made to go on. -/
theorem attends_awaitJob (job : Job) :
    Attends (.job job) (fun r => ∀ status, r = .error status → IsStatus status)
      (JobControl.awaitJob job) := by
  intro m hm
  have waiting : (Stance.awaiting (.job job) [job.pid]).Works := .inr (.inl ⟨_, _, _, rfl⟩)
  have resumes : Traced (.awaiting (.job job) [job.pid]) (fun _ => True)
      (JobControl.resume job) := by
    have h := ofFiles_traced waiting
    exact h.ite (h.andThen h.shell fun _ => traced_kill waiting _ _ _) (h.pure trivial)
  obtain ⟨ms, tried, hm', -⟩ := resumes m hm
  unfold JobControl.awaitJob
  cases resumed : (JobControl.resume job m).1 with
  | error e =>
    have works : (Stance.lost job).Works := .inr (.inr (.inr ⟨job, rfl⟩))
    have h := ofFiles_traced works
    have said (text : String) : Traced (.lost job)
        (fun r : Except Int (Except Errno Outcome) => ∀ status, r = .error status → IsStatus status)
        (do return .error (← SessionM.fail "fg" text 1)) := by
      refine h.bind (h.fail isStatus_one "fg" text) fun status given => h.pure fun s same => ?_
      cases same
      exact given
    obtain ⟨later, told, after⟩ := said (if e = .noProcess then "job has terminated" else e.describe)
      _ hm'
    refine ⟨.lost job, .inr ⟨job, rfl, rfl⟩, ms ++ later, ?_⟩
    rw [Engine.bind_apply, resumed]
    exact ⟨.bind (.lose tried resumed) (by rw [resumed]; exact told), after⟩
  | ok =>
    obtain ⟨later, waited, after, -⟩ := leads_waitFor (.job job) job.pid [] _ hm'
    refine ⟨.awaiting (.job job) [], .inl rfl, ms ++ later, ?_⟩
    rw [Engine.bind_apply, resumed]
    refine ⟨.bind tried (by rw [resumed]; exact .give waited Except.ok), after, ?_⟩
    rintro status ⟨⟩

theorem traced_bringBack {job : Job} (number : 0 < job.pid) :
    Traced .busy IsStatus (JobControl.bringBack job) := by
  have works := works_busy
  have h := ofFiles_traced works
  rw [JobControl.bringBack_eq]
  refine h.andThen (h.say _) fun _ => h.andThen h.flush fun _ => ?_
  refine h.andThen (traced_modifyJobs works fun t ht => ht.removeByPid _) fun _ => ?_
  have watched := traced_withForeground (.job job) number (attends_awaitJob job)
  refine h.bind watched fun outcome given => ?_
  cases outcome with
  | error status => exact h.pure (given status rfl)
  | ok waited =>
    cases waited with
    | error e => exact h.fail isStatus_one _ _
    | ok outcome => exact traced_settle works number _ _

theorem traced_runExternal (c : Command) : Traced .busy (fun _ => True) (runExternal c).run := by
  have works := works_busy
  have h := ofFiles_traced works
  refine h.tryThen (h.prepareImage _) fun image => ?_
  refine h.tryThen (h.tryOption h.openInput) fun input => ?_
  refine h.tryThen (h.tryOption h.openOutput) fun output => h.liftThen h.flush fun _ => ?_
  refine h.liftThen h.shell fun own => h.liftBind (traced_spawn works false) fun pid other => ?_
  have awaiting (stdio : Stdio) : Traced .busy (fun _ => True) (withForeground pid do
      runImage pid stdio (← shell).unwritten image
      waitFor pid) := by
    refine traced_withForeground (w := .program pid) (.program pid stdio image) other.1 ?_
    have waiting : (Stance.awaiting (.program pid) [pid]).Works := .inr (.inl ⟨_, _, _, rfl⟩)
    refine Leads.attends ((traced_shell waiting).bind fun sh _ => ?_)
    refine (traced_runImage waiting pid stdio _ image).bind fun _ _ => ?_
    exact leads_waitFor (.program pid) pid []
  refine h.liftThen (awaiting _) fun outcome => ?_
  cases outcome with
  | error e => exact h.tryThrow
  | ok outcome => exact h.lift (traced_settle works other.1 _ outcome)

/-- With a pipeline in the foreground, the session does something before and after each wait. -/
theorem works_pipeline (all pids : List Int) : (Stance.awaiting (.pipeline all) pids).Works := by
  cases pids with
  | nil => exact .inr (.inr (.inl ⟨all, rfl⟩))
  | cons pid rest => exact .inr (.inl ⟨_, pid, rest, rfl⟩)

section
variable {source : Builtin.Sourcing}
  (hb : ∀ (b : Builtin) (argv : List String), Traced .busy (fun _ => True) (b.run source argv))
include hb

theorem traced_runStage (works : st.Works) {pid : Int} (other : pid ≠ firstPid) (stdio : Stdio)
    (c : Command) (stage : Stage) :
    Traced st (fun _ => True) (runStage source pid stdio c stage) := by
  have shell := traced_shell works
  cases stage with
  | assignment =>
    exact shell.bind fun sh numbered => traced_runCopy works other { sh with stdio } numbered
      ((ofFiles_traced works_busy).pure trivial)
  | builtin b =>
    exact shell.bind fun sh numbered =>
      traced_runCopy works other { sh with stdio } numbered (hb b c.argv)
  | program image => exact shell.bind fun sh _ => traced_runImage works pid stdio _ image

theorem traced_runStages (works : st.Works) (files : Nat → Stdio) (index : Nat)
    {stages : List (Int × Command × Stage)} (others : ∀ s ∈ stages, s.1 ≠ firstPid) :
    Traced st (fun _ => True) (runStages (fun _ => source) files index stages) := by
  induction stages generalizing index with
  | nil => exact traced_pure works trivial
  | cons s stages ih =>
    obtain ⟨other, later⟩ := List.forall_mem_cons.1 others
    exact (traced_runStage hb works other _ _ _).bind fun _ _ => ih (index + 1) later

omit hb in
/-- The processes of a pipeline are waited for one after the other, and each is seen to at once. -/
theorem leads_waitForStages (all : List Int) {stages : List (Int × Command × Stage)}
    (numbers : ∀ s ∈ stages, 0 < s.1) :
    Leads (.awaiting (.pipeline all) (stages.map (·.1))) (.awaiting (.pipeline all) [])
      (fun _ => True) (waitForStages stages) := by
  induction stages with
  | nil => exact traced_pure (works_pipeline all []) trivial
  | cons s stages ih =>
    obtain ⟨number, later⟩ := List.forall_mem_cons.1 numbers
    have works := works_pipeline all (stages.map (·.1))
    have others (status : Int) :
        Leads (.awaiting (.pipeline all) (stages.map (·.1))) (.awaiting (.pipeline all) [])
          (fun _ => True) (do return status :: (← waitForStages stages)) :=
      (ih later).bind fun _ _ => traced_pure (works_pipeline all []) trivial
    refine (leads_waitFor (.pipeline all) s.1 (stages.map (·.1))).bind fun outcome _ => ?_
    cases outcome with
    | error e => exact (traced_pure (Q := fun _ => True) works trivial).bind fun _ _ => others _
    | ok outcome => exact (traced_settle works number _ outcome).bind fun status _ => others status

omit hb in
/-- The last process of a pipeline is among its processes. -/
theorem pid_pipeline {pids : List Int} (some : pids ≠ []) : (Awaited.pipeline pids).pid ∈ pids := by
  rw [Awaited.pid, List.getLast?_eq_getLast_of_ne_nil some]
  exact List.getLast_mem some

theorem traced_runBetween {stages : List (Command × Stage)} (some : stages ≠ [])
    (ends : Option Handle × Option Handle) :
    Traced .busy (fun _ => True) (runBetween (fun _ => source) stages ends).run := by
  have works := works_busy
  have h := ofFiles_traced works
  refine h.liftThen (h.openPipes _) fun pipes => h.liftThen h.flush fun _ => ?_
  have started := h.tryForall (S := fun t : Int × Command × Stage => Host.Other t.1)
    (f := fun s => do return (← spawn false, s)) stages fun s => by
      refine h.liftBind (traced_spawn works false) fun pid other => h.pure fun t same => ?_
      cases same
      exact other
  refine h.tryBind started (fun tasks all => h.liftThen h.shell fun own => ?_) fun _ => trivial
  obtain ⟨length, others⟩ := all tasks rfl
  -- There is a process for each stage, so that there is a last one.
  have running : tasks.map (·.1) ≠ [] := by
    intro none
    rw [List.map_eq_nil_iff.1 none] at length
    exact some (List.length_eq_zero_iff.1 length.symm)
  have number : 0 < (Awaited.pipeline (tasks.map (·.1))).pid := by
    obtain ⟨t, ht, same⟩ := List.mem_map.1 (pid_pipeline running)
    exact same ▸ (others t ht).1
  have last : (tasks.getLast?.map (·.1)).getD 0 = (Awaited.pipeline (tasks.map (·.1))).pid := by
    rw [Awaited.pid, List.getLast?_map]
  have awaiting (files : Nat → Stdio) :
      Traced .busy (fun _ => True) (withForeground ((tasks.getLast?.map (·.1)).getD 0) do
        runStages (fun _ => source) files 0 tasks
        waitForStages tasks) := by
    rw [last]
    refine traced_withForeground (.pipeline (fun _ => source) files tasks) number ?_
    refine Leads.attends (Leads.bind (traced_runStages hb (works_pipeline _ _) files 0
      fun t ht => (others t ht).2) fun _ _ => ?_)
    exact leads_waitForStages _ fun t ht => (others t ht).1
  exact h.liftThen (awaiting _) fun statuses => h.liftThen h.shell fun _ => h.tryPure

theorem traced_runPipeline {p : Pipeline} (some : p ≠ []) :
    Traced .busy (fun _ => True) (runPipeline source p).run := by
  have h := ofFiles_traced works_busy
  have planned := h.tryForall (S := fun _ => True) (f := fun c => do return (c, ← planStage c)) p
    fun c => h.mono (h.tryThen (h.planStage c) fun _ => h.tryPure) fun _ _ _ _ => trivial
  refine h.tryBind planned (fun stages each => ?_) fun _ => trivial
  refine h.tryThen (h.openEnds p) fun ends => traced_runBetween hb ?_ ends
  rintro rfl
  exact some (List.length_eq_zero_iff.1 (each [] rfl).1.symm)

end

/-! ### Lines -/

theorem traced_runBuiltin {source : Builtin.Sourcing} {b : Builtin} {c : Command}
    (hb : Traced .busy (fun _ => True) (b.run source c.argv)) :
    Traced .busy (fun _ => True) (runBuiltin source b c).run := by
  have h := ofFiles_traced works_busy
  have redirected (f : Stdio → Stdio) : Traced .busy (fun _ => True)
      (modifyShell fun sh => { sh with stdio := f sh.stdio }) :=
    traced_modifyShell works_busy fun _ => ⟨rfl, rfl⟩
  refine h.liftThen h.shell fun sh => h.tryThen (h.redirectForBuiltin redirected c _) fun _ => ?_
  refine h.liftThen hb fun status => h.liftThen h.flush fun _ => h.ite ?_ h.tryPure
  exact h.liftThen (h.restore redirected _) fun _ => h.tryPure

theorem traced_runApart (pid : Int) (input : Handle) (output : Option Handle) (copy : Shell)
    {run : Stdio → SessionM Unit} (hr : ∀ stdio, Traced .busy (fun _ => True) (run stdio)) :
    Traced .busy (fun _ => True) (runApart pid input output copy run) := by
  have h := ofFiles_traced works_busy
  refine h.andThen (h.onHost fun _ => rfl) fun out => ?_
  refine h.andThen (h.onHost fun _ => rfl) fun err => ?_
  exact h.andThen (hr _) fun _ => traced_update works_busy pid fun s p => p.becomes_held _

section
variable {source : Builtin.Sourcing} {ts : List Token}
  (hc : Traced .busy (fun _ => True) (executeChain source ts))
include hc

theorem traced_runLaunch {copy : Shell} (numbered : copy.jobs.Numbered) {pid : Int}
    (other : pid ≠ firstPid) (launch : Launch) (stdio : Stdio) :
    Traced .busy (fun _ => True)
      (runLaunch (fun _ => executeChain source ts) pid copy launch stdio) := by
  cases launch with
  | program c image => exact traced_runImage works_busy pid stdio _ image
  | copy =>
    exact traced_runCopy works_busy other { copy with stdio, interactive := false } numbered hc

theorem traced_startBackground : Traced .busy (fun _ => True) (startBackground source ts).run := by
  have h := ofFiles_traced works_busy
  refine h.tryThen (h.planBackground ts) fun launch => ?_
  refine h.tryThen (h.openForLaunch launch) fun files => h.liftThen h.flush fun _ => ?_
  refine h.liftBind (traced_shell works_busy) fun copy numbered => ?_
  refine h.liftBind (traced_spawn works_busy true) fun pid other => ?_
  refine h.liftThen (traced_modifyJobs works_busy fun t ht => ht.add other.1 _ _) fun _ => ?_
  refine h.liftThen (traced_modifyShell works_busy fun _ => ⟨rfl, rfl⟩) fun _ => ?_
  refine h.liftThen (h.say _) fun _ => ?_
  exact h.lift (traced_runApart pid _ _ copy (traced_runLaunch hc numbered other.2 launch))

end

/-- Lines can be followed from moment to moment. -/
theorem ofLines_traced : OfLines (fun {α} (Q : α → Prop) (x : SessionM α) => Traced .busy Q x)
    Machine.Numbered where
  toOfSteps := (ofFiles_traced works_busy).toOfSteps
  aliases _ := traced_modifyShell works_busy fun _ => ⟨rfl, rfl⟩
  set _ _ := traced_modifyShell works_busy fun _ => ⟨rfl, rfl⟩
  exported _ _ := traced_modifyShell works_busy fun _ => ⟨rfl, rfl⟩
  unset _ := traced_modifyShell works_busy fun _ => ⟨rfl, rfl⟩
  moved _ _ := traced_modifyShell works_busy fun _ => ⟨rfl, rfl⟩
  left _ := traced_modifyShell works_busy fun _ => ⟨rfl, rfl⟩
  kill := traced_kill works_busy
  struck signal := (ofFiles_traced works_busy).halt (.struck signal)
  forgotten _ := traced_modifyJobs works_busy fun _ ht => ht.removeByPid _
  resumed _ := traced_modifyJobs works_busy fun _ ht => ht.setStatus _ _
  bringBack hm selected := traced_bringBack (hm.jobs _ (JobControl.mem_of_select selected))
  assigned _ := traced_modifyShell works_busy fun _ => ⟨rfl, rfl⟩
  asked _ := traced_modifyShell works_busy fun _ => ⟨rfl, rfl⟩
  depth _ := traced_modifyShell works_busy fun _ => ⟨rfl, rfl⟩
  buildCommand _ := (ofFiles_traced works_busy).build _
  buildPipeline _ := (ofFiles_traced works_busy).build _
  runBuiltin hb := traced_runBuiltin hb
  runExternal := traced_runExternal
  runPipeline some hb := traced_runPipeline hb some
  startBackground hc := traced_startBackground hc
  stuck _ _ := (ofFiles_traced works_busy).halt _

/-! ### Sessions -/

/-- Between lines, a line can be run. -/
theorem Leads.idle {x : SessionM α} (hx : Traced .busy Q x) : Traced .idle Q x := by
  intro m hm
  obtain ⟨ms, run, done⟩ := hx m hm
  exact ⟨ms, .line run, done⟩

theorem traced_reapJobs : Traced .idle (fun _ => True) reapJobs := by
  have asked : Traced .idle (fun _ => True) askJobs := by
    intro m hm
    have retains : m.host.toProcessTable.Retains
        (JobTable.reapJobs m.shell.pid m.shell.jobs.jobs m.host.toProcessTable).2.2 :=
      .reapJobs _ _
    exact ⟨_, .ask m, ⟨Int.lt_of_lt_of_le hm.next retains.next,
      JobTable.numbered_reapJobs _ hm.jobs _⟩, trivial⟩
  rw [reapJobs_eq]
  exact asked.bind fun notices _ => (ofFiles_traced works_idle).announce notices

open CommandLine

theorem traced_perform {step : Transcript.Step} (own : ∀ job, step ≠ .steal job) :
    Traced .idle (fun _ => True) (Transcript.perform step) := by
  by_cases asks : step = .reap
  · rw [asks]
    exact (ofFiles_traced works_idle).thenReturn traced_reapJobs trivial
  · exact (ofLines_traced.perform step (fun same => absurd same asks)
      fun job same => absurd same (own job)).idle

end SessionM

/-! ### States of a session -/

namespace Machine

variable {start m : Machine}

/-- The states that a session comes to by steps of all kinds, whatever befalls its processes before
each of them and meanwhile. -/
inductive ComesTo (start : Machine) : Machine → Prop where
  | start : ComesTo start start
  | befall {m : Machine} (reached : ComesTo start m) (e : Event) : ComesTo start (m.befall e)
  | step {m : Machine} (reached : ComesTo start m) (c : Circumstances) (step : Transcript.Step) :
    ComesTo start (Transcript.perform step (m.under c)).2

/-- Numbers are in order, and no process is marked. -/
structure Unmarked (m : Machine) : Prop where
  numbered : m.Numbered
  mark : m.shell.foreground = none

namespace Unmarked

theorem under (h : m.Unmarked) (c : Circumstances) : (m.under c).Unmarked :=
  ⟨⟨h.numbered.next, h.numbered.jobs⟩, h.mark⟩

theorem befall (h : m.Unmarked) (e : Event) : (m.befall e).Unmarked := by
  have retains : m.host.toProcessTable.Retains (m.host.applyEvent e) := .applyEvent e
  exact ⟨h.numbered.amid retains.next, h.mark⟩

/-- What can be followed leaves no mark behind. -/
theorem after (h : m.Unmarked) {α : Type} {x : SessionM α}
    (hx : SessionM.Traced .idle (fun _ => True) x) : (x m).2.Unmarked := by
  obtain ⟨ms, trace, numbered, -⟩ := hx m h.numbered
  exact ⟨numbered, trace.foreground h.mark⟩

theorem perform (h : m.Unmarked) (step : Transcript.Step) :
    (Transcript.perform step m).2.Unmarked := by
  by_cases stolen : ∃ job, step = .steal job
  · obtain ⟨job, rfl⟩ := stolen
    rw [perform_steal]
    split
    · exact h
    · exact h.befall _
  · exact h.after (traced_perform fun job same => stolen ⟨job, same⟩)

theorem foregroundPid (h : m.Unmarked) : (foregroundPid m).1 = none := by
  change m.shell.foreground.filter (· ≠ 0) = none
  rw [h.mark]
  rfl

end Unmarked

theorem ComesTo.unmarked (fresh : start.Unmarked) (reached : start.ComesTo m) : m.Unmarked := by
  induction reached with
  | start => exact fresh
  | befall _ e ih => exact ih.befall e
  | step _ c step ih => exact (ih.under c).perform step

/-- A run that starts between lines can be followed from moment to moment, the mark is where it
belongs at each of these moments, and there is none afterwards. -/
structure Watches (m : Machine) {α : Type} (x : SessionM α) : Prop where
  traced : ∃ ms, Trace .idle .idle x m ms
  disciplined : ∀ ms, Trace .idle .idle x m ms → ∀ t ∈ ms, t.Disciplined
  cleared : (foregroundPid (x m).2).1 = none

theorem Unmarked.watches (h : m.Unmarked) {α : Type} {x : SessionM α}
    (hx : SessionM.Traced .idle (fun _ => True) x) : m.Watches x where
  traced := (hx m h.numbered).imp fun _ done => done.1
  disciplined _ trace := trace.disciplined trivial h.mark
  cleared := (h.after hx).foregroundPid

end Machine
end JobShell
