import JobShell.Host.World
import JobShell.Proofs.ShellChanges

/-! Commands that run in processes of their own leave the session as it is: programs, pipelines of
several stages and whatever runs in the background. What the session learns of them is a status,
the number of a process in the background, and new jobs. -/
namespace JobShell

/-- More jobs have been registered in a table. -/
inductive JobTable.Extends (t : JobTable) : JobTable → Prop where
  | refl : Extends t t
  | add {s : JobTable} (pid : Int) (command : String) (status : Job.Status) (h : Extends t s) :
    Extends t (s.add pid command status)

theorem JobTable.Extends.trans {t s r : JobTable} (h : t.Extends s) (h' : s.Extends r) :
    t.Extends r := by
  induction h' with
  | refl => exact h
  | add pid command status _ ih => exact .add pid command status ih

namespace Shell

/-- A shell once a status has been taken over. -/
def withStatus (sh : Shell) (status : Int) : Shell := { sh with vars := { sh.vars with status } }

/-- Nothing has happened to a shell but that it has printed something. -/
def Printed (before after : Shell) : Prop := ∃ unwritten, after = { before with unwritten }

/-- A shell has done nothing itself but wait for processes: jobs may have been added, and it may
have printed notices about them. -/
def Beside (before after : Shell) : Prop :=
  ∃ jobs unwritten foreground, before.jobs.Extends jobs ∧
    after = { before with jobs, unwritten, foreground }

theorem Printed.withStatus {before after : Shell} (h : before.Printed after) (status : Int) :
    (before.withStatus status).Printed (after.withStatus status) := by
  obtain ⟨u, rfl⟩ := h
  exact ⟨u, rfl⟩

theorem Beside.withStatus {before after : Shell} (h : before.Beside after) (status : Int) :
    (before.withStatus status).Beside (after.withStatus status) := by
  obtain ⟨jobs, u, p, grown, rfl⟩ := h
  exact ⟨jobs, u, p, grown, rfl⟩

end Shell

open Shell (Printed Beside)

namespace SessionM

theorem tolerant_printed : Tolerant Printed where
  refl sh := ⟨sh.unwritten, rfl⟩
  trans := by
    rintro a _ _ ⟨_, rfl⟩ ⟨u, rfl⟩
    exact ⟨u, rfl⟩
  printed _ u := ⟨u, rfl⟩

theorem tolerant_beside : Tolerant Beside where
  refl sh := ⟨sh.jobs, sh.unwritten, sh.foreground, .refl, rfl⟩
  trans := by
    rintro a _ _ ⟨_, _, _, grown, rfl⟩ ⟨jobs, u, p, more, rfl⟩
    exact ⟨jobs, u, p, grown.trans more, rfl⟩
  printed sh u := ⟨sh.jobs, u, sh.foreground, .refl, rfl⟩

theorem beside_foreground (sh : Shell) (p : Option Int) : Beside sh { sh with foreground := p } :=
  ⟨sh.jobs, sh.unwritten, p, .refl, rfl⟩

theorem beside_add (sh : Shell) (pid : Int) (c : String) (s : Job.Status) :
    Beside sh { sh with jobs := sh.jobs.add pid c s } :=
  ⟨_, sh.unwritten, sh.foreground, .add pid c s .refl, rfl⟩

/-! ### In the foreground -/

theorem does_runExternal (c : Command) : Does Beside (Finds IsStatus) (runExternal c).run := by
  have h := tolerant_beside
  refine h.tryAndThen (h.prepareImage _) fun image => ?_
  refine h.tryAndThen (h.tryOption h.openInput) fun input => ?_
  refine h.tryAndThen (h.tryOption h.openOutput) fun output => ?_
  refine h.liftThen h.flush fun _ => h.liftThen h.shell fun sh => ?_
  refine h.liftThen (h.spawn false) fun pid => h.liftThen ?_ ?_
  · refine h.withForeground beside_foreground pid (h.andThen h.shell fun sh => ?_)
    exact h.andThen (h.runImage _ _ _ _) fun _ => h.waitFor pid
  · rintro (e | outcome)
    · exact h.tryThrow _
    · exact (h.settle beside_add pid _ outcome).mono fun _ status => status

theorem does_waitForStages (stages : List (Int × Command × Stage)) :
    Does Beside (∀ s ∈ ·, IsStatus s) (waitForStages stages) := by
  have h := tolerant_beside
  induction stages with
  | nil => exact h.pure nofun
  | cons s rest ih =>
    obtain ⟨pid, c, stage⟩ := s
    have all {status : Int} (hs : IsStatus status) : Does Beside (∀ s ∈ ·, IsStatus s) (do
        return status :: (← waitForStages rest)) :=
      h.bind ih fun statuses hr => h.pure (List.forall_mem_cons.2 ⟨hs, hr⟩)
    refine h.andThen (h.waitFor pid) ?_
    rintro (e | outcome)
    · exact all (by decide)
    · exact h.bind (h.settle beside_add pid _ outcome) fun status hs => all hs

theorem isStatus_status {statuses : List Int} (h : ∀ s ∈ statuses, IsStatus s)
    (failuresShow : Bool) : IsStatus (Pipeline.status failuresShow statuses) := by
  have none : IsStatus 0 := by decide
  unfold Pipeline.status
  split
  · cases found : statuses.reverse.find? (· ≠ 0) with
    | none => exact none
    | some s => exact h s (List.mem_reverse.1 (List.mem_of_find?_eq_some found))
  · rw [List.getLastD_eq_getLast?]
    cases found : statuses.getLast? with
    | none => exact none
    | some s => exact h s (List.mem_of_getLast? found)

theorem does_runPipeline (source : Builtin.Sourcing) (p : Pipeline) :
    Does Beside (Finds IsStatus) (runPipeline source p).run := by
  have h := tolerant_beside
  have planned (c : Command) :
      Alters Beside (do return (c, ← planStage c) : AttemptM (Command × Stage)).run :=
    (h.tryAndThen (Q := fun _ => True) (h.planStage c) fun _ => h.tryPure trivial).alters
  have spawned (s : Command × Stage) :
      Alters Beside (do return (← spawn false, s) : AttemptM (Int × Command × Stage)).run :=
    (h.liftThen (Q := fun _ => True) (h.spawn false) fun _ => h.tryPure trivial).alters
  refine h.tryAndThen (h.tryMapM planned) fun stages => h.tryAndThen (h.openEnds p) fun ends => ?_
  refine h.liftThen (h.openPipes _) fun pipes => h.liftThen h.flush fun _ => ?_
  refine h.tryAndThen (h.tryMapM spawned) fun stages => h.liftThen h.shell fun sh => ?_
  refine h.liftBind (P := (∀ s ∈ ·, IsStatus s)) (h.withForeground beside_foreground _ ?_) ?_
  · exact h.andThen (h.runStages _ _ _ _) fun _ => does_waitForStages stages
  · exact fun statuses hs => h.liftThen h.shell fun sh => h.tryPure (isStatus_status hs _)

theorem build_run {α : Type} (act : Surroundings → BuildM α) (m : Machine) :
    (build act).run m = ((act m.shell.surroundings m.host.tree).1,
      { m with host := { m.host with tree := (act m.shell.surroundings m.host.tree).2 } }) := by
  have start : (liftM (get : SessionM Machine) : AttemptM Machine).run m = (.ok m, m) := rfl
  rw [build, ExceptT.run_bind, Engine.bind_apply, start]
  dsimp only
  rcases act m.shell.surroundings m.host.tree with ⟨e | a, tree⟩ <;> rfl

end SessionM

/-- Whether a pipeline or command is run in processes of its own: it has several stages, or the name
of a program if any. -/
def Machine.Forks (m : Machine) (ts : List Token) : Prop :=
  (∃ t ∈ ts, t.kind = .pipe) ∨
    ∀ c, (Command.build m.shell.surroundings ts m.host.tree).1 = .ok c →
      c.assignment? = none ∧ Builtin.ofName? c.name = none

namespace SessionM

/-- A failure is reported on top of what else has happened. -/
theorem reported_at {R : Shell → Shell → Prop} (h : Tolerant R) {x : AttemptM Int} {m : Machine}
    (hx : R m.shell (x.run m).2.shell) :
    R m.shell ((do
      match ← x.run with
      | .ok status => return status
      | .error e => report e : SessionM Int) m).2.shell := by
  rw [Engine.bind_apply]
  cases (x.run m).1 with
  | ok status => exact hx
  | error e => exact h.trans hx (h.report e.isStatus (x.run m).2).1

theorem beside_executePipeline (source : Builtin.Sourcing) {m : Machine} {ts : List Token}
    (forks : m.Forks ts) : m.shell.Beside (executePipeline source ts m).2.shell := by
  have h := tolerant_beside
  rw [executePipeline_eq]
  refine reported_at h ?_
  split
  · exact (h.tryAndThen (h.build _) (does_runPipeline source) m).1
  · next single =>
    refine (h.tryBindAt (Q := IsStatus) (h.build _) fun c built => ?_).1
    rw [build_run] at built
    obtain ⟨t, ht, pipe⟩ | program := forks
    · exact absurd (List.any_eq_true.2 ⟨t, ht, decide_eq_true pipe⟩) single
    obtain ⟨assigns, builtin⟩ := program c built
    rw [runCommand_eq, assigns, builtin]
    exact does_runExternal c

end SessionM

/-! ### In the background -/

/-- A shell after an attempt at starting a list in the background: with a new job, which is the
latest process in the background, or else as before. -/
def Shell.Started (before : Shell) (title : String) : Except ShellError Unit → Shell → Prop
  | .ok (), after => ∃ pid unwritten, after = { before with
      vars := { before.vars with background := some pid }
      jobs := before.jobs.add pid title .running
      unwritten }
  | .error _, after => before.Printed after

theorem Shell.Started.withStatus {before after : Shell} {title : String}
    {result : Except ShellError Unit} (h : before.Started title result after) (status : Int) :
    (before.withStatus status).Started title result (after.withStatus status) := by
  cases result with
  | ok =>
    obtain ⟨pid, u, rfl⟩ := h
    exact ⟨pid, u, rfl⟩
  | error e => exact Printed.withStatus h status

namespace SessionM

/-- An attempt at starting something, which may be made after some printing. -/
def Starts (title : String) (x : AttemptM Unit) : Prop :=
  ∀ (before : Shell) (m : Machine), before.Printed m.shell →
    before.Started title (x.run m).1 (x.run m).2.shell

variable {α : Type} {title : String}

theorem Starts.tryThen {x : AttemptM α} {f : α → AttemptM Unit} (hx : Alters Printed x.run)
    (hf : ∀ a, Starts title (f a)) : Starts title (x >>= f) := by
  intro before m h
  have first := tolerant_printed.trans h (hx m).1
  rw [ExceptT.run_bind, Engine.bind_apply]
  cases found : (x.run m).1 with
  | error e => exact first
  | ok a => exact hf a before _ first

theorem Starts.liftThen {x : SessionM α} {f : α → AttemptM Unit} (hx : Alters Printed x)
    (hf : ∀ a, Starts title (f a)) : Starts title ((liftM x : AttemptM α) >>= f) :=
  fun before m h => hf _ before _ (tolerant_printed.trans h (hx m).1)

theorem starts_startBackground (source : Builtin.Sourcing) (ts : List Token) :
    Starts (Token.render ts) (startBackground source ts) := by
  have h := tolerant_printed
  refine .tryThen (h.planBackground ts) fun launch => ?_
  refine .tryThen (h.openForLaunch launch) fun files => .liftThen h.flush fun _ => ?_
  refine .liftThen h.shell fun copy => .liftThen (h.spawn true) fun pid => ?_
  -- From here on nothing fails.
  intro before m hm
  obtain ⟨u, printed⟩ := hm
  let registered : Shell := { m.shell with
    vars := { m.shell.vars with background := some pid }
    jobs := m.shell.jobs.add pid (Token.render ts) .running }
  have rest : Alters Printed (do
      say ["[", toString copy.jobs.next, "] ", toString pid, "\n"]
      runApart pid files.1 files.2 copy
        (runLaunch (fun _ => executeChain source ts) pid copy launch)) :=
    h.andThen (h.say _) fun _ => h.runApart _ _ _ _ fun _ => h.runLaunch _ _ _ _ _
  obtain ⟨v, after⟩ := (rest { m with shell := registered }).1
  refine ⟨pid, v, after.trans ?_⟩
  simp only [registered, printed]

end SessionM

theorem Chain.ofTokens_of_rest {ts : List Token} (h : (ofTokens ts).rest = []) :
    ofTokens ts = ⟨ts, []⟩ := by
  induction ts with
  | nil => rfl
  | cons t ts ih =>
    rw [ofTokens] at h ⊢
    split at h
    · cases h
    · rw [ih h]

namespace SessionM

theorem executeSegment_single (source : Builtin.Sourcing) {ts : List Token} {m : Machine}
    (single : (Chain.ofTokens ts).rest = []) :
    (executeSegment source ⟨ts, false⟩ m).2.shell =
      (executePipeline source ts m).2.shell.withStatus (executePipeline source ts m).1 := by
  rw [executeSegment, Engine.runSegment, Chain.ofTokens_of_rest single]
  rfl

theorem executeSegment_background (source : Builtin.Sourcing) (ts : List Token) (m : Machine) :
    (executeSegment source ⟨ts, true⟩ m).2.shell =
      match (startBackground source ts).run m with
      | (.ok (), m') => m'.shell.withStatus 0
      | (.error e, m') => (report e m').2.shell.withStatus e.status := by
  change ((startBackground source ts).run >>= _) m |>.2.shell = _
  rw [Engine.bind_apply]
  rcases (startBackground source ts).run m with ⟨e | ⟨⟩, m'⟩ <;> rfl

/-- A pipeline or command that runs in processes of its own leaves the session as it is, but for new
jobs and the status that a chain of commands takes over. So does a segment that is started in the
background, of whatever it consists: it becomes one job and the latest process in the background, or
it cannot be started, and then there is neither. -/
theorem forked_commands_leave_session (source : Builtin.Sourcing) (m : Machine) (ts : List Token) :
    (m.Forks ts → m.shell.Beside (executePipeline source ts m).2.shell) ∧
    (m.Forks ts → (Chain.ofTokens ts).rest = [] →
      ∃ status, (m.shell.withStatus status).Beside (executeSegment source ⟨ts, false⟩ m).2.shell) ∧
    let started := ((startBackground source ts).run m).1
    let status := match started with
      | .ok () => 0
      | .error e => e.status
    (m.shell.withStatus status).Started (Token.render ts) started
      (executeSegment source ⟨ts, true⟩ m).2.shell := by
  refine ⟨beside_executePipeline source, fun forks single => ?_, ?_⟩
  · refine ⟨(executePipeline source ts m).1, ?_⟩
    rw [executeSegment_single source single]
    exact (beside_executePipeline source forks).withStatus _
  · have attempt := starts_startBackground source ts m.shell m (tolerant_printed.refl m.shell)
    rw [executeSegment_background]
    revert attempt
    rcases (startBackground source ts).run m with ⟨e | ⟨⟩, m'⟩ <;> intro attempt
    · have told := (tolerant_printed.report e.isStatus m').1
      exact (tolerant_printed.trans attempt told).withStatus e.status
    · exact attempt.withStatus 0

/-- Leaving and changing the directory in a pipeline: the session goes on where it was. -/
theorem forked_commands_leave_session_exit :
    let m := Machine.start World.withDevices FileTree.root .null [] .default
    let ts : List Token := [⟨.word, "exit", false⟩, ⟨.word, "3", false⟩, ⟨.pipe, "|", false⟩,
      ⟨.word, "cd", false⟩, ⟨.word, "/dev", false⟩]
    let after := (executeSegment sourceFile ⟨ts, false⟩ m).2.shell
    m.Forks ts ∧ (Chain.ofTokens ts).rest = [] ∧
      after.exitRequest = none ∧ after.directory = m.shell.directory := by
  intro m ts after
  have forks : m.Forks ts := .inl ⟨⟨.pipe, "|", false⟩, by simp [ts], rfl⟩
  have single : (Chain.ofTokens ts).rest = [] := rfl
  obtain ⟨-, beside, -⟩ := forked_commands_leave_session sourceFile m ts
  obtain ⟨status, jobs, u, p, -, same⟩ := beside forks single
  refine ⟨forks, single, ?_, ?_⟩
  · exact (congrArg Shell.exitRequest same).trans rfl
  · exact (congrArg Shell.directory same).trans rfl

end SessionM
end JobShell
