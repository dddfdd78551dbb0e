import JobShell.Proofs.ForkedCommands
import JobShell.Proofs.PipelineFlow
import JobShell.Proofs.ScopedFiles

/-! Pipelines as a whole: their stages are planned and given files, run, and are waited for, and the
status of the pipeline is made of theirs. -/
namespace JobShell

open Host (Course)

/-! ### Waiting -/

/-- A stage of a pipeline that is waited for, in some state. -/
structure Wait where
  pid : Int
  command : Command
  asked : Machine

namespace SessionM

/-- Waits for a stage of a pipeline, and makes a job of it if it has stopped. -/
def await (pid : Int) (c : Command) : SessionM Int := do
  match ← waitFor pid with
  | .ok outcome => settle pid c.display outcome
  | .error _ => pure 1

end SessionM

namespace Wait

open SessionM (waitFor await)

/-- What the shell is told. -/
def outcome (w : Wait) : Except Errno Outcome := (waitFor w.pid w.asked).1

/-- The state once the shell has done what is to be done about it. -/
def answered (w : Wait) : Machine := (await w.pid w.command w.asked).2

/-- What the stage contributes to the status of a pipeline. -/
def status (w : Wait) : Int :=
  match w.outcome with
  | .ok (.exited status) => status.toNat
  | .ok (.killed sig) | .ok (.stopped sig) => 128 + sig.number
  | .error _ => 1

def isStopped (w : Wait) : Bool :=
  match w.outcome with
  | .ok (.stopped _) => true
  | _ => false

/-- The jobs that stopped stages become, numbered from a number on. -/
def jobs (next : Nat) (waits : List Wait) : List Job :=
  ((waits.filter isStopped).zipIdx next).map fun (w, id) =>
    ⟨id, w.pid, w.command.display, .stopped⟩

end Wait

/-- Stages are waited for one after the other. -/
inductive Awaits : Machine → List Wait → Machine → Prop where
  | nil (m : Machine) : Awaits m [] m
  | cons {m m' : Machine} {w : Wait} {waits : List Wait} (asked : w.asked = m)
    (later : Awaits w.answered waits m') : Awaits m (w :: waits) m'

namespace SessionM

open Wait (isStopped status)

theorem await_apply (pid : Int) (c : Command) (m : Machine) :
    (await pid c m).1 = status ⟨pid, c, m⟩ ∧
      (await pid c m).2.shell.jobs = if isStopped ⟨pid, c, m⟩ then
        m.shell.jobs.add pid c.display .stopped else m.shell.jobs := by
  have kept : (waitFor pid m).2.shell = m.shell := rfl
  rcases told : waitFor pid m with ⟨r, m'⟩
  rw [told] at kept
  unfold await status isStopped Wait.outcome
  rw [Engine.bind_apply, told, ← kept]
  rcases r with e | outcome
  · exact ⟨rfl, rfl⟩
  · cases outcome with
    | exited | killed => exact ⟨rfl, rfl⟩
    | stopped sig =>
      let noted : Machine := { m' with shell :=
        { m'.shell with jobs := m'.shell.jobs.add pid c.display .stopped } }
      obtain ⟨unwritten, printed⟩ := (tolerant_printed.say
        ["\n[", toString m'.shell.jobs.next, "] Stopped ", c.display, "\n"] noted).1
      exact ⟨rfl, congrArg Shell.jobs printed⟩

theorem waitForStages_cons (pid : Int) (c : Command) (stage : Stage)
    (stages : List (Int × Command × Stage)) (m : Machine) :
    waitForStages ((pid, c, stage) :: stages) m =
      let rest := waitForStages stages (await pid c m).2
      ((await pid c m).1 :: rest.1, rest.2) := by
  rw [waitForStages, await, Engine.bind_apply, Engine.bind_apply]
  rcases waitFor pid m with ⟨e | outcome, m'⟩ <;> rfl

/-- Each stage is waited for once, and those that have stopped become jobs. -/
theorem waitForStages_awaits (stages : List (Int × Command × Stage)) (m : Machine) :
    ∃ waits : List Wait,
      waits.map (fun w => (w.pid, w.command)) = stages.map (fun s => (s.1, s.2.1)) ∧
      Awaits m waits (waitForStages stages m).2 ∧
      (waitForStages stages m).1 = waits.map status ∧
      (waitForStages stages m).2.shell.jobs.jobs =
        m.shell.jobs.jobs ++ Wait.jobs m.shell.jobs.next waits := by
  induction stages generalizing m with
  | nil => exact ⟨[], rfl, .nil m, rfl, (List.append_nil _).symm⟩
  | cons s stages ih =>
    obtain ⟨pid, c, stage⟩ := s
    let w : Wait := ⟨pid, c, m⟩
    obtain ⟨status, jobs⟩ := await_apply pid c m
    obtain ⟨waits, tasks, awaits, statuses, registered⟩ := ih (await pid c m).2
    rw [waitForStages_cons]
    refine ⟨w :: waits, congrArg _ tasks, .cons rfl awaits, ?_, ?_⟩
    · exact congrArg₂ _ status statuses
    · refine registered.trans ?_
      rw [jobs]
      unfold Wait.jobs
      rw [List.filter_cons]
      split
      · simp [JobTable.add, w]
      · rfl

theorem settings_waitForStages (stages : List (Int × Command × Stage)) (m : Machine) :
    (waitForStages stages m).2.shell.settings = m.shell.settings := by
  obtain ⟨_, _, _, -, beside⟩ := (does_waitForStages stages m).1
  rw [beside]

end SessionM

/-- The status of a pipeline: that of the last stage, or, if failures are to show, that of the last
one that has failed, if there is one. -/
def Pipeline.Decides (failuresShow : Bool) (statuses : List Int) (status : Int) : Prop :=
  if failuresShow then
    (status = 0 ↔ ∀ s ∈ statuses, s = 0) ∧
      (status ≠ 0 → ∃ before after, statuses = before ++ status :: after ∧ ∀ s ∈ after, s = 0)
  else statuses.getLast? = some status

theorem Pipeline.decides_status (failuresShow : Bool) {statuses : List Int} (some : statuses ≠ []) :
    Decides failuresShow statuses (status failuresShow statuses) := by
  unfold Decides status
  cases failuresShow with
  | false =>
    rw [if_neg Bool.false_ne_true, if_neg Bool.false_ne_true, List.getLastD_eq_getLast?]
    obtain ⟨s, last⟩ := Option.isSome_iff_exists.1 (List.getLast?_isSome.2 some)
    rw [last]
    rfl
  | true =>
    rw [if_pos rfl, if_pos rfl]
    cases found : statuses.reverse.find? (· ≠ 0) with
    | none =>
      have none : ∀ s ∈ statuses, s = 0 := by simpa using found
      exact ⟨⟨fun _ => none, fun _ => rfl⟩, fun failed => absurd rfl failed⟩
    | some s =>
      obtain ⟨failed, after, before, reversed, zero⟩ := List.find?_eq_some_iff_append.1 found
      have cut : statuses = before.reverse ++ s :: after.reverse := by
        rw [← List.reverse_inj, reversed]
        simp
      have nonzero : s ≠ 0 := of_decide_eq_true failed
      refine ⟨⟨fun none => absurd none nonzero, fun none => ?_⟩, fun _ => ?_⟩
      · exact absurd (none s (cut ▸ List.mem_append_right _ List.mem_cons_self)) nonzero
      · refine ⟨before.reverse, after.reverse, cut, fun r hr => ?_⟩
        simpa using zero r (List.mem_reverse.1 hr)

namespace SessionM

/-! ### Plans and files -/

theorem prepareImage_stays (argv : List String) (m : Machine) :
    ((prepareImage argv).run m).2 = m := by
  unfold prepareImage
  rw [liftBind_run]
  dsimp only
  split <;> rfl

theorem planStage_stays (c : Command) (m : Machine) : ((planStage c).run m).2 = m := by
  unfold planStage planStageBy
  split
  · rfl
  · rfl
  · have stays := prepareImage_stays c.argv m
    rcases prepared : (prepareImage c.argv).run m with ⟨e | image, m'⟩
    · rw [tryBind_of_error prepared]
      rwa [prepared] at stays
    · rw [tryBind_of_ok prepared]
      rwa [prepared] at stays

/-- What each command of a pipeline is to be run as. -/
def plan (p : Pipeline) : AttemptM (List (Command × Stage)) :=
  p.mapM fun c => do return (c, ← planStage c)

theorem plan_cases (p : Pipeline) (m : Machine) :
    (∃ e, (plan p).run m = (.error e, m) ∧ ∃ c ∈ p, (planStage c).run m = (.error e, m)) ∨
    ∃ stages, (plan p).run m = (.ok stages, m) ∧ stages.map Prod.fst = p ∧
      ∀ s ∈ stages, (planStage s.1).run m = (.ok s.2, m) := by
  unfold plan
  induction p with
  | nil => exact .inr ⟨[], rfl, rfl, List.forall_mem_nil _⟩
  | cons c p ih =>
    rw [List.mapM_cons, bind_assoc]
    have stays := planStage_stays c m
    rcases planned : (planStage c).run m with ⟨e | stage, m'⟩
    · obtain rfl : m' = m := by rwa [planned] at stays
      exact .inl ⟨e, tryBind_of_error planned _, c, List.mem_cons_self, planned⟩
    · obtain rfl : m' = m := by rwa [planned] at stays
      rw [tryBind_of_ok planned, pure_bind]
      obtain ⟨e, failed, d, hd, cause⟩ | ⟨stages, done, same, all⟩ := ih
      · exact .inl ⟨e, tryBind_of_error failed _, d, List.mem_cons_of_mem _ hd, cause⟩
      · refine .inr ⟨(c, stage) :: stages, tryBind_of_ok done _, congrArg _ same, ?_⟩
        exact List.forall_mem_cons.2 ⟨planned, all⟩

/-- Another child in the same group does not change the group of a process. -/
theorem groupOf_spawn (s : ProcessTable) (parent : Int) :
    (s.spawn parent false).2.groupOf parent = s.groupOf parent := by
  have found : (s.spawn parent false).2.process? parent = (s.process? parent).or
      (if s.freshPid = parent then
        some ⟨s.freshPid, parent, s.groupOf parent, .waiting, false, []⟩ else none) := by
    simp [ProcessTable.process?, ProcessTable.spawn, List.find?_append, List.find?_singleton]
  rw [ProcessTable.groupOf, found]
  cases known : s.process? parent with
  | some p => simp [ProcessTable.groupOf, known]
  | none =>
    have group : s.groupOf parent = parent := by rw [ProcessTable.groupOf, known]; rfl
    rw [Option.none_or, group]
    split <;> rfl

/-- A process is started for each stage, all of them children of the shell and in its group. -/
theorem spawnAll_run (stages : List (Command × Stage)) {m : Machine} (next : 0 < m.host.nextPid) :
    ∃ tasks processes, (stages.mapM fun s => do return (← spawn false, s) :
        AttemptM (List (Int × Command × Stage))).run m =
          (.ok tasks, { m with host := { m.host with toProcessTable := processes } }) ∧
      tasks.map Prod.snd = stages ∧ (∀ t ∈ tasks, 0 < t.1) ∧
      m.host.toProcessTable.Retains processes ∧
      processes.processes = m.host.processes ++ tasks.map fun t =>
        ⟨t.1, m.shell.pid, m.host.groupOf m.shell.pid, .waiting, false, []⟩ := by
  induction stages generalizing m with
  | nil => exact ⟨[], m.host.toProcessTable, rfl, rfl, List.forall_mem_nil _, .refl _, by simp⟩
  | cons s stages ih =>
    let started := m.host.toProcessTable.spawn m.shell.pid false
    let m₁ : Machine := { m with host := { m.host with toProcessTable := started.2 } }
    have spawned : (do return (← spawn false, s) : AttemptM (Int × Command × Stage)).run m =
        (.ok (started.1, s), m₁) := rfl
    have retains : m.host.toProcessTable.Retains started.2 := .spawn _ _
    obtain ⟨tasks, processes, run, same, positive, retained, all⟩ :=
      ih (m := m₁) (Int.lt_of_lt_of_le next retains.next)
    rw [List.mapM_cons, tryBind_of_ok spawned, tryBind_of_ok run]
    refine ⟨(started.1, s) :: tasks, processes, rfl, congrArg _ same, ?_,
      retains.trans retained, ?_⟩
    · exact List.forall_mem_cons.2 ⟨ProcessTable.freshPid_pos next, positive⟩
    · have group : m₁.host.groupOf m.shell.pid = m.host.groupOf m.shell.pid := groupOf_spawn _ _
      rw [all, group]
      simp [m₁, started, ProcessTable.spawn]

end SessionM

namespace Machine

/-- What a path names has been opened for reading, from its beginning on, if there is a path. -/
inductive OpensInput (m : Machine) (s : Host) : Option String → Option Handle → Prop where
  | none : OpensInput m s none none
  | some {path : String} {h : Handle} {node : NodeId} (new : m.host.opened.size ≤ h)
    (named : m.host.tree.lookup true m.shell.directory path = .ok node)
    (opened : s.opened[h]? = some ⟨node, 0, false⟩) : OpensInput m s (some path) (some h)

/-- What a path names has been opened for writing, at its end if that is asked for. -/
inductive OpensOutput (m : Machine) (s : Host) : Option Target → Option Handle → Prop where
  | none : OpensOutput m s none none
  | some {target : Target} {h : Handle} {node : NodeId} {tree : FileTree} {o : OpenFile}
    (new : m.host.opened.size ≤ h)
    (named : m.host.tree.openForWriting m.shell.directory target.path = .ok (node, tree))
    (opened : s.opened[h]? = some o) (same : o.node = node) (append : o.append = target.append) :
    OpensOutput m s (some target) (some h)

variable {A : Access} {m : Machine} {s t : Host} {path : Option String} {target : Option Target}
  {h : Option Handle}

/-- Places that have not been used are where they were. -/
theorem OpensInput.still (opens : m.OpensInput s path h)
    (still : ∀ (f : Handle) (o : OpenFile), m.host.opened.size ≤ f → s.opened[f]? = .some o →
      t.opened[f]? = .some o) : m.OpensInput t path h := by
  cases opens with
  | none => exact .none
  | some new named opened => exact .some new named (still _ _ new opened)

theorem OpensOutput.continue (opens : m.OpensOutput s target h) (continues : s.Continues t) :
    m.OpensOutput t target h := by
  cases opens with
  | none => exact .none
  | some new named opened same append =>
    obtain ⟨o', opened', same', append'⟩ := continues.opened _ _ opened
    exact .some new named opened' (same'.trans same) (append'.trans append)

/-- What has been opened may be used, as may what there was before. -/
theorem OpensInput.allowed (opens : m.OpensInput s path h) (confined : m.Confined A)
    (more : m.host.opened.size ≤ s.opened.size) :
    A.reads (h.getD m.shell.stdio.input) ∧ h.getD m.shell.stdio.input < s.opened.size := by
  cases opens with
  | none =>
    have own := confined.shell.stdio.input
    exact ⟨own.1, Nat.lt_of_lt_of_le own.2 more⟩
  | some new named opened =>
    have inside := (Array.getElem?_eq_some_iff.1 opened).1
    exact ⟨(confined.host.free (n := s.extent) new inside).reads, inside⟩

theorem OpensOutput.allowed (opens : m.OpensOutput s target h) (confined : m.Confined A)
    (more : m.host.opened.size ≤ s.opened.size) :
    A.prints (h.getD m.shell.stdio.output) ∧ h.getD m.shell.stdio.output < s.opened.size := by
  cases opens with
  | none =>
    have own := confined.shell.stdio.output
    exact ⟨own.1, Nat.lt_of_lt_of_le own.2 more⟩
  | some new named opened =>
    have inside := (Array.getElem?_eq_some_iff.1 opened).1
    exact ⟨(confined.host.free (n := s.extent) new inside).prints, inside⟩

end Machine

namespace SessionM

variable {A : Access} {m : Machine}

theorem openInputs_cases (confined : m.Confined A) (path : Option String) :
    (∃ e, (path.mapM openInput).run m = (.error e, m)) ∨
    ∃ input t, (path.mapM openInput).run m = (.ok input, { m with host := t }) ∧
      t.toProcessTable = m.host.toProcessTable ∧ t.tree = m.host.tree ∧ m.host.Silent A t ∧
      m.OpensInput t path input := by
  cases path with
  | none => exact .inr ⟨none, m.host, rfl, rfl, rfl, .of_tree (.refl _), .none⟩
  | some path =>
    obtain ⟨e, failed⟩ | ⟨node, t, named, run, silent, tree, processes, opened⟩ :=
      openInput_cases confined path
    · exact .inl ⟨e, tryBind_of_error failed _⟩
    · exact .inr ⟨_, t, tryBind_of_ok run _, processes, tree, silent,
        .some (Nat.le_refl _) named opened⟩

theorem openOutputs_cases (confined : m.Confined A) (target : Option Target) :
    (∃ e, (target.mapM openOutput).run m = (.error e, m)) ∨
    ∃ output t, (target.mapM openOutput).run m = (.ok output, { m with host := t }) ∧
      t.toProcessTable = m.host.toProcessTable ∧ m.host.Silent A t ∧
      m.OpensOutput t target output := by
  cases target with
  | none => exact .inr ⟨none, m.host, rfl, rfl, .of_tree (.refl _), .none⟩
  | some target =>
    obtain ⟨e, failed⟩ | ⟨node, tree, t, named, run, silent, processes, opened⟩ :=
      openOutput_cases confined target
    · exact .inl ⟨e, tryBind_of_error failed _⟩
    · exact .inr ⟨_, t, tryBind_of_ok run _, processes, silent,
        .some (Nat.le_refl _) named opened rfl rfl⟩

theorem openEnds_cases (confined : m.Confined A) (p : Pipeline) :
    (∃ e t, (openEnds p).run m = (.error e, { m with host := t }) ∧
      t.toProcessTable = m.host.toProcessTable) ∨
    ∃ input output t, (openEnds p).run m = (.ok (input, output), { m with host := t }) ∧
      t.toProcessTable = m.host.toProcessTable ∧ Course A m.host [] t ∧
      m.OpensInput t (p.head?.bind Command.input) input ∧
      m.OpensOutput t (p.getLast?.bind Command.target?) output := by
  unfold openEnds
  obtain ⟨e, failed⟩ | ⟨input, s, done, processes, tree, silent, opens⟩ :=
    openInputs_cases confined (p.head?.bind Command.input)
  · exact .inl ⟨e, m.host, tryBind_of_error failed _, rfl⟩
  rw [tryBind_of_ok done]
  have first : Course A m.host [] s := .of_silent silent
  have confined' : Machine.Confined A { m with host := s } :=
    ⟨first.within confined.host, confined.shell.mono (confined.host.extent_le silent.continues)⟩
  obtain ⟨e, failed⟩ | ⟨output, t, done', processes', silent', opens'⟩ :=
    openOutputs_cases confined' (p.getLast?.bind Command.target?)
  · exact .inl ⟨e, s, tryBind_of_error failed _, processes⟩
  rw [tryBind_of_ok done']
  refine .inr ⟨input, output, t, rfl, processes'.trans processes, first.trans (.of_silent silent'),
    opens.still fun f o _ => silent'.opened f o, ?_⟩
  -- The tree is still the one that the session had, and a file that is new now was so before.
  generalize p.getLast?.bind Command.target? = target at opens'
  cases opens' with
  | none => exact .none
  | some new named opened same append =>
    exact .some (Nat.le_trans silent.continues.size_le new) (tree ▸ named) opened same append

/-! ### All together -/

theorem host_flush (m : Machine) : (flush m).2.host = m.host ∨
    (flush m).2.host = m.host.attempt m.shell.stdio.output m.shell.unwritten := by
  rw [flush_apply, Host.attempt]
  split
  · exact .inl rfl
  · split
    · exact .inl rfl
    · next t written =>
      rw [written]
      exact .inr rfl

theorem runBetween_run (source : Builtin.Sourcing) {stages : List (Command × Stage)}
    (ends : Option Handle × Option Handle) {m opened : Machine}
    {tasks : List (Int × Command × Stage)}
    (spawned : (stages.mapM fun s => do return (← spawn false, s) :
      AttemptM (List (Int × Command × Stage))).run
        (flush (openPipes (stages.length - 1) opened).2).2 = (.ok tasks, m)) :
    (runBetween (fun _ => source) stages ends).run opened =
      let files := stageFiles (m.shell.stdio.redirect ends.1 ends.2)
        (openPipes (stages.length - 1) opened).1
      let last := (tasks.getLast?.map (·.1)).getD 0
      let ready : Machine := { m with shell := { m.shell with foreground := some last } }
      let told := waitForStages tasks (runStages (fun _ => source) files 0 tasks ready).2
      (.ok (Pipeline.status told.2.shell.settings.pipefail told.1),
        { told.2 with shell := { told.2.shell with foreground := none } }) := by
  unfold runBetween
  rw [liftBind_run, liftBind_run, tryBind_of_ok spawned]
  rfl

/-- Between the opening of files and the first stage, nothing happens to what has been opened. -/
theorem opened_flush {m : Machine} {h : Handle} (other : m.shell.stdio.output ≠ h) :
    (flush m).2.host.opened[h]? = m.host.opened[h]? := by
  obtain same | written := host_flush m
  · rw [same]
  · rw [written]
    exact Host.opened_attempt other _

theorem toProcessTable_flush (m : Machine) :
    (flush m).2.host.toProcessTable = m.host.toProcessTable := by
  obtain same | written := host_flush m
  · rw [same]
  · rw [written, Host.toProcessTable_attempt]

/-- A shell that is ready to run the stages of a pipeline, in processes that have been started for
them. Pipes have been opened to lead from each of them to the next one. -/
structure Ready (A : Access) (opened : Machine) (tasks : List (Int × Command × Stage))
    (ready : Machine) : Prop where
  confined : ready.Confined A
  watches : Watches ready.shell
  shell : ready.shell = { opened.shell with
    unwritten := ready.shell.unwritten, foreground := ready.shell.foreground }
  host : ready.host = { (flush (openPipes (tasks.length - 1) opened).2).2.host with
    toProcessTable := ready.host.toProcessTable }
  continues : opened.host.Continues ready.host
  processes : ready.host.processes = opened.host.processes ++ tasks.map fun t =>
    ⟨t.1, opened.shell.pid, opened.host.groupOf opened.shell.pid, .waiting, false, []⟩

/-- What has been printed before goes to the output of the shell, which leads to none of the pipes. -/
theorem Ready.unused {opened ready : Machine} {tasks : List (Int × Command × Stage)}
    (prepared : Ready A opened tasks ready) (inOrder : opened.InOrder) :
    ∀ i < tasks.length - 1, ∃ node, ready.host.Unused node
      (pipeEnds opened.host.opened.size i).1 (pipeEnds opened.host.opened.size i).2 := by
  intro i less
  obtain ⟨node, pipe⟩ := unused_openPipes _ inOrder i less
  let piped := (openPipes (tasks.length - 1) opened).2
  obtain ⟨shell, processes, -, -⟩ := openPipes_snd (tasks.length - 1) opened
  have confined := (inOrder.after (abides_openPipes _).heeds : piped.InOrder).confined
  obtain ⟨log, course⟩ := (heeds_flush piped confined bot_le).1
  have apart {h : Handle} (new : opened.host.opened.size ≤ h) (old : h < piped.host.opened.size)
      (unheld : ∀ p ∈ piped.host.processes, ∀ e ∈ p.held, e.1 ≠ h) :
      ¬piped.access.reads h ∧ ∀ b, ¬piped.access.holds h b := by
    have own : piped.access = piped.host.access opened.shell.stdio opened.shell.log := by
      rw [Machine.access, shell]
    rw [own]
    refine Host.access_apart old ?_ ?_ ?_ (fun recorded => ?_) unheld
    · exact Nat.ne_of_gt (Nat.lt_of_lt_of_le inOrder.input new)
    · exact Nat.ne_of_gt (Nat.lt_of_lt_of_le inOrder.output new)
    · exact Nat.ne_of_gt (Nat.lt_of_lt_of_le inOrder.error new)
    · exact Nat.not_lt.2 new (inOrder.log h recorded)
  have flushed := pipe.course confined.host course
    (apart (Nat.le_add_right _ _) pipe.opened.1 fun p hp e he => (pipe.unheld p hp e he).1)
    (apart (Nat.le_succ_of_le (Nat.le_add_right _ _)) pipe.opened.2
      fun p hp e he => (pipe.unheld p hp e he).2)
  rw [prepared.host]
  refine ⟨node, flushed.of_processes fun p hp e he => ?_⟩
  rw [prepared.processes, List.mem_append, List.mem_map] at hp
  obtain hp | ⟨t, -, rfl⟩ := hp
  · refine ⟨p, ?_, he⟩
    rw [congrArg ProcessTable.processes (toProcessTable_flush piped),
      congrArg ProcessTable.processes processes]
    exact hp
  · cases he

/-- The stages run one after the other, between ends that the shell may use. -/
theorem Ready.flow {source : Builtin.Sourcing} (sourcing : IsSourcing source)
    {opened ready : Machine} {tasks : List (Int × Command × Stage)}
    (prepared : Ready A opened tasks ready) (confined : opened.Confined A) (some : tasks ≠ [])
    {input output : Option Handle}
    (read : A.reads (input.getD opened.shell.stdio.input) ∧
      input.getD opened.shell.stdio.input < opened.host.opened.size)
    (written : A.prints (output.getD opened.shell.stdio.output) ∧
      output.getD opened.shell.stdio.output < opened.host.opened.size) :
    let files := stageFiles (opened.shell.stdio.redirect input output)
      (openPipes (tasks.length - 1) opened).1
    let done := (runStages (fun _ => source) files 0 tasks ready).2
    done.shell = ready.shell ∧ ∃ passages : List Passage, passages.map Passage.task = tasks ∧
      Flow source ready (input.getD opened.shell.stdio.input)
        (output.getD opened.shell.stdio.output) passages done := by
  have inOrder := confined.inOrder
  have larger := prepared.continues.size_le
  have unused := prepared.unused inOrder
  have pipes := openPipes_fst (tasks.length - 1) opened
  let ends := opened.shell.stdio.redirect input output
  have before : Before opened.host.opened.size ends ready.shell := by
    rw [prepared.shell]
    exact ⟨read.2, written.2, inOrder.error, inOrder.output, inOrder.log, rfl⟩
  have own : opened.shell.stdio.Allowed A ready.host.extent := by
    have own := prepared.confined.shell.stdio
    rwa [prepared.shell] at own
  have given : ends.Allowed A ready.host.extent :=
    ⟨⟨read.1, Nat.lt_of_lt_of_le read.2 larger⟩, ⟨written.1, Nat.lt_of_lt_of_le written.2 larger⟩,
      own.error, own.space⟩
  have free : ∀ e ∈ (openPipes (tasks.length - 1) opened).1,
      A.Free ready.host.extent e.1 ∧ A.Free ready.host.extent e.2 := by
    rw [pipes]
    intro e he
    obtain ⟨i, hi, rfl⟩ := List.mem_map.1 he
    obtain ⟨node, pipe⟩ := unused i (List.mem_range.1 hi)
    exact ⟨confined.host.free (Nat.le_add_right _ _) pipe.opened.1,
      confined.host.free (Nat.le_succ_of_le (Nat.le_add_right _ _)) pipe.opened.2⟩
  have number : (openPipes (tasks.length - 1) opened).1.length = tasks.length - 1 := by
    rw [pipes, List.length_map, List.length_range]
  have some' := List.length_pos_iff.2 some
  refine runStages_flow sourcing (fun i inside => ?_) some (by omega) prepared.confined
    prepared.watches before (fun i inside => ?_) fun i _ inside => unused i inside
  · rw [pipes]
    exact stageFiles_eq inside
  · exact allowed_stageFiles given free (inside.trans_eq number.symm)

theorem runBetween_ready (source : Builtin.Sourcing) {stages : List (Command × Stage)}
    (some : stages ≠ []) (ends : Option Handle × Option Handle) {opened : Machine}
    (confined : opened.Confined A) :
    ∃ tasks ready, tasks.map Prod.snd = stages ∧ Ready A opened tasks ready ∧
      let files := stageFiles (opened.shell.stdio.redirect ends.1 ends.2)
        (openPipes (tasks.length - 1) opened).1
      let told := waitForStages tasks (runStages (fun _ => source) files 0 tasks ready).2
      (runBetween (fun _ => source) stages ends).run opened =
        (.ok (Pipeline.status told.2.shell.settings.pipefail told.1),
          { told.2 with shell := { told.2.shell with foreground := none } }) := by
  let piped := (openPipes (stages.length - 1) opened).2
  obtain ⟨own, table, -, -⟩ := openPipes_snd (stages.length - 1) opened
  have opening : Heeds A ⊥ (openPipes (stages.length - 1)) := (abides_openPipes _).heeds
  have confined' : piped.Confined A := opening.confined confined bot_le
  obtain ⟨_, pipes⟩ := (opening opened confined bot_le).1
  have flushing : Heeds A ⊥ flush := heeds_flush
  have flushed := flushing.confined confined' bot_le
  obtain ⟨_, gone⟩ := (flushing piped confined' bot_le).1
  obtain ⟨unwritten, printed⟩ := (tolerant_printed.flush piped).1
  obtain ⟨tasks, processes, spawned, kinds, positive, retains, all⟩ :=
    spawnAll_run stages flushed.host.next
  obtain ⟨task, last⟩ : ∃ task, tasks.getLast? = Option.some task := by
    refine Option.isSome_iff_exists.1 (List.getLast?_isSome.2 ?_)
    rintro rfl
    exact some kinds.symm
  have number : tasks.length = stages.length := by rw [← kinds, List.length_map]
  have run := runBetween_run source ends spawned
  have allowed := flushed.shell
  dsimp only at run
  rw [printed, own] at run allowed all
  rw [last] at run
  let ready : Machine := ⟨{ opened.shell with unwritten, foreground := Option.some task.1 },
    { (flush piped).2.host with toProcessTable := processes }⟩
  have started : Course A (flush piped).2.host [] ready.host := Host.course_processes retains
  refine ⟨tasks, ready, kinds, ⟨⟨started.within flushed.host, allowed.stdio, allowed.log,
    allowed.directory⟩, fun _ => ⟨task.1, rfl, positive task (List.mem_of_getLast? last)⟩, rfl, ?_,
    (pipes.trans (gone.trans started)).continues, ?_⟩, ?_⟩
  · rw [number]
  · have same : (flush piped).2.host.toProcessTable = opened.host.toProcessTable :=
      (toProcessTable_flush piped).trans table
    change processes.processes = _
    rw [all, same]
  · rw [number]
    exact run

/-- A pipeline fails before anything is started if a command or a file is missing. Otherwise there
is one process for each command. The stages run from left to right, each once: the first one reads
from its input file or the input of the shell, each other one reads what the one before it has
printed, and only the last one prints to its output file or the output of the shell. Then all of them
are waited for. The status of the pipeline is that of the last stage, or of the last one that has
failed; and those that have stopped, and no others, become jobs. -/
theorem pipeline_flows_and_settles {source : Builtin.Sourcing} (sourcing : IsSourcing source)
    {p : Pipeline} (some : p ≠ []) {m : Machine} (inOrder : m.InOrder) :
    (∃ e m', (runPipeline source p).run m = (.error e, m') ∧ m'.shell = m.shell ∧
      m'.host.toProcessTable = m.host.toProcessTable ∧
      ((∃ c ∈ p, (planStage c).run m = (.error e, m)) ∨ (openEnds p).run m = (.error e, m'))) ∨
    ∃ (input output : Option Handle) (opened ready done told : Machine) (passages : List Passage)
        (waits : List Wait) (status : Int),
      (openEnds p).run m = (.ok (input, output), opened) ∧
      (runPipeline source p).run m =
        (.ok status, { told with shell := { told.shell with foreground := none } }) ∧
      passages.map Passage.command = p ∧
      (∀ q ∈ passages, (planStage q.command).run m = (.ok q.stage, m)) ∧
      Ready m.access opened (passages.map Passage.task) ready ∧
      (∀ q ∈ passages.head?, m.OpensInput q.start.host (p.head?.bind Command.input) input) ∧
      (∀ q ∈ passages.getLast?,
        m.OpensOutput q.start.host (p.getLast?.bind Command.target?) output) ∧
      Flow source ready (input.getD m.shell.stdio.input) (output.getD m.shell.stdio.output)
        passages done ∧
      waits.map (fun w => (w.pid, w.command)) = passages.map (fun q => (q.pid, q.command)) ∧
      Awaits done waits told ∧
      Pipeline.Decides m.shell.settings.pipefail (waits.map Wait.status) status ∧
      told.shell.jobs.jobs = m.shell.jobs.jobs ++ Wait.jobs m.shell.jobs.next waits := by
  have confined := inOrder.confined
  have planning : (runPipeline source p).run m = (do
      let stages ← plan p
      runBetween (fun _ => source) stages (← openEnds p)).run m := rfl
  rw [planning]
  obtain ⟨e, failed, missing⟩ | ⟨stages, planned, commands, plans⟩ := plan_cases p m
  · exact .inl ⟨e, m, tryBind_of_error failed _, rfl, rfl, .inl missing⟩
  rw [tryBind_of_ok planned]
  obtain ⟨e, t, failed, same⟩ | ⟨input, output, t, opened, -, course, read, written⟩ :=
    openEnds_cases confined p
  · exact .inl ⟨e, _, tryBind_of_error failed _, rfl, same, .inr failed⟩
  right
  rw [tryBind_of_ok opened]
  have more := course.continues.size_le
  have confined' : Machine.Confined m.access { m with host := t } :=
    ⟨course.within confined.host, confined.shell.mono (confined.host.extent_le course.continues)⟩
  have planned' : stages ≠ [] := by
    rintro rfl
    exact some commands.symm
  obtain ⟨tasks, ready, kinds, prepared, run⟩ :=
    runBetween_ready source planned' (input, output) confined'
  have started : tasks ≠ [] := by
    rintro rfl
    exact planned' kinds.symm
  -- What has been printed before goes to the output of the shell, which is none of the new files.
  have kept {f : Handle} {o : OpenFile} (new : m.host.opened.size ≤ f)
      (here : t.opened[f]? = Option.some o) : ready.host.opened[f]? = Option.some o := by
    have other : m.shell.stdio.output ≠ f := Nat.ne_of_lt (Nat.lt_of_lt_of_le inOrder.output new)
    have inside := (Array.getElem?_eq_some_iff.1 here).1
    obtain ⟨own, -, -, same⟩ := openPipes_snd (tasks.length - 1) { m with host := t }
    rw [prepared.host, ← here, ← same f inside]
    exact opened_flush (by rwa [own])
  have larger := prepared.continues.size_le
  have readable := read.allowed confined more
  have writable := written.allowed confined more
  obtain ⟨same, passages, ran, flow⟩ :=
    prepared.flow sourcing confined' started readable writable
  obtain ⟨waits, asked, awaits, statuses, jobs⟩ := waitForStages_awaits tasks (runStages
    (fun _ => source) (stageFiles (m.shell.stdio.redirect input output)
      (openPipes (tasks.length - 1) { m with host := t }).1) 0 tasks ready).2
  refine ⟨input, output, _, ready, _, _, passages, waits, _, opened, run, ?_, ?_, ran ▸ prepared,
    fun q hq => ?_, fun q hq => ?_, flow, ?_, awaits, ?_, ?_⟩
  · rw [← commands, ← kinds, ← ran]
    simp [Passage.task, Function.comp_def]
  · intro q hq
    refine plans (q.command, q.stage) ?_
    rw [← kinds, ← ran, List.map_map]
    exact List.mem_map_of_mem hq
  · rw [(flow.first q hq).1]
    exact read.still fun f o new here => kept new here
  · exact written.continue (prepared.continues.trans (flow.continues q (List.mem_of_getLast? hq)))
  · rw [asked, ← ran, List.map_map]
    rfl
  · have asked' : waits.map Wait.status ≠ [] := by
      rw [Ne, List.map_eq_nil_iff]
      rintro rfl
      exact started (List.map_eq_nil_iff.1 asked.symm)
    rw [settings_waitForStages, same, congrArg Shell.settings prepared.shell, statuses]
    exact Pipeline.decides_status _ asked'
  · rwa [same, congrArg Shell.jobs prepared.shell] at jobs

/-- The first of three stages stops itself. The second one prints for the third, whose output goes to
a file. -/
theorem pipeline_flows_and_settles_stopped :
    let tree := ["stopself", "upper"].foldl
      (fun t name => t.plant FileTree.root name (.link World.toolPath)) World.withDevices
    let m := Machine.start tree FileTree.root .null [] .default
    let p : Pipeline := [⟨["/stopself", "3"], none, none, false⟩,
      ⟨["echo", "hi"], none, none, false⟩, ⟨["/upper"], none, some "f", false⟩]
    let after := ((runPipeline sourceFile p).run m).2
    m.InOrder ∧ ∃ (input output : Option Handle) (ready done told : Machine)
        (passages : List Passage) (waits : List Wait),
      passages.map Passage.command = p ∧
      Flow sourceFile ready (input.getD m.shell.stdio.input) (output.getD m.shell.stdio.output)
        passages done ∧
      Awaits done waits told ∧ Pipeline.Decides true (waits.map Wait.status) 147 ∧
      (Wait.jobs 1 waits).map Job.command = ["/stopself 3"] ∧
      (after.host.tree.readText FileTree.root "f").toOption = some "HI\n" := by
  intro tree m p after
  have sound : tree.Sound := FileTree.sound_of_isProper (by decide +kernel) (by decide +kernel)
  have inOrder : m.InOrder := Machine.inOrder_start sound (by decide +kernel) (by rintro _ _ ⟨⟩) _ _
  have stages : p ≠ [] := List.cons_ne_nil _ _
  have settings : m.shell.settings.pipefail = true := by decide +kernel
  have none : m.shell.jobs = .empty := by decide +kernel
  have ends : ((runPipeline sourceFile p).run m).1.toOption = some 147 := by decide +kernel
  have jobs : after.shell.jobs.jobs.map Job.command = ["/stopself 3"] := by decide +kernel
  have file : (after.host.tree.readText FileTree.root "f").toOption = some "HI\n" := by
    decide +kernel
  -- From here on only these facts about the session are needed, not what it is.
  clear_value m p
  obtain ⟨e, m', failed, -⟩ | ⟨input, output, _, ready, done, told, passages, waits, status, -, run,
      commands, -, -, -, -, flow, -, awaits, decides, registered⟩ :=
    pipeline_flows_and_settles (.inl rfl) stages inOrder
  · rw [failed] at ends
    cases ends
  · rw [run] at ends
    obtain rfl : status = 147 := Option.some.inj ends
    rw [settings] at decides
    rw [none] at registered
    have known : after.shell.jobs.jobs = Wait.jobs 1 waits := by
      change ((runPipeline sourceFile p).run m).2.shell.jobs.jobs = _
      rw [run]
      exact registered
    exact ⟨inOrder, input, output, ready, done, told, passages, waits, commands, flow, awaits,
      decides, known ▸ jobs, file⟩

end SessionM
end JobShell
