import JobShell.Proofs.StableSteps

/-! Running lines, as far as the children of the session are concerned: how they are started, waited
for, registered as jobs and taken back from there. -/
namespace JobShell

open Host (firstPid)
open ProcessTable (Evolves)
open SessionM (Resolves)

/-- What an outcome leaves to be done: a process that has stopped is to be registered as a job. -/
def Outcome.Leaves (J : List Int → Affairs → Prop) (pid : Int) (pids : List Int)
    (outcome : Outcome) (a : Affairs) : Prop :=
  match outcome with
  | .stopped _ => ∀ command, J pids { a with jobs := a.jobs.add pid command .stopped }
  | _ => J pids a

/-- A property of a session with a list of the processes that it has started and is still to wait
for. It bears with whatever the session does about its children. -/
structure Oversees (gone : Int → Prop) (J : List Int → Affairs → Prop) : Prop where
  stable : ∀ pids, Stable gone (J pids)
  spawn : ∀ {pids a}, J pids a → ∀ own,
    J (pids ++ [a.processes.freshPid]) { a with processes := (a.processes.spawn a.pid own).2 }
  launch : ∀ {a}, J [] a → ∀ command, J [] { a with
    jobs := a.jobs.add a.processes.freshPid command .running
    processes := (a.processes.spawn a.pid true).2 }
  wait : ∀ {pid pids a}, J (pid :: pids) a →
    Resolves (·.Leaves J pid pids) (J pids) (a.processes.wait a.pid pid).1
      { a with processes := (a.processes.wait a.pid pid).2 }
  remove : ∀ {pids a j}, J pids a → j ∈ a.jobs.jobs →
    J (j.pid :: pids) { a with jobs := a.jobs.removeByPid j.pid }
  forget : ∀ {pid pids a}, J (pid :: pids) a → (∀ p ∈ a.processes.processes, p.pid ≠ pid) →
    J pids a
  resume : ∀ {pid pids a}, J pids a →
    (∀ p ∈ a.processes.processes, p.pid = pid → p.status? ≠ some .stopped) →
    J pids { a with jobs := a.jobs.setStatus pid .running }

/-- Nothing that a copy of the shell does is about children of the session. -/
theorem oversees_apart {gone : Int → Prop} (s : ProcessTable) :
    Oversees gone fun _ => Apart gone s where
  stable _ := Apart.stable
  spawn h own := Apart.stable.evolves _ _ h (ProcessTable.evolves_spawn h.evolves.sound h.copy own)
  launch h _ :=
    ⟨h.copy, h.evolves.trans (ProcessTable.evolves_spawn h.evolves.sound h.copy true)⟩
  wait {pid _ a} h := by
    have e := h.evolves.trans (ProcessTable.evolves_wait h.evolves.sound h.copy pid)
    have left (outcome : Outcome) : outcome.Leaves (fun _ => Apart gone s) pid []
        { a with processes := (a.processes.wait a.pid pid).2 } := by
      cases outcome with
      | stopped => exact fun _ => ⟨h.copy, e⟩
      | exited | killed => exact ⟨h.copy, e⟩
    unfold Resolves
    split
    · exact left _
    · exact ⟨h.copy, e⟩
  remove h _ := ⟨h.copy, h.evolves⟩
  forget h _ := h
  resume h _ := ⟨h.copy, h.evolves⟩

/-- A step that bears with every property that oversees the session. -/
def SessionM.Orderly {α : Type} (gone : Int → Prop) (x : SessionM α) : Prop :=
  ∀ J, Oversees gone J → SessionM.Keeps (J []) x

/-! ### Jobs that are selected -/

theorem JobTable.mem_of_mostRecent {jobs : JobTable} {j : Job} (found : jobs.mostRecent = some j) :
    j ∈ jobs.jobs := by
  revert j
  refine List.foldlRecOn (motive := fun best : Option Job => ∀ {j}, best = some j → j ∈ jobs.jobs)
    _ _ (by rintro _ ⟨⟩) fun best among x listed j now => ?_
  split at now
  · exact Option.some.inj now ▸ listed
  · split at now
    · exact Option.some.inj now ▸ listed
    · exact among now

theorem JobControl.mem_of_select {jobs : JobTable} {spec : Option String} {j : Job}
    (selected : select jobs spec = some j) : j ∈ jobs.jobs := by
  cases spec with
  | none => exact JobTable.mem_of_mostRecent selected
  | some spec =>
    obtain ⟨id, -, found⟩ := Option.bind_eq_some_iff.1 selected
    exact List.mem_of_find?_eq_some found

namespace SessionM

section
variable {J : List Int → Affairs → Prop}

/-- A builtin that is given a job finds it in the table. -/
theorem keeps_onSelected {act : Job → SessionM Int} (name : String)
    (h : ∀ job, Ensures (fun a => J [] a ∧ job ∈ a.jobs.jobs) (act job) fun _ => J [])
    (argv : List String) : Keeps (J []) (do
      if 2 < argv.length then fail name "too many arguments" 1
      else match JobControl.select (← shell).jobs argv[1]? with
        | none => fail name (JobControl.noSuchJob argv[1]?) 1
        | some job => act job) := by
  refine .ite (keeps_fail _ _ _) (Ensures.shellBind fun sh => ?_)
  split
  · exact fun m hm => keeps_fail (I := J []) _ _ _ m hm.1
  · next job selected =>
    exact fun m hm => h job m ⟨hm.1, hm.2 ▸ JobControl.mem_of_select selected⟩

/-- The course of bringing a job back: it is taken out of the table, made to go on if it is listed
as stopped, and waited for. -/
theorem Ensures.bringBack {job : Job} {P K G E : Affairs → Prop} {W : Outcome → Affairs → Prop}
    {Q : Int → Affairs → Prop}
    (removed : Ensures P (modifyJobs (·.removeByPid job.pid)) fun _ => K)
    (resumed : Ensures K (JobControl.resume job) (Resolves (fun _ => G) E))
    (waited : Ensures G (waitFor job.pid) (Resolves W E))
    (settled : ∀ outcome, Ensures (W outcome) (settle job.pid job.command outcome) Q)
    (failed : ∀ message, Ensures E (fail "fg" message 1) Q) :
    Ensures P (JobControl.bringBack job) Q := by
  let Found (r : Except Int (Except Errno Outcome)) (s : Affairs) : Prop :=
    r.casesOn (fun status => Q status s) fun told => Resolves W E told s
  refine (keeps_say _).andThen fun _ => keeps_flush.andThen fun _ => removed.bind fun _ => ?_
  refine .bind (Q := Found) (Ensures.withForeground (resumed.bind ?_) job.pid) ?_
  · rintro (e | ⟨⟩)
    · exact (failed _).bind fun status => .pure fun _ h => h
    · exact waited.bind fun told => .pure fun _ h => h
  · rintro (status | e | outcome)
    · exact .pure fun _ h => h
    · exact failed _
    · exact settled outcome

theorem ensures_settle (pid : Int) (pids : List Int) (display : String) (outcome : Outcome) :
    Ensures (outcome.Leaves J pid pids) (settle pid display outcome)
      fun _ => J pids := by
  cases outcome with
  | exited | killed => exact .pure fun _ h => h
  | stopped sig =>
    refine keeps_shell.andThen fun sh => ?_
    refine .bind (Q := fun _ => J pids) (fun m h => h display) fun _ => ?_
    exact (keeps_say _).bind fun _ => .pure _

theorem keeps_runSource {source : Builtin.Sourcing} (hs : ∀ path, Keeps (J []) (source path))
    (b : Builtin) (argv : List String) : Keeps (J []) (Builtin.runSource source b argv) := by
  unfold Builtin.runSource
  split
  · exact keeps_fail _ _ _
  · refine (hs _).bind fun sourced => ?_
    split
    · exact .pure _
    · exact keeps_fail _ _ _

end

section
variable {α : Type} {gone : Int → Prop} {J : List Int → Affairs → Prop} (O : Oversees gone J)
include O

/-! ### Starting and waiting -/

theorem ensures_spawn (pids : List Int) (own : Bool) :
    Ensures (J pids) (spawn own) fun pid => J (pids ++ [pid]) :=
  fun _ hm => O.spawn hm own

theorem ensures_waitFor (pid : Int) (pids : List Int) :
    Ensures (J (pid :: pids)) (waitFor pid)
      (Resolves (·.Leaves J pid pids) (J pids)) := by
  intro m hm
  exact O.wait ((O.stable _).keeps_deliver (fun p => p.pid = pid) m hm)

theorem keeps_runExternal (c : Command) : Keeps (J []) (runExternal c).run := by
  refine (keeps_prepareImage _).tryBind fun image => ?_
  refine (Keeps.tryOption keeps_openInput).tryBind fun input => ?_
  refine (Keeps.tryOption keeps_openOutput).tryBind fun output => ?_
  refine .liftBind keeps_flush fun _ => .liftBind keeps_shell fun sh => ?_
  dsimp only
  refine Ensures.liftBind (ensures_spawn O [] false) fun pid => ?_
  refine Ensures.liftBind (Q := Resolves (·.Leaves J pid []) (J [])) ?_ ?_
  · refine Ensures.withForeground ?_ pid
    refine keeps_shell.andThen fun sh => Keeps.andThen ?_ fun _ => ensures_waitFor O pid []
    exact (O.stable _).keeps_runImage pid _ _ image
  · rintro (e | outcome)
    · exact Keeps.tryThrow (I := J []) _
    · exact ensures_settle pid [] c.display outcome

/-! ### Pipelines -/

/-- Every stage gets a process of its own, in the order in which they stand. -/
theorem ensures_spawnStages (pids : List Int) (stages : List (Command × Stage)) :
    Ensures (J pids)
      (stages.mapM fun s => do return (← spawn false, s) :
        AttemptM (List (Int × Command × Stage))).run
      (Succeeds fun staged => J (pids ++ staged.map Prod.fst)) := by
  induction stages generalizing pids with
  | nil => exact .pure fun a h => ⟨[], rfl, by simpa using h⟩
  | cons s stages ih =>
    rw [List.mapM_cons]
    refine Ensures.succeedBind (Q := fun b => J (pids ++ [b.1])) ?_ fun b => ?_
    · refine Ensures.liftBind (ensures_spawn O pids false) fun pid => ?_
      exact .pure fun a h => ⟨(pid, s), rfl, h⟩
    · refine Ensures.succeedBind (ih (pids ++ [b.1])) fun staged => ?_
      exact .pure fun a h => ⟨b :: staged, rfl, by simpa using h⟩

theorem ensures_waitForStages (stages : List (Int × Command × Stage)) :
    Ensures (J (stages.map Prod.fst)) (waitForStages stages) fun _ => J [] := by
  induction stages with
  | nil => exact .pure fun _ h => h
  | cons s stages ih =>
    obtain ⟨pid, c, stage⟩ := s
    have rest (status : Int) : Ensures (J (stages.map Prod.fst)) (do
        return status :: (← waitForStages stages)) fun _ => J [] :=
      ih.bind fun _ => .pure fun _ h => h
    refine Ensures.bind (ensures_waitFor O pid (stages.map Prod.fst)) ?_
    rintro (e | outcome)
    · exact Ensures.bind (Q := fun _ => J (stages.map Prod.fst)) (.pure fun _ h => h) rest
    · exact Ensures.bind (ensures_settle pid _ c.display outcome) rest

/-! ### Jobs -/

/-- A process to which no signal can be sent is not to be waited for any longer. -/
theorem ensures_resume (job : Job) (pids : List Int) :
    Ensures (J (job.pid :: pids)) (JobControl.resume job)
      (Resolves (fun _ => J (job.pid :: pids)) (J pids)) := by
  refine .ite (keeps_shell.andThen fun sh m hm => ?_) (.pure fun _ h => h)
  have killed := (O.stable _).keeps_kill sh.pid job.pid (some .resume) m hm
  unfold Resolves
  split
  · exact killed
  · next e failed =>
    exact O.forget killed (ProcessTable.ne_target_of_kill_error ((O.stable _).sound _ hm) failed)

/-- A job that is brought back is waited for, and no job while it is. -/
theorem ensures_bringBack (job : Job) :
    Ensures (fun a => J [] a ∧ job ∈ a.jobs.jobs) (JobControl.bringBack job) fun _ => J [] :=
  .bringBack (fun _ h => O.remove h.1 h.2) (ensures_resume O job [])
    (ensures_waitFor O job.pid []) (ensures_settle job.pid [] job.command) fun _ => keeps_fail _ _ _

/-- A job that is let go is not stopped any longer when it is noted as running. -/
theorem ensures_letGo (job : Job) :
    Ensures (fun a => J [] a ∧ job ∈ a.jobs.jobs) (JobControl.letGo job) fun _ => J [] := by
  unfold JobControl.letGo
  split
  · exact fun m hm => ((keeps_complain (I := J []) _).bind fun _ => .pure _) m hm.1
  next other =>
  have stopped : job.status = .stopped := by cases h : job.status <;> simp_all
  refine Ensures.bind (Q := fun r a => (J [] a ∧ job ∈ a.jobs.jobs) ∧
      (∀ e, r = .error e → ∀ p ∈ a.processes.processes, p.pid ≠ job.pid) ∧
      ∀ p ∈ a.processes.processes, p.pid = job.pid → p.status? ≠ some .stopped) ?_ ?_
  · rw [JobControl.resume, if_pos stopped]
    refine keeps_shell.andThen fun sh m hm => ?_
    have sound := (O.stable _).sound _ hm.1
    refine ⟨⟨(O.stable _).keeps_kill sh.pid job.pid (some .resume) m hm.1, hm.2⟩, ?_, ?_⟩
    · exact fun e failed => ProcessTable.ne_target_of_kill_error sound failed
    · exact ProcessTable.status?_ne_stopped_of_kill sound sh.pid job.pid
  · rintro (e | ⟨⟩)
    · refine Ensures.ite (Ensures.bind (Q := fun _ => J []) ?_ fun _ => keeps_fail _ _ _) ?_
      · intro m hm
        exact O.forget (O.remove hm.1.1 hm.1.2) (hm.2.1 e rfl)
      · exact fun m hm => keeps_fail (I := J []) _ _ _ m hm.1.1
    · refine Ensures.bind (Q := fun _ => J []) (fun m hm => O.resume hm.1.1 hm.2.2) fun _ => ?_
      exact (keeps_say _).bind fun _ => .pure _

/-! ### Builtins -/

theorem keeps_builtin {source : Builtin.Sourcing} (hs : ∀ path, Keeps (J []) (source path))
    (b : Builtin) (argv : List String) : Keeps (J []) (b.run source argv) := by
  cases quiet : b.isQuiet with
  | true => exact keeps_quiet quiet source argv
  | false =>
    cases b with
    | dot | source => exact keeps_runSource hs _ argv
    | background => exact keeps_onSelected "bg" (ensures_letGo O) argv
    | foreground => exact keeps_onSelected "fg" (ensures_bringBack O) argv
    | kill => exact ((O.stable []).ofSignals.runKill argv).keeps
    | ping => exact ((O.stable []).ofSignals.runPing argv).keeps
    | _ => cases quiet

end

/-! ### Lines -/

section
variable {gone : Int → Prop} {source : Builtin.Sourcing} (hs : ∀ path, Orderly gone (source path))
include hs

theorem keeps_runStage {I : Affairs → Prop} (h : Stable gone I) (pid : Int) (stdio : Stdio)
    (c : Command) (stage : Stage) : Keeps I (runStage source pid stdio c stage) := by
  cases stage with
  | assignment =>
    exact keeps_shell.bind fun sh => h.keeps_runCopy pid _ fun s => .pure 0
  | builtin b =>
    refine keeps_shell.bind fun sh => h.keeps_runCopy pid _ fun s => ?_
    exact keeps_builtin (oversees_apart s) (fun path => hs path _ (oversees_apart s)) b c.argv
  | program image => exact keeps_shell.bind fun sh => h.keeps_runImage pid stdio _ image

theorem keeps_runStages {I : Affairs → Prop} (h : Stable gone I) (files : Nat → Stdio)
    (stages : List (Int × Command × Stage)) (index : Nat) :
    Keeps I (runStages (fun _ => source) files index stages) := by
  induction stages generalizing index with
  | nil => exact .pure _
  | cons s stages ih => exact (keeps_runStage hs h _ _ _ _).bind fun _ => ih _

theorem orderly_runPipeline (p : Pipeline) : Orderly gone (runPipeline source p).run := by
  intro J O
  refine Keeps.tryBind (.tryMapM fun c => ?_) fun stages => ?_
  · exact (keeps_planStage c).tryBind fun _ => .tryPure _
  refine (keeps_openEnds p).tryBind fun ends => .liftBind (keeps_openPipes _) fun pipes => ?_
  refine .liftBind keeps_flush fun _ => ?_
  refine Ensures.succeedBind (ensures_spawnStages O [] stages) fun staged => ?_
  refine Ensures.liftBind (Q := fun _ => J (staged.map Prod.fst)) keeps_shell fun sh => ?_
  refine Ensures.liftBind (Q := fun _ => J []) (Ensures.withForeground ?_ _) fun statuses => ?_
  · refine Keeps.andThen ?_ fun _ => ensures_waitForStages O staged
    exact keeps_runStages hs (O.stable _) _ staged 0
  · exact Keeps.liftBind keeps_shell fun sh => .tryPure _

theorem orderly_runCommand (c : Command) : Orderly gone (runCommand source c).run := by
  intro J O
  rw [runCommand_eq]
  split
  · exact .liftBind (keeps_modifyVars _) fun _ => .tryPure _
  · next b _ _ =>
    refine .liftBind keeps_shell fun sh => (keeps_redirectForBuiltin c _).tryBind fun _ => ?_
    refine .liftBind (keeps_builtin O (fun path => hs path J O) b c.argv) fun status => ?_
    refine .liftBind keeps_flush fun _ => ?_
    exact Keeps.ite (.liftBind (keeps_restore _) fun _ => .tryPure _) (.tryPure _)
  · exact keeps_runExternal O c

theorem orderly_executePipeline (ts : List Token) : Orderly gone (executePipeline source ts) := by
  intro J O
  have attempt : Keeps (J []) (if ts.any (·.kind = .pipe) then do
      runPipeline source (← build (Pipeline.build · ts))
    else do runCommand source (← build (Command.build · ts)) : AttemptM Int).run :=
    Keeps.ite ((keeps_build _).tryBind fun p => orderly_runPipeline hs p J O)
      ((keeps_build _).tryBind fun c => orderly_runCommand hs c J O)
  rw [executePipeline_eq]
  refine attempt.bind ?_
  rintro (e | status)
  · exact keeps_report e
  · exact .pure _

theorem orderly_executeChain (ts : List Token) : Orderly gone (executeChain source ts) :=
  fun J O => (correspondence_keeps (J [])).runChain (y := executePipeline source)
    (fun ts => (orderly_executePipeline hs ts J O).anyhow) (Chain.ofTokens ts) |>.keeps

theorem keeps_runLaunch {I : Affairs → Prop} (h : Stable gone I) (ts : List Token) (pid : Int)
    (copy : Shell) (launch : Launch) (stdio : Stdio) :
    Keeps I (runLaunch (fun _ => executeChain source ts) pid copy launch stdio) := by
  cases launch with
  | program c image => exact h.keeps_runImage pid stdio _ image
  | copy =>
    exact h.keeps_runCopy pid _ fun s => orderly_executeChain hs ts _ (oversees_apart s)

theorem orderly_startBackground (ts : List Token) :
    Orderly gone (startBackground source ts).run := by
  intro J O
  refine (keeps_planBackground ts).tryBind fun launch => ?_
  refine (keeps_openForLaunch launch).tryBind fun files => ?_
  refine .liftBind keeps_flush fun _ => .liftBind keeps_shell fun copy => ?_
  refine Ensures.liftBind (Q := fun pid a => ∀ command,
    J [] { a with jobs := a.jobs.add pid command .running }) (fun m h => O.launch h) fun pid => ?_
  refine Ensures.liftBind (Q := fun _ => J []) (fun m h => h _) fun _ => ?_
  refine Keeps.liftBind (keeps_modifyVars _) fun _ => .liftBind (keeps_say _) fun _ => ?_
  exact (O.stable _).keeps_runApart pid _ _ copy (keeps_runLaunch hs (O.stable _) ts pid copy launch)

theorem orderly_agree {J : List Int → Affairs → Prop} (O : Oversees gone J) :
    Engine.Agree (fun {α} (Q : α → Prop) (x _ : SessionM α) =>
        Ensures (J []) x fun a s => J [] s ∧ Q a)
      (fun _ => True) (.session source) (.session source) where
  execute ts := (orderly_executePipeline hs ts J O).anyhow
  launch ts := (orderly_startBackground hs ts J O).anyhow

theorem orderly_runTokens (ts : List Token) : Orderly gone (runTokens source ts) :=
  fun J O => ((correspondence_keeps (J [])).runChecked (orderly_agree hs O) ts).keeps

theorem orderly_runLineWith (line : String) : Orderly gone (runLineWith source line) :=
  fun J O => ((correspondence_keeps (J [])).runLine (orderly_agree hs O) line).keeps

end

/-! ### Files -/

section
variable {gone : Int → Prop}

/-- Files that are sourced one inside the other, by induction on the levels that are left. -/
theorem orderly_sourceWithin (levels : Nat) (path : String) :
    Orderly gone (sourceWithin levels path) := by
  induction levels generalizing path with
  | zero => exact fun J O => .pure _
  | succ levels ih =>
    intro J O
    refine ((correspondence_keeps (J [])).runFile (orderly_agree ih O) (K := fun _ => True)
      ?_ ?_ ?_).keeps
    · exact keeps_get.anyhow
    · exact fun _ _ _ _ => (ofFiles_keeps (J [])).halt _
    · exact fun _ => (keeps_modifyShell fun _ => ⟨rfl, rfl⟩).anyhow

theorem orderly_sourceFile (path : String) : Orderly gone (sourceFile path) :=
  fun J O => keeps_shell.bind fun _ => orderly_sourceWithin _ path J O

theorem orderly_runLine (line : String) : Orderly gone (runLine line) :=
  orderly_runLineWith orderly_sourceFile line

theorem orderly_runParsed (ts : List Token) : Orderly gone (runParsed ts) :=
  orderly_runTokens orderly_sourceFile ts

theorem orderly_builtin (b : Builtin) (argv : List String) :
    Orderly gone (b.run sourceFile argv) :=
  fun J O => keeps_builtin O (fun path => orderly_sourceFile path J O) b argv

end

end SessionM
end JobShell
