import JobShell.Proofs.Building
import JobShell.Proofs.BuiltinSteps
import JobShell.Proofs.ForkedCommands

/-! What lines are put together from: commands that are run in the shell or in processes of their
own, changes of variables, and files that are sourced, one inside the other. What holds of these
steps holds of every line and of every step of a session. -/
namespace JobShell

/-- There are always stages in a pipeline. -/
theorem Pipeline.ne_nil_of_build {here : Surroundings} {ts : List Token} {tree : FileTree}
    {p : Pipeline} (built : (Pipeline.build here ts tree).1 = .ok p) : p ≠ [] := by
  unfold Pipeline.build at built
  split at built
  · cases built
  next opened _ =>
  change ofSegments here opened true (segments ts) = .ok p at built
  cases cut : segments ts with
  | nil =>
    have length := length_segments ts
    rw [cut] at length
    cases length
  | cons s ss =>
    rw [cut, ofSegments] at built
    split at built
    · cases built
    · cases rest : ofSegments here opened false ss with
      | error e =>
        rw [rest] at built
        cases built
      | ok stages =>
        rw [rest] at built
        cases built
        exact List.cons_ne_nil _ _

namespace SessionM

/-- A property of steps that holds of what lines are put together from. A builtin is run in the
shell or in a copy of it, and a copy also runs what is sent into the background. -/
structure OfLines (C : {α : Type} → (α → Prop) → SessionM α → Prop) (known : Machine → Prop) :
    Prop extends OfBuiltins C known where
  assigned : ∀ f : Variables → Variables, C (fun _ => True) (modifyVars f)
  asked : ∀ status, C (fun _ => True)
    (modifyShell fun sh => { sh with exitRequest := some status })
  depth : ∀ f : Nat → Nat, C (fun _ => True)
    (modifyShell fun sh => { sh with sourceDepth := f sh.sourceDepth })
  buildCommand : ∀ ts, C (fun _ => True) (build (Command.build · ts)).run
  buildPipeline : ∀ ts, C (fun _ => True) (build (Pipeline.build · ts)).run
  runBuiltin : ∀ {source : Builtin.Sourcing} {b : Builtin} {c : Command},
    C (fun _ => True) (b.run source c.argv) → C (fun _ => True) (runBuiltin source b c).run
  runExternal : ∀ c, C (fun _ => True) (runExternal c).run
  runPipeline : ∀ {source : Builtin.Sourcing} {p : Pipeline}, p ≠ [] →
    (∀ (b : Builtin) (argv : List String), C (fun _ => True) (b.run source argv)) →
    C (fun _ => True) (runPipeline source p).run
  startBackground : ∀ {source : Builtin.Sourcing} {ts : List Token},
    C (fun _ => True) (executeChain source ts) → C (fun _ => True) (startBackground source ts).run
  stuck : ∀ {m : Machine} {path : String} {file : NodeId}, known m →
    m.host.tree.readText m.shell.directory path = .endless file →
    C (fun _ => True) (halt (.stuck file))

namespace OfLines

variable {C : {α : Type} → (α → Prop) → SessionM α → Prop} {known : Machine → Prop}

variable (h : OfLines C known)
include h

theorem expandLine (line : String) : C (fun _ => True) (expandLine line) := by
  refine h.andThen h.shell fun sh => ?_
  dsimp only
  exact h.thenReturn (h.assigned fun _ => _) trivial

/-- A property of steps of one session is a correspondence with no other one. -/
theorem correspondence : Correspondence (σ := Machine) (τ := Machine)
    (fun {α} (Q : α → Prop) x _ => C Q x) fun _ => True where
  pure := h.pure
  bind := h.bind
  isOver := h.isOver
  shell := h.anyhow h.shell
  expandLine := h.expandLine
  zero := trivial
  lastStatus := h.lastStatus
  setStatus {status} _ := h.assigned fun v => { v with status }
  report _ := h.report trivial

section Sourcing

variable {source : Builtin.Sourcing} (hs : ∀ path, C (fun _ => True) (source path))
include hs

theorem runSource (b : Builtin) (argv : List String) :
    C (fun _ => True) (Builtin.runSource source b argv) := by
  unfold Builtin.runSource
  split
  · exact h.anyhow (h.misuse _ _)
  · refine h.andThen (hs _) fun sourced => ?_
    cases sourced with
    | error e => exact h.anyhow (h.failOne _ _)
    | ok status => exact h.pure trivial

theorem anyBuiltin (b : Builtin) (argv : List String) :
    C (fun _ => True) (b.run source argv) := by
  by_cases stays : b.stays = true
  · exact h.anyhow (h.builtin stays source argv)
  · have leaves := h.runExit h.asked b argv
    cases b with
    | dot | source => exact h.runSource hs _ argv
    | exit | quit => exact leaves
    | _ => exact absurd rfl stays

/-! ### Commands and pipelines -/

theorem runCommand (c : Command) : C (fun _ => True) (runCommand source c).run := by
  rw [runCommand_eq]
  split
  · exact h.liftThen (h.assigned _) fun _ => h.tryPure
  · exact h.runBuiltin (h.anyBuiltin hs _ _)
  · exact h.runExternal c

theorem executePipeline (ts : List Token) : C (fun _ => True) (executePipeline source ts) := by
  have attempt : C (fun _ => True) (if ts.any (·.kind = .pipe) then do
      SessionM.runPipeline source (← build (Pipeline.build · ts))
    else do SessionM.runCommand source (← build (Command.build · ts)) : AttemptM Int).run := by
    refine h.ite ?_ (h.tryThen (h.buildCommand ts) fun c => h.runCommand hs c)
    have stages : C (fun r => ∀ p, r = .ok p → p ≠ []) (build (Pipeline.build · ts)).run := by
      refine h.gives (h.buildPipeline ts) fun m p built => ?_
      rw [build_run] at built
      exact Pipeline.ne_nil_of_build built
    exact h.tryBind stages (fun p some => h.runPipeline (some p rfl) (h.anyBuiltin hs))
      fun _ => trivial
  rw [executePipeline_eq]
  refine h.andThen attempt fun result => ?_
  cases result with
  | error e => exact h.report trivial
  | ok status => exact h.pure trivial

/-! ### Lines and files -/

theorem agree : Engine.Agree (fun {α} (Q : α → Prop) (x _ : SessionM α) => C Q x) (fun _ => True)
    (.session source) (.session source) where
  execute := h.executePipeline hs
  launch ts := h.startBackground (h.correspondence.runChain
    (y := SessionM.executePipeline source) (h.executePipeline hs) (Chain.ofTokens ts))

theorem runTokens (ts : List Token) : C (fun _ => True) (runTokens source ts) :=
  h.correspondence.runChecked (h.agree hs) ts

theorem runLineWith (line : String) : C (fun _ => True) (runLineWith source line) :=
  h.correspondence.runLine (h.agree hs) line

end Sourcing

/-- Files that are sourced one inside the other, by induction on the levels that are left. -/
theorem sourceWithin (levels : Nat) (path : String) :
    C (fun _ => True) (sourceWithin levels path) := by
  induction levels generalizing path with
  | zero => exact h.pure trivial
  | succ levels ih =>
    exact h.anyhow (h.correspondence.runFile (h.agree ih) h.get (fun _ _ => h.stuck) h.depth)

theorem sourceFile (path : String) : C (fun _ => True) (sourceFile path) :=
  h.andThen h.shell fun _ => h.sourceWithin _ path

theorem runLine (line : String) : C (fun _ => True) (runLine line) :=
  h.runLineWith h.sourceFile line

/-- What a session does, one case for each kind of step. To ask for the jobs, or to let someone else
take one, is no part of a line. -/
theorem perform (step : Transcript.Step) (asked : step = .reap → C (fun _ => True) reapJobs)
    (taken : ∀ job, step = .steal job →
      ∀ pid, C (fun _ => True) (modifyProcesses (·.drop pid))) :
    C (fun _ => True) (Transcript.perform step) := by
  cases step with
  | line text => exact h.andThen (h.runLine text) fun _ => h.pure trivial
  | builtin name argv =>
    simp only [Transcript.perform, Transcript.performBy]
    split
    · exact h.andThen (h.anyBuiltin h.sourceFile _ argv) fun _ => h.pure trivial
    · exact h.pure trivial
  | tokens ts => exact h.andThen (h.runTokens h.sourceFile ts) fun _ => h.pure trivial
  | source path =>
    refine h.andThen (h.sourceFile path) fun sourced => ?_
    cases sourced with
    | error e => exact h.pure trivial
    | ok status => exact h.pure trivial
  | prompt => exact h.andThen h.prompt fun _ => h.pure trivial
  | reap => exact h.thenReturn (asked rfl) trivial
  | steal job =>
    have searched := h.read fun m => (m.shell.jobs.issued.find? (·.1 = job)).map (·.2)
    refine h.andThen searched fun pid => ?_
    cases pid with
    | none => exact h.pure trivial
    | some pid => exact h.thenReturn (taken job rfl pid) trivial
  | signal number =>
    simp only [Transcript.perform, Transcript.performBy]
    split
    · exact h.thenReturn (h.receiveSignal _) trivial
    · exact h.pure trivial

end OfLines
end SessionM
end JobShell
