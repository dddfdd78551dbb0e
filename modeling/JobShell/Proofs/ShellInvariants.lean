import JobShell.Proofs.BuiltinFrame
import JobShell.Proofs.ForkedCommands
import JobShell.Proofs.LineAssignments
import JobShell.Session.Transcript

/-! What holds of the shell throughout a line. A property that every change of the shell keeps holds
whenever a command is run, so that it does not matter how programs would be prepared, or how files
would be sourced, where it does not hold. -/
namespace JobShell

/-- A property of shells that goes with a range of statuses. It is about the variables and about how
deep files are being sourced, and it survives everything that lines do to variables. -/
structure Shell.Enduring (I : Shell → Prop) (S : Int → Prop) : Prop where
  range {s : Int} : IsStatus s → S s
  current {sh : Shell} : I sh → S sh.vars.status
  status {sh : Shell} {s : Int} : I sh → S s → I (sh.withStatus s)
  background {sh : Shell} : I sh →
    ∀ pid, I { sh with vars := { sh.vars with background := some pid } }
  set {sh : Shell} {name : String} : I sh → Text.isIdentifier name.toList = true →
    ∀ value, I { sh with vars := sh.vars.set name value }
  exported {sh : Shell} {name : String} : I sh → Text.isIdentifier name.toList = true →
    ∀ value, I { sh with vars := sh.vars.setExported name value }
  unset {sh : Shell} : I sh → ∀ name, I { sh with vars := sh.vars.unset name }
  /-- Nothing else matters. -/
  other {sh sh' : Shell} : I sh → sh'.vars = sh.vars → sh'.sourceDepth = sh.sourceDepth → I sh'

theorem Command.isIdentifier_of_assignment? {c : Command} {a : String × String}
    (h : c.assignment? = some a) : Text.isIdentifier a.1.toList = true := by
  unfold assignment? at h
  split at h
  · exact Text.isIdentifier_of_splitAssignment? h
  · cases h

open Shell (Beside Enduring)

namespace SessionM

variable {α β : Type} {I : Shell → Prop} {S : Int → Prop} {P : β → Prop} {Q : α → Prop}

/-! ### Two runs side by side -/

/-- Two steps come to the same wherever a property holds of the shell. It holds afterwards too, and
something holds of the result. -/
def Alike (I : Shell → Prop) (Q : α → Prop) (x y : SessionM α) : Prop :=
  ∀ m, I m.shell → x m = y m ∧ I (y m).2.shell ∧ Q (y m).1

/-- A property of the shell is kept. -/
def Keeping (I : Shell → Prop) (before after : Shell) : Prop := I before → I after

/-- A property of shells that goes with a range of statuses, and that is kept by everything that lines
do to a shell, its own files apart. -/
structure Kept (I : Shell → Prop) (S : Int → Prop) : Prop where
  admits : Admits (Keeping I)
  range {s : Int} : IsStatus s → S s
  current {sh : Shell} : I sh → S sh.vars.status
  status {sh : Shell} {s : Int} : I sh → S s → I (sh.withStatus s)
  background {sh : Shell} : I sh →
    ∀ pid, I { sh with vars := { sh.vars with background := some pid } }
  leaving {sh : Shell} : I sh → ∀ exitRequest, I { sh with exitRequest }

theorem Kept.of_beside (K : Kept I S) (a b : Shell) (h : Beside a b) : Keeping I a b := by
  obtain ⟨jobs, unwritten, foreground, -, rfl⟩ := h
  intro kept
  exact K.admits.watched _ foreground (K.admits.printed _ unwritten (K.admits.jobs _ jobs kept))

theorem kept_of_enduring (E : Enduring I S) : Kept I S where
  admits :=
    { refl _ := id
      trans first second := second ∘ first
      printed _ _ h := E.other h rfl rfl
      aliases _ _ h := E.other h rfl rfl
      jobs _ _ h := E.other h rfl rfl
      watched _ _ h := E.other h rfl rfl
      moved _ _ h := E.other h rfl rfl
      left _ _ h := E.other h rfl rfl
      set _ _ identifier value h := E.set h identifier value
      exported _ _ identifier value h := E.exported h identifier value
      unset _ name h := E.unset h name }
  range := E.range
  current := E.current
  status := E.status
  background := E.background
  leaving h _ := E.other h rfl rfl

namespace Alike

theorem of_does {x : SessionM α} (hx : Does (Keeping I) Q x) : Alike I Q x x :=
  fun m h => ⟨rfl, (hx m).1 h, (hx m).2⟩

theorem mono {x y : SessionM α} (hx : Alike I Q x y) {P : α → Prop} (h : ∀ a, Q a → P a) :
    Alike I P x y := fun m hm => ⟨(hx m hm).1, (hx m hm).2.1, h _ (hx m hm).2.2⟩

theorem pure {a : α} (ha : Q a) : Alike I Q (pure a) (pure a) := fun _ h => ⟨rfl, h, ha⟩

theorem bind {x y : SessionM β} {f g : β → SessionM α} (hx : Alike I P x y)
    (hf : ∀ b, P b → Alike I Q (f b) (g b)) : Alike I Q (x >>= f) (y >>= g) := by
  intro m h
  obtain ⟨same, kept, found⟩ := hx m h
  rw [Engine.bind_apply, Engine.bind_apply, same]
  exact hf _ found _ kept

theorem andThen {x y : SessionM β} {f g : β → SessionM α} (hx : Alike I (fun _ => True) x y)
    (hf : ∀ b, Alike I Q (f b) (g b)) : Alike I Q (x >>= f) (y >>= g) := hx.bind fun b _ => hf b

/-- What is read of the shell has the property too. -/
theorem shellBind {f g : Shell → SessionM α} (hf : ∀ sh, I sh → Alike I Q (f sh) (g sh)) :
    Alike I Q (shell >>= f) (shell >>= g) := fun m h => hf m.shell h m h

theorem tryBind {x y : AttemptM β} {f g : β → AttemptM α} (hx : Alike I (Finds P) x.run y.run)
    (hf : ∀ b, P b → Alike I (Finds Q) (f b).run (g b).run) :
    Alike I (Finds Q) (x >>= f).run (y >>= g).run := by
  rw [ExceptT.run_bind, ExceptT.run_bind]
  refine hx.bind ?_
  rintro (e | b) hb
  · exact pure trivial
  · exact hf b hb

theorem tryAndThen {x y : AttemptM β} {f g : β → AttemptM α}
    (hx : Alike I (Finds fun _ => True) x.run y.run)
    (hf : ∀ b, Alike I (Finds Q) (f b).run (g b).run) :
    Alike I (Finds Q) (x >>= f).run (y >>= g).run := tryBind hx fun b _ => hf b

theorem liftBind {x y : SessionM β} {f g : β → AttemptM α} (hx : Alike I P x y)
    (hf : ∀ b, P b → Alike I (Finds Q) (f b).run (g b).run) :
    Alike I (Finds Q) ((liftM x : AttemptM β) >>= f).run ((liftM y : AttemptM β) >>= g).run :=
  hx.bind hf

theorem lift {x y : SessionM α} (hx : Alike I Q x y) :
    Alike I (Finds Q) (liftM x : AttemptM α).run (liftM y : AttemptM α).run := by
  intro m h
  obtain ⟨same, kept, found⟩ := hx m h
  have step (z : SessionM α) : (liftM z : AttemptM α).run m = (.ok (z m).1, (z m).2) := rfl
  rw [step, step, same]
  exact ⟨rfl, kept, found⟩

theorem liftThen {x y : SessionM β} {f g : β → AttemptM α} (hx : Alike I (fun _ => True) x y)
    (hf : ∀ b, Alike I (Finds Q) (f b).run (g b).run) :
    Alike I (Finds Q) ((liftM x : AttemptM β) >>= f).run ((liftM y : AttemptM β) >>= g).run :=
  hx.liftBind fun b _ => hf b

theorem liftShellBind {f g : Shell → AttemptM α}
    (hf : ∀ sh, I sh → Alike I (Finds Q) (f sh).run (g sh).run) :
    Alike I (Finds Q) ((liftM shell : AttemptM Shell) >>= f).run
      ((liftM shell : AttemptM Shell) >>= g).run := fun m h => hf m.shell h m h

theorem tryOf_does {x : AttemptM α} (hx : Alters (Keeping I) x.run) :
    Alike I (Finds fun _ => True) x.run x.run :=
  .of_does (hx.mono fun r _ => by cases r <;> trivial)

theorem tryMapM {xs : List β} {f g : β → AttemptM α}
    (hf : ∀ b, Alike I (Finds fun _ => True) (f b).run (g b).run) :
    Alike I (Finds fun _ => True) (xs.mapM f).run (xs.mapM g).run := by
  induction xs with
  | nil => exact pure trivial
  | cons b xs ih =>
    rw [List.mapM_cons, List.mapM_cons]
    exact tryAndThen (hf b) fun a => tryAndThen ih fun as => pure trivial

end Alike

/-! ### Steps of the shell itself -/

section
variable (K : Kept I S)
include K

theorem alike_setStatus {status : Int} (hs : S status) :
    Alike I (fun _ => True) (setStatus status) (setStatus status) :=
  fun _ h => ⟨rfl, K.status h hs, trivial⟩

theorem alike_report (e : ShellError) : Alike I S (report e) (report e) :=
  .of_does (K.admits.report (K.range e.isStatus))

theorem alike_expandLine (line : String) :
    Alike I (fun _ => True) (expandLine line) (expandLine line) := by
  intro m h
  refine ⟨rfl, ?_, trivial⟩
  have assigned := Piece.assigned_expandReferences m.shell.vars (m.shell.aliases.expand line)
  change I { m.shell with vars := (expandReferences m.shell.vars (m.shell.aliases.expand line)).2 }
  generalize (expandReferences m.shell.vars (m.shell.aliases.expand line)).2 = w at assigned
  induction assigned with
  | refl => exact h
  | set _ _ identifier _ ih => exact K.admits.set _ identifier _ ih

/-- To run alike is a correspondence of one session with another. -/
theorem correspondence_alike : Correspondence (σ := Machine) (τ := Machine)
    (fun {α} (Q : α → Prop) x y => Alike I Q x y) S where
  pure := .pure
  bind := .bind
  isOver := .of_does (K.admits.apart fun _ => rfl)
  shell := .of_does K.admits.shell
  expandLine := alike_expandLine K
  zero := K.range isStatus_zero
  lastStatus := fun _ h => ⟨rfl, h, K.current h⟩
  setStatus := alike_setStatus K
  report := alike_report K

theorem alike_withForeground {x y : SessionM α} (hx : Alike I Q x y) (pid : Int) :
    Alike I Q (withForeground pid x) (withForeground pid y) := by
  have watch (p : Option Int) :
      Alike I (fun _ => True) (modifyShell fun sh => { sh with foreground := p })
        (modifyShell fun sh => { sh with foreground := p }) :=
    fun m h => ⟨rfl, K.admits.watched m.shell p h, trivial⟩
  exact (watch _).andThen fun _ => hx.bind fun a ha => (watch _).andThen fun _ => .pure ha

theorem alike_runExit (b : Builtin) (argv : List String) :
    Alike I S (Builtin.runExit b argv) (Builtin.runExit b argv) := by
  have leave {status : Int} (hs : S status) : Alike I S (do
      modifyShell fun sh => { sh with exitRequest := some status }
      return status) (do
      modifyShell fun sh => { sh with exitRequest := some status }
      return status) := fun m h => ⟨rfl, K.leaving h _, hs⟩
  have current : Alike I S lastStatus lastStatus := fun m h => ⟨rfl, h, K.current h⟩
  unfold Builtin.runExit
  dsimp only
  split
  · exact current.bind fun _ hs => leave hs
  · split
    · next n _ =>
      have range : IsStatus (n % 256) := by
        unfold IsStatus
        omega
      exact leave (K.range range)
    · have failed := K.admits.fail (K.range isStatus_two) b.name
      exact (Alike.of_does (failed _)).bind fun _ hs => leave hs

theorem alike_builtin {source source' : Builtin.Sourcing}
    (sourced : ∀ path, Alike I (Finds S) (source' path) (source path)) (b : Builtin)
    (argv : List String) : Alike I S (b.run source' argv) (b.run source argv) := by
  have A := K.admits
  have sourcing (b : Builtin) :
      Alike I S (Builtin.runSource source' b argv) (Builtin.runSource source b argv) := by
    unfold Builtin.runSource
    split
    · exact .of_does (A.fail (K.range isStatus_two) _ _)
    · refine (sourced _).bind ?_
      rintro (e | status) hs
      · exact .of_does (A.fail (K.range isStatus_one) _ _)
      · exact .pure hs
  have stays (h : b.stays = true) : Does (Keeping I) S (b.run source argv) :=
    (A.builtin h source argv).mono fun _ => K.range
  cases b with
  | dot | source => exact sourcing _
  | exit | quit => exact alike_runExit K _ argv
  | _ => exact .of_does (stays rfl)

theorem alike_execute {C C' : Commands Machine}
    (single : ∀ c, Alike I (Finds S) (C'.run c).run (C.run c).run)
    (pipeline : ∀ p, Alike I (Finds S) (C'.pipeline p).run (C.pipeline p).run) (ts : List Token) :
    Alike I S (C'.execute ts) (C.execute ts) := by
  have A := K.admits
  rw [execute_machine, execute_machine]
  refine .bind (P := Finds S) ?_ ?_
  · split
    · exact .tryAndThen (.tryOf_does (A.build _)) pipeline
    · exact .tryAndThen (.tryOf_does (A.build _)) single
  · rintro (e | status) hs
    · exact alike_report K e
    · exact .pure hs

/-! ### Processes -/

/-- A copy of the shell with a property of its own runs alike, and the shell itself is put back. -/
theorem alike_runCopy {J : Shell → Prop} {x y : SessionM Int} {copy : Shell} {pid : Int}
    (h : J { copy with pid, forwards := false, foreground := none })
    (hx : Alike J (fun _ => True) x y) :
    Alike I (fun _ => True) (runCopy pid copy x) (runCopy pid copy y) := by
  intro m hm
  refine ⟨?_, (K.admits.runCopy pid copy y m).1 hm, trivial⟩
  rw [runCopy_apply, runCopy_apply]
  dsimp only
  rw [(hx ⟨_, m.host.setOut pid⟩ h).1]

variable {prepare : Preparation}
  (agree : ∀ argv m, I m.shell → (prepare argv).run m = (prepareImage argv).run m)

section
include agree

theorem alike_prepare (argv : List String) :
    Alike I (Finds fun _ => True) (prepare argv).run (prepareImage argv).run := by
  intro m h
  rw [agree argv m h]
  exact Alike.tryOf_does (K.admits.prepareImage argv) m h

/-- What follows the preparation of a program is the same. -/
theorem alike_runExternal (c : Command) :
    Alike I (Finds S) (runExternalBy prepare c).run (runExternalBy prepareImage c).run := by
  intro m h
  obtain ⟨kept, found⟩ := (does_runExternal c).weaken K.of_beside m
  refine ⟨?_, kept h, ?_⟩
  · rw [runExternalBy, runExternalBy, ExceptT.run_bind, ExceptT.run_bind, Engine.bind_apply,
      Engine.bind_apply, agree c.argv m h]
  · have range (r : Except ShellError Int) (hr : Finds IsStatus r) : Finds S r := by
      cases r with
      | error e => trivial
      | ok status => exact K.range hr
    exact range _ found

theorem alike_planBackground (ts : List Token) : Alike I (Finds fun _ => True)
    (planBackgroundBy prepare ts).run (planBackgroundBy prepareImage ts).run := by
  unfold planBackgroundBy
  split
  · exact .pure trivial
  refine .tryAndThen (.tryOf_does (K.admits.build _)) fun c => ?_
  split
  · exact .pure trivial
  · exact .tryAndThen (alike_prepare K agree c.argv) fun image => .pure trivial

end

/-! What holds of a shell passes to copies of it, as far as they have files of their own. -/

variable {J : Stdio → Shell → Prop}
  (passes : ∀ {sh}, I sh → ∀ stdio interactive pid,
    J stdio { sh with stdio, interactive, pid, forwards := false, foreground := none })
include passes

section Pipelines

variable {sources sources' : Sources}
  (builtins : ∀ stdio (b : Builtin) argv,
    Alike (J stdio) (fun _ => True) (b.run (sources' stdio) argv) (b.run (sources stdio) argv))
include builtins

theorem alike_runStage (pid : Int) (stdio : Stdio) (c : Command) (stage : Stage) :
    Alike I (fun _ => True) (runStage (sources' stdio) pid stdio c stage)
      (runStage (sources stdio) pid stdio c stage) := by
  have A := K.admits
  cases stage with
  | assignment =>
    refine .shellBind fun sh h => alike_runCopy K (passes h stdio sh.interactive pid) ?_
    exact .pure trivial
  | builtin b =>
    refine .shellBind fun sh h => alike_runCopy K (passes h stdio sh.interactive pid) ?_
    exact builtins stdio b c.argv
  | program image => exact .of_does (A.andThen A.shell fun _ => A.runImage _ _ _ _)

theorem alike_runStages (files : Nat → Stdio) (stages : List (Int × Command × Stage))
    (index : Nat) :
    Alike I (fun _ => True) (runStages sources' files index stages)
      (runStages sources files index stages) := by
  induction stages generalizing index with
  | nil => exact .pure trivial
  | cons s rest ih => exact (alike_runStage K passes builtins _ _ _ _).andThen fun _ => ih _

theorem alike_runBetween (stages : List (Command × Stage))
    (ends : Option Handle × Option Handle) :
    Alike I (Finds S) (runBetween sources' stages ends).run (runBetween sources stages ends).run := by
  have A := K.admits
  have spawned (s : Command × Stage) :
      Alters (Keeping I) (do return (← spawn false, s) : AttemptM (Int × Command × Stage)).run :=
    (A.liftThen (Q := fun _ => True) (A.spawn false) fun _ => A.tryPure trivial).alters
  have waited (stages : List (Int × Command × Stage)) :
      Does (Keeping I) (∀ s ∈ ·, IsStatus s) (waitForStages stages) :=
    (does_waitForStages stages).weaken K.of_beside
  refine .liftThen (.of_does (A.openPipes _)) fun pipes => .liftThen (.of_does A.flush) fun _ => ?_
  refine .tryAndThen (.tryOf_does (A.tryMapM spawned)) fun stages => .liftShellBind fun sh _ => ?_
  refine .liftBind (P := (∀ s ∈ ·, IsStatus s)) (alike_withForeground K ?_ _) fun statuses hs => ?_
  · exact (alike_runStages K passes builtins _ _ _).andThen fun _ => .of_does (waited stages)
  · exact .liftShellBind fun sh _ => .pure (K.range (isStatus_status hs _))

include agree in
theorem alike_runPipeline (p : Pipeline) :
    Alike I (Finds S) (runPipelineBy prepare sources' p).run
      (runPipelineBy prepareImage sources p).run := by
  have planned (c : Command) : Alike I (Finds fun _ => True)
      (do return (c, ← planStageBy prepare c) : AttemptM (Command × Stage)).run
      (do return (c, ← planStageBy prepareImage c) : AttemptM (Command × Stage)).run := by
    refine .tryAndThen ?_ fun stage => .pure trivial
    unfold planStageBy
    cases c.assignment? with
    | some => exact .pure trivial
    | none =>
      cases Builtin.ofName? c.name with
      | some => exact .pure trivial
      | none => exact .tryAndThen (alike_prepare K agree c.argv) fun image => .pure trivial
  refine .tryAndThen (.tryMapM planned) fun stages => ?_
  exact .tryAndThen (.tryOf_does (K.admits.openEnds p)) (alike_runBetween K passes builtins stages)

end Pipelines

include agree in
theorem alike_startBackground {chain chain' : Stdio → List Token → SessionM Int} (ts : List Token)
    (chains : ∀ stdio, Alike (J stdio) (fun _ => True) (chain' stdio ts) (chain stdio ts)) :
    Alike I (fun _ => True) (startBackgroundBy prepare chain' ts).run
      (startBackgroundBy prepareImage chain ts).run := by
  have A := K.admits
  have launched {copy : Shell} (h : I copy) (pid : Int) (launch : Launch) (stdio : Stdio) :
      Alike I (fun _ => True) (runLaunch (chain' · ts) pid copy launch stdio)
        (runLaunch (chain · ts) pid copy launch stdio) := by
    cases launch with
    | program c image =>
      simp only [runLaunch]
      exact .of_does (A.runImage _ _ _ _)
    | copy =>
      simp only [runLaunch]
      exact alike_runCopy K (passes h stdio false pid) (chains stdio)
  refine Alike.mono (Q := Finds fun _ => True) ?_ fun _ _ => trivial
  refine .tryAndThen (alike_planBackground K agree ts) fun launch => ?_
  refine .tryAndThen (.tryOf_does (A.openForLaunch launch)) fun files => ?_
  refine .liftThen (.of_does A.flush) fun _ => .liftShellBind fun copy h => ?_
  refine .liftThen (.of_does (A.spawn true)) fun pid => ?_
  refine .liftThen (.of_does (A.modifyJobs _)) fun _ => ?_
  refine .liftThen (fun m h => ⟨rfl, K.background h pid, trivial⟩) fun _ => ?_
  refine .liftThen (.of_does (A.say _)) fun _ => .lift ?_
  refine .andThen (.of_does (A.onHost _)) fun out => .andThen (.of_does (A.onHost _)) fun err => ?_
  exact (launched h pid launch _).andThen fun _ => .of_does (A.modifyHost _)

end

/-! ### Sessions whose files do not matter -/

section
variable (E : Enduring I S) {source source' : Builtin.Sourcing}
  (sourced : ∀ path, Alike I (Finds S) (source' path) (source path)) {prepare : Preparation}
  (agree : ∀ argv m, I m.shell → (prepare argv).run m = (prepareImage argv).run m)
include E sourced

theorem alike_runBuiltin (b : Builtin) (c : Command) :
    Alike I (Finds S) (runBuiltin source' b c).run (runBuiltin source b c).run := by
  have K := kept_of_enduring E
  have redirected (sh : Shell) (stdio : Stdio) : Keeping I sh { sh with stdio } :=
    fun h => E.other h rfl rfl
  refine .liftShellBind fun sh _ => .tryAndThen ?_ fun _ => ?_
  · exact .tryOf_does (K.admits.redirectForBuiltin redirected c sh.stdio)
  refine (alike_builtin K sourced b c.argv).liftBind fun status hs => ?_
  refine .liftThen (.of_does K.admits.flush) fun _ => ?_
  dsimp only
  split
  · exact .liftThen (.of_does (K.admits.restore redirected _)) fun _ => .pure hs
  · exact .pure hs

include agree

theorem alike_runCommand (c : Command) :
    Alike I (Finds S) ((commandsBy prepare source').run c).run
      ((commandsBy prepareImage source).run c).run := by
  rw [run_commandsBy, run_commandsBy]
  cases assigns : c.assignment? with
  | some assignment =>
    have identifier := Command.isIdentifier_of_assignment? assigns
    exact fun m h => ⟨rfl, E.set h identifier _, E.range isStatus_zero⟩
  | none =>
    cases Builtin.ofName? c.name with
    | some b => exact alike_runBuiltin E sourced b c
    | none => exact alike_runExternal (kept_of_enduring E) agree c

theorem alike_engine : Engine.Agree (fun {α} (Q : α → Prop) x y => Alike I Q x y) S
    (engineBy prepare source') (engineBy prepareImage source) := by
  have K := kept_of_enduring E
  have passes {sh : Shell} (h : I sh) (stdio : Stdio) (interactive : Bool) (pid : Int) :
      I { sh with stdio, interactive, pid, forwards := false, foreground := none } :=
    E.other h rfl rfl
  have executed (ts : List Token) : Alike I S ((commandsBy prepare source').execute ts)
      ((commandsBy prepareImage source).execute ts) := by
    refine alike_execute K (alike_runCommand E sourced agree) (fun p => ?_) ts
    refine alike_runPipeline (J := fun _ => I) K agree passes (fun _ b argv => ?_) p
    exact (alike_builtin K sourced b argv).mono fun _ _ => trivial
  refine ⟨executed, fun ts => ?_⟩
  refine alike_startBackground (J := fun _ => I) K agree passes ts fun _ => ?_
  exact ((correspondence_alike K).runChain executed _).mono fun _ _ => trivial

end
end SessionM
end JobShell
