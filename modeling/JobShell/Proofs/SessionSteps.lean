import JobShell.Proofs.Carriers
import JobShell.Proofs.PrintingSteps

/-! Steps of a session are put together from simple ones. A property of steps and of what they give
that holds of the simple ones, and of one step after another, holds of what is said, of attempts,
and of everything that is done with files before a command runs. -/
namespace JobShell

/-- A number is the exit status of a command. -/
def IsStatus (n : Int) : Prop := 0 ≤ n ∧ n ≤ 255

instance (n : Int) : Decidable (IsStatus n) := inferInstanceAs (Decidable (_ ∧ _))

theorem ShellError.isStatus (e : ShellError) : IsStatus e.status := by
  cases e <;> simp [status, IsStatus]

theorem Outcome.isStatus (outcome : Outcome) : IsStatus outcome.status := by
  unfold IsStatus
  cases outcome with
  | exited code =>
    have small : code.toNat < 256 := code.toNat_lt
    simp only [status]
    omega
  | killed signal | stopped signal =>
    have valid := signal.valid
    simp only [status]
    omega

namespace Host

theorem toProcessTable_openForReading {s t : Host} {dir : NodeId} {path : String} {h : Handle}
    (opened : s.openForReading dir path = .ok (h, t)) : t.toProcessTable = s.toProcessTable := by
  unfold openForReading at opened
  split at opened
  · cases opened
  · cases opened
    rfl

theorem toProcessTable_openForWriting {s t : Host} {dir : NodeId} {path : String} {append : Bool}
    {h : Handle} (opened : s.openForWriting dir path append = .ok (h, t)) :
    t.toProcessTable = s.toProcessTable := by
  unfold openForWriting at opened
  split at opened
  · cases opened
  · cases opened
    rfl

theorem toProcessTable_write {s t : Host} {h : Handle} {b : Bytes} (written : s.write h b = .ok t) :
    t.toProcessTable = s.toProcessTable := by
  unfold write at written
  split at written
  · cases written
  split at written
  case h_2 =>
    split at written
    · cases written
      rfl
    · cases written
  all_goals
    cases written
    try rfl

theorem toProcessTable_attempt (s : Host) (h : Handle) (b : Bytes) :
    (s.attempt h b).toProcessTable = s.toProcessTable := by
  unfold attempt
  split
  · next written => exact toProcessTable_write written
  · rfl

theorem toProcessTable_complain (s : Host) (pid : Int) (h : Handle) (text : String) :
    (s.complain pid h text).toProcessTable = s.toProcessTable := by
  unfold complain
  split
  · next written => exact toProcessTable_write written
  · split <;> rfl

theorem toProcessTable_tryWrite {s t : Host} {h : Handle} {b : Bytes} {u : Unit}
    (written : ((s.write h b).map fun s => ((), s)) = .ok (u, t)) :
    t.toProcessTable = s.toProcessTable := by
  cases done : s.write h b with
  | error e => simp [done, Except.map] at written
  | ok s' =>
    simp only [done, Except.map, Except.ok.injEq, Prod.mk.injEq] at written
    exact written.2 ▸ toProcessTable_write done

theorem toProcessTable_readAll {s t : Host} {h : Handle} {b : Bytes}
    (read : s.readAll h = .ok (b, t)) : t.toProcessTable = s.toProcessTable := by
  unfold readAll at read
  split at read
  · cases read
  split at read <;> cases read <;> rfl

end Host

namespace SessionM

/-- A copy of the shell starts from the host as it is, and leaves it to the shell. -/
theorem runCopy_apply (pid : Int) (copy : Shell) (body : SessionM Int) (m : Machine) :
    runCopy pid copy body m =
      if (m.host.process? pid).all Process.isEnded then ((), m)
      else
        let ran := body
          ⟨{ copy with pid, forwards := false, foreground := none }, m.host.setOut pid⟩
        endCopy pid m.shell ran.1 ran.2 := by
  change (if _ then _ else _ : SessionM Unit) m = _
  split <;> rfl

theorem shell_endCopy (pid : Int) (parent : Shell) (status : Int) (m : Machine) :
    (endCopy pid parent status m).2.shell = parent := by
  rw [endCopy, Engine.bind_apply]
  cases (copyEnding pid status m).1 <;> rfl

theorem shell_runCopy (pid : Int) (copy : Shell) (body : SessionM Int) (m : Machine) :
    (runCopy pid copy body m).2.shell = m.shell := by
  rw [runCopy_apply]
  split
  · rfl
  · exact shell_endCopy _ _ _ _

theorem run_commandsBy (prepare : Preparation) (source : Builtin.Sourcing) (c : Command) :
    (commandsBy prepare source).run c =
      match c.assignment?, Builtin.ofName? c.name with
      | some (name, value), _ => do
        modifyVars (·.set name value)
        return 0
      | none, some b => runBuiltin source b c
      | none, none => runExternalBy prepare c := by
  unfold Commands.run
  cases c.assignment? with
  | some => rfl
  | none => cases Builtin.ofName? c.name <;> rfl

theorem runCommand_eq (source : Builtin.Sourcing) (c : Command) :
    runCommand source c =
      match c.assignment?, Builtin.ofName? c.name with
      | some (name, value), _ => do
        modifyVars (·.set name value)
        return 0
      | none, some b => runBuiltin source b c
      | none, none => runExternal c := run_commandsBy prepareImage source c

theorem execute_machine (C : Commands Machine) (ts : List Token) :
    C.execute ts = (do
      let attempt : AttemptM Int :=
        if ts.any (·.kind = .pipe) then do C.pipeline (← build (Pipeline.build · ts))
        else do C.run (← build (Command.build · ts))
      match ← attempt.run with
      | .ok status => return status
      | .error e => report e) := rfl

theorem executePipeline_eq (source : Builtin.Sourcing) (ts : List Token) :
    executePipeline source ts = (do
      let attempt : AttemptM Int :=
        if ts.any (·.kind = .pipe) then do runPipeline source (← build (Pipeline.build · ts))
        else do runCommand source (← build (Command.build · ts))
      match ← attempt.run with
      | .ok status => return status
      | .error e => report e) := execute_machine _ ts

theorem isStatus_zero : IsStatus 0 := by decide

theorem isStatus_one : IsStatus 1 := by decide

theorem isStatus_two : IsStatus 2 := by decide

/-- A property of steps, and of what they give, that holds of steps that read the state, that print
and that complain, and of one step after another. Something may be known of every state. -/
structure OfSteps (C : {α : Type} → (α → Prop) → SessionM α → Prop) (known : Machine → Prop) :
    Prop where
  pure : ∀ {α : Type} {Q : α → Prop} {a : α}, Q a → C Q (pure a)
  bind : ∀ {α β : Type} {P : β → Prop} {Q : α → Prop} {x : SessionM β} {f : β → SessionM α},
    C P x → (∀ b, P b → C Q (f b)) → C Q (x >>= f)
  /-- Whatever can be said of the result alone can be added. -/
  gives : ∀ {α : Type} {P Q : α → Prop} {x : SessionM α}, C P x → (∀ m, Q (x m).1) → C Q x
  get : C known get
  unwritten : ∀ f : Shell → Bytes,
    C (fun _ => True) (modifyShell fun sh => { sh with unwritten := f sh })
  writeDirectly : ∀ b, C (fun _ => True) (writeDirectly b)
  complain : ∀ text, C (fun _ => True) (complain text)
  record : ∀ text, C (fun _ => True) (record text)

namespace OfSteps

variable {C : {α : Type} → (α → Prop) → SessionM α → Prop} {known : Machine → Prop}
variable {α β : Type} {P : β → Prop} {Q : α → Prop}

theorem ite (_ : OfSteps C known) {x y : SessionM α} {c : Prop} [Decidable c] (hx : C Q x)
    (hy : C Q y) : C Q (if c then x else y) := by
  split
  · exact hx
  · exact hy

variable (h : OfSteps C known)
include h

theorem mono {Q' : α → Prop} {x : SessionM α} (hx : C Q x) (imp : ∀ a, Q a → Q' a) : C Q' x := by
  have same : C Q' (x >>= Pure.pure) := h.bind hx fun a ha => h.pure (imp a ha)
  rwa [bind_pure] at same

/-- A step whose result does not matter. -/
theorem anyhow {x : SessionM α} (hx : C Q x) : C (fun _ => True) x := h.mono hx fun _ _ => trivial

/-- A step whose result does not matter goes before another one. -/
theorem andThen {x : SessionM β} {f : β → SessionM α} (hx : C P x) (hf : ∀ b, C Q (f b)) :
    C Q (x >>= f) := h.bind hx fun b _ => hf b

theorem thenReturn {x : SessionM β} {a : α} (hx : C P x) (ha : Q a) :
    C Q (x >>= fun _ => Pure.pure a) := h.andThen hx fun _ => h.pure ha

theorem forM {xs : List β} {f : β → SessionM PUnit} (hf : ∀ b, C (fun _ => True) (f b)) :
    C (fun _ => True) (xs.forM f) := by
  induction xs with
  | nil => exact h.pure trivial
  | cons b xs ih => exact h.andThen (hf b) fun _ => ih

/-- Something is read of the state. -/
theorem read (f : Machine → α) :
    C (fun a => ∃ m, known m ∧ f m = a) (do return f (← MonadState.get)) :=
  h.bind h.get fun m hm => h.pure ⟨m, hm, rfl⟩

theorem shell : C (fun sh => ∃ m, known m ∧ m.shell = sh) shell := h.read Machine.shell

theorem host : C (fun s => ∃ m, known m ∧ m.host = s) host := h.read Machine.host

theorem vars : C (fun v => ∃ m, known m ∧ m.shell.vars = v) vars := h.read fun m => m.shell.vars

theorem lastStatus : C (fun _ => True) lastStatus := h.anyhow (h.read fun m => m.shell.vars.status)

theorem isOver : C (fun _ => True) isOver := h.anyhow (h.read Machine.isOver)

theorem isHalted : C (fun _ => True) isHalted := h.anyhow (h.read Machine.isHalted)

/-! ### Printing -/

theorem ofPrinting : OfPrinting fun {α} (x : SessionM α) => C (fun _ => True) x where
  pure _ := h.pure trivial
  bind := h.andThen
  shell := h.anyhow h.shell
  unwritten := h.unwritten
  writeDirectly := h.writeDirectly

theorem flush : C (fun _ => True) flush := h.ofPrinting.flush

theorem print (b : Bytes) : C (fun _ => True) (print b) := h.ofPrinting.print b

theorem say (pieces : List String) : C (fun _ => True) (say pieces) := h.ofPrinting.say pieces

theorem copyEnding (pid : Int) (status : Int) : C (fun _ => True) (copyEnding pid status) := by
  refine h.andThen h.host fun s => h.ite (h.pure trivial) (h.ite ?_ (h.pure trivial))
  exact h.thenReturn h.flush trivial

/-- Notices are printed line by line. -/
theorem announce (notices : List String) : C (fun _ => True) (do
    if notices.isEmpty then return
    notices.forM fun n => SessionM.say [n, "\n"]
    let _ ← SessionM.flush) :=
  h.ite (h.pure trivial) (h.andThen (h.forM fun _ => h.say _) fun _ => h.thenReturn h.flush trivial)

theorem report {Q : Int → Prop} {e : ShellError} (he : Q e.status) : C Q (report e) :=
  h.andThen (h.record _) fun _ => h.thenReturn (h.complain _) he

theorem fail {Q : Int → Prop} {status : Int} (hs : Q status) (name message : String) :
    C Q (fail name message status) := h.thenReturn (h.complain _) hs

/-! ### Attempts -/

variable {T : Except ShellError β → Prop} {R : Except ShellError α → Prop}

/-- An attempt goes on with what has been found. -/
theorem tryBind {x : AttemptM β} {f : β → AttemptM α} (hx : C T x.run)
    (hf : ∀ b, T (.ok b) → C R (f b).run) (failed : ∀ e, R (.error e)) : C R (x >>= f).run := by
  rw [ExceptT.run_bind]
  refine h.bind hx fun r hr => ?_
  cases r with
  | ok b => exact hf b hr
  | error e => exact h.pure (failed e)

theorem tryThen {x : AttemptM β} {f : β → AttemptM α} (hx : C T x.run)
    (hf : ∀ b, C (fun _ => True) (f b).run) : C (fun _ => True) (x >>= f).run :=
  h.tryBind hx (fun b _ => hf b) fun _ => trivial

theorem tryPure {a : α} : C (fun _ => True) (Pure.pure a : AttemptM α).run := h.pure trivial

theorem tryThrow {e : ShellError} : C (fun _ => True) (throw e : AttemptM α).run := h.pure trivial

theorem lift {x : SessionM β} (hx : C P x) : C (fun _ => True) (liftM x : AttemptM β).run :=
  h.bind hx fun b _ => h.pure (a := Except.ok b) trivial

theorem liftBind {x : SessionM β} {f : β → AttemptM α} (hx : C P x)
    (hf : ∀ b, P b → C R (f b).run) : C R ((liftM x : AttemptM β) >>= f).run := h.bind hx hf

theorem liftThen {x : SessionM β} {f : β → AttemptM α} (hx : C P x) (hf : ∀ b, C R (f b).run) :
    C R ((liftM x : AttemptM β) >>= f).run := h.bind hx fun b _ => hf b

/-- Something is attempted with one thing after another: there is a result for each of them. -/
theorem tryForall {S : α → Prop} {f : β → AttemptM α} (xs : List β)
    (hf : ∀ b, C (fun r => ∀ a, r = .ok a → S a) (f b).run) :
    C (fun r => ∀ found, r = .ok found → found.length = xs.length ∧ ∀ a ∈ found, S a)
      (xs.mapM f).run := by
  induction xs with
  | nil =>
    refine h.pure fun found same => ?_
    cases same
    simp
  | cons b xs ih =>
    rw [List.mapM_cons]
    refine h.tryBind (hf b) (fun a ha => ?_) (by simp)
    refine h.tryBind ih (fun later hlater => h.pure fun found same => ?_) (by simp)
    cases same
    obtain ⟨length, all⟩ := hlater later rfl
    exact ⟨congrArg (· + 1) length, List.forall_mem_cons.2 ⟨ha a rfl, all⟩⟩

theorem tryMapM {xs : List β} {f : β → AttemptM α} (hf : ∀ b, C (fun _ => True) (f b).run) :
    C (fun _ => True) (xs.mapM f).run :=
  h.anyhow (h.tryForall (S := fun _ => True) xs fun b => h.mono (hf b) fun _ _ _ _ => trivial)

theorem tryOption {o : Option β} {f : β → AttemptM α} (hf : ∀ b, C (fun _ => True) (f b).run) :
    C (fun _ => True) (o.mapM f).run := by
  cases o with
  | none => exact h.tryPure
  | some b => exact h.tryThen (hf b) fun _ => h.tryPure

theorem prepareImage (argv : List String) : C (fun _ => True) (prepareImage argv).run := by
  refine h.liftThen h.get fun m => ?_
  dsimp only
  split
  · exact h.tryPure
  · exact h.tryThrow

theorem planStage (c : Command) : C (fun _ => True) (planStage c).run := by
  unfold SessionM.planStage planStageBy
  split
  · exact h.tryPure
  · exact h.tryPure
  · exact h.tryThen (h.prepareImage _) fun _ => h.tryPure

end OfSteps

/-! ### Files -/

/-- Such a property that also holds of whatever leaves the processes of a host alone. -/
structure OfFiles (C : {α : Type} → (α → Prop) → SessionM α → Prop) (known : Machine → Prop) :
    Prop extends OfSteps C known where
  onHost : ∀ {α : Type} {f : Host → α × Host},
    (∀ s, (f s).2.toProcessTable = s.toProcessTable) → C (fun _ => True) (onHost f)
  tryHost : ∀ {ε α : Type} {f : Host → Except ε (α × Host)},
    (∀ s a t, f s = .ok (a, t) → t.toProcessTable = s.toProcessTable) →
      C (fun _ => True) (tryHost f)

namespace OfFiles

variable {C : {α : Type} → (α → Prop) → SessionM α → Prop} {known : Machine → Prop}
variable {α : Type}

variable (h : OfFiles C known)
include h

theorem modifyHost {f : Host → Host} (same : ∀ s, (f s).toProcessTable = s.toProcessTable) :
    C (fun _ => True) (modifyHost f) := h.onHost (f := fun s => ((), f s)) same

theorem halt (cause : Halt) : C (fun _ => True) (halt cause) :=
  h.andThen h.shell fun _ => h.modifyHost fun _ => rfl

theorem proclaim (text : String) : C (fun _ => True) (proclaim text) := by
  refine h.andThen (h.print _) fun printed => ?_
  cases printed with
  | ok => exact h.pure trivial
  | error e => exact h.ite (h.halt _) (h.pure trivial)

theorem openInput (path : String) : C (fun _ => True) (openInput path).run := by
  refine h.liftThen h.shell fun sh => h.liftThen (h.tryHost ?_) fun opened => ?_
  · intro s a t opened
    exact Host.toProcessTable_openForReading opened
  · cases opened with
    | ok handle => exact h.tryPure
    | error e => exact h.tryThrow

theorem openOutput (target : Target) : C (fun _ => True) (openOutput target).run := by
  refine h.liftThen h.shell fun sh => h.liftThen (h.tryHost ?_) fun opened => ?_
  · intro s a t opened
    exact Host.toProcessTable_openForWriting opened
  · cases opened with
    | ok handle => exact h.tryPure
    | error e => exact h.tryThrow

theorem build (act : Surroundings → BuildM α) : C (fun _ => True) (build act).run := by
  refine h.liftThen h.get fun m => ?_
  dsimp only
  refine h.liftThen (h.modifyHost fun _ => rfl) fun _ => ?_
  split
  · exact h.tryPure
  · exact h.tryThrow

theorem planBackground (ts : List Token) : C (fun _ => True) (planBackground ts).run := by
  refine h.ite h.tryPure (h.tryThen (h.build _) fun c => h.ite h.tryPure ?_)
  exact h.tryThen (h.prepareImage _) fun _ => h.tryPure

theorem openForLaunch (launch : Launch) : C (fun _ => True) (openForLaunch launch).run := by
  cases launch with
  | copy => exact h.tryThen (h.openInput _) fun _ => h.tryPure
  | program c image =>
    refine h.tryThen (h.tryOption h.openInput) fun input => ?_
    refine h.tryThen (h.tryOption h.openOutput) fun output => ?_
    cases input with
    | none => exact h.tryThen (h.openInput _) fun _ => h.tryPure
    | some handle => exact h.tryPure

theorem openEnds (p : Pipeline) : C (fun _ => True) (openEnds p).run :=
  h.tryThen (h.tryOption h.openInput) fun _ =>
    h.tryThen (h.tryOption h.openOutput) fun _ => h.tryPure

theorem openPipes (n : Nat) : C (fun _ => True) (openPipes n) := by
  induction n with
  | zero => exact h.pure trivial
  | succ n ih =>
    exact h.andThen (h.onHost fun _ => rfl) fun _ => h.andThen ih fun _ => h.pure trivial

theorem writeTo (f : Handle) (b : Bytes) : C (fun _ => True) (writeTo f b) :=
  h.modifyHost fun s => s.toProcessTable_attempt f b

/-- What a program does concerns files only. -/
theorem perform (stdio : Stdio) (dir : NodeId) (image : Image) (program : Program) :
    C (fun _ => True) (perform stdio dir image program) := by
  refine h.andThen (h.onHost fun s => ?_) fun input => ?_
  · split
    · next taken => exact Host.toProcessTable_readAll taken
    · rfl
  · refine h.andThen (h.forM fun w => h.writeTo _ _) fun _ => ?_
    exact h.thenReturn (h.forM fun path => h.modifyHost fun _ => rfl) trivial

section Redirection

variable (redirected : ∀ f : Stdio → Stdio,
  C (fun _ => True) (modifyShell fun sh => { sh with stdio := f sh.stdio }))
include redirected

theorem restore (stdio : Stdio) : C (fun _ => True) (restore stdio) :=
  h.andThen h.flush fun _ => redirected fun _ => stdio

theorem redirectForBuiltin (c : Command) (own : Stdio) :
    C (fun _ => True) (redirectForBuiltin c own).run := by
  unfold SessionM.redirectForBuiltin
  dsimp only
  split
  on_goal 1 =>
    refine h.tryThen (h.openInput _) fun f => ?_
    refine h.liftThen (redirected fun stdio => { stdio with input := f }) fun _ => ?_
  -- With or without an input, the output is redirected in the same way.
  all_goals
    split
    · refine h.liftThen (h.openOutput _) fun opened => ?_
      cases opened with
      | error e =>
        exact h.ite (h.liftThen (h.restore redirected own) fun _ => h.tryThrow) h.tryThrow
      | ok f =>
        refine h.liftThen h.flush fun _ => ?_
        exact h.lift (redirected fun stdio => { stdio with output := f })
    · exact h.tryPure

end Redirection

end OfFiles
end SessionM
end JobShell
