import JobShell.Proofs.Carriers
import JobShell.Proofs.SessionRules

/-! What steps of a session change of the shell, and what they give. Which changes are in order is
said by a relation between the shell before and after a step; printing always is. -/
namespace JobShell

namespace SessionM

variable {α β ε : Type} {R : Shell → Shell → Prop} {P : β → Prop} {Q : α → Prop}

/-- A step changes the shell as a relation allows, and what it gives has a property. -/
def Does (R : Shell → Shell → Prop) (Q : α → Prop) (x : SessionM α) : Prop :=
  ∀ m, R m.shell (x m).2.shell ∧ Q (x m).1

/-- A step changes the shell as a relation allows. -/
abbrev Alters (R : Shell → Shell → Prop) (x : SessionM α) : Prop := Does R (fun _ => True) x

theorem Does.mono {Q' : α → Prop} {x : SessionM α} (hx : Does R Q x) (imp : ∀ a, Q a → Q' a) :
    Does R Q' x := fun m => ⟨(hx m).1, imp _ (hx m).2⟩

theorem Does.weaken {R' : Shell → Shell → Prop} {x : SessionM α} (hx : Does R Q x)
    (imp : ∀ a b, R a b → R' a b) : Does R' Q x := fun m => ⟨imp _ _ (hx m).1, (hx m).2⟩

theorem Does.alters {x : SessionM α} (hx : Does R Q x) : Alters R x := hx.mono fun _ _ => trivial

theorem Does.ite {x y : SessionM α} {c : Prop} [Decidable c] (hx : Does R Q x) (hy : Does R Q y) :
    Does R Q (if c then x else y) := by
  split
  · exact hx
  · exact hy

theorem alters_modifyShell {f : Shell → Shell} (allowed : ∀ sh, R sh (f sh)) :
    Alters R (modifyShell f) := fun m => ⟨allowed m.shell, trivial⟩

/-- A relation that allows nothing to change, one change after another, and printing. -/
structure Tolerant (R : Shell → Shell → Prop) : Prop where
  refl : ∀ sh, R sh sh
  trans : ∀ {a b c}, R a b → R b c → R a c
  printed : ∀ sh b, R sh { sh with unwritten := b }

namespace Tolerant

variable (h : Tolerant R)
include h

theorem pure {a : α} (ha : Q a) : Does R Q (pure a) := fun m => ⟨h.refl m.shell, ha⟩

theorem bind {x : SessionM β} {f : β → SessionM α} (hx : Does R P x)
    (hf : ∀ b, P b → Does R Q (f b)) : Does R Q (x >>= f) := fun m =>
  ⟨h.trans (hx m).1 (hf _ (hx m).2 _).1, (hf _ (hx m).2 _).2⟩

/-- A step whose result does not matter goes before another one. -/
theorem andThen {x : SessionM β} {f : β → SessionM α} (hx : Alters R x)
    (hf : ∀ b, Does R Q (f b)) : Does R Q (x >>= f) := h.bind hx fun b _ => hf b

/-- A step that does not touch the shell. -/
theorem apart {x : SessionM α} (same : ∀ m, (x m).2.shell = m.shell) : Alters R x :=
  fun m => ⟨(same m).symm ▸ h.refl m.shell, trivial⟩

/-! ### Attempts -/

theorem tryPure {a : α} (ha : Q a) : Does R (Finds Q) (Pure.pure a : AttemptM α).run :=
  h.pure (Q := Finds Q) ha

theorem tryThrow (e : ShellError) : Does R (Finds Q) (throw e : AttemptM α).run :=
  h.pure (Q := Finds Q) trivial

/-- What follows an attempt matters only for what that finds. -/
theorem tryBindAt {x : AttemptM β} {f : β → AttemptM α} (hx : Alters R x.run) {m : Machine}
    (hf : ∀ b, (x.run m).1 = .ok b → Does R (Finds Q) (f b).run) :
    R m.shell ((x >>= f).run m).2.shell ∧ Finds Q ((x >>= f).run m).1 := by
  have first := (hx m).1
  rw [ExceptT.run_bind, Engine.bind_apply]
  cases found : (x.run m).1 with
  | error e => exact ⟨first, trivial⟩
  | ok b => exact ⟨h.trans first (hf b found _).1, (hf b found _).2⟩

theorem tryAndThen {x : AttemptM β} {f : β → AttemptM α} (hx : Alters R x.run)
    (hf : ∀ b, Does R (Finds Q) (f b).run) : Does R (Finds Q) (x >>= f).run :=
  fun _ => h.tryBindAt hx fun b _ => hf b

theorem liftBind {x : SessionM β} {f : β → AttemptM α} (hx : Does R P x)
    (hf : ∀ b, P b → Does R (Finds Q) (f b).run) :
    Does R (Finds Q) ((liftM x : AttemptM β) >>= f).run := h.bind hx hf

theorem liftThen {x : SessionM β} {f : β → AttemptM α} (hx : Alters R x)
    (hf : ∀ b, Does R (Finds Q) (f b).run) :
    Does R (Finds Q) ((liftM x : AttemptM β) >>= f).run := h.liftBind hx fun b _ => hf b

/-! ### The host -/

theorem get : Alters R get := h.apart fun _ => rfl

theorem shell : Alters R shell := h.apart fun _ => rfl

theorem host : Alters R host := h.apart fun _ => rfl

theorem modifyHost (f : Host → Host) : Alters R (modifyHost f) := h.apart fun _ => rfl

theorem onHost (f : Host → α × Host) : Alters R (onHost f) := h.apart fun _ => rfl

theorem modifyProcesses (f : ProcessTable → ProcessTable) : Alters R (modifyProcesses f) :=
  h.apart fun _ => rfl

theorem onProcesses (f : ProcessTable → α × ProcessTable) : Alters R (onProcesses f) :=
  h.apart fun _ => rfl

theorem tryHost (f : Host → Except ε (α × Host)) : Alters R (tryHost f) := by
  refine h.apart fun m => ?_
  rw [tryHost_apply]
  split <;> rfl

/-! ### Printing and preparations -/

theorem ofFiles : OfFiles (fun {α} (Q : α → Prop) (x : SessionM α) => Does R Q x)
    fun _ => True where
  pure := h.pure
  bind := h.bind
  gives hx found := fun m => ⟨(hx m).1, found m⟩
  get := h.get
  unwritten _ := alters_modifyShell fun sh => h.printed sh _
  writeDirectly _ := h.andThen h.shell fun _ => h.tryHost _
  complain _ := h.andThen h.shell fun _ => h.modifyHost _
  record _ := h.andThen h.shell fun sh => by
    split
    · exact h.modifyHost _
    · exact h.pure trivial
  onHost _ := h.onHost _
  tryHost _ := h.tryHost _

theorem writeDirectly (b : Bytes) : Alters R (writeDirectly b) := h.ofFiles.writeDirectly b

theorem flush : Alters R flush := h.ofFiles.flush

theorem say (pieces : List String) : Alters R (say pieces) := h.ofFiles.say pieces

theorem report {Q : Int → Prop} {e : ShellError} (he : Q e.status) : Does R Q (report e) :=
  h.ofFiles.report he

theorem fail {Q : Int → Prop} {status : Int} (hs : Q status) (name message : String) :
    Does R Q (fail name message status) := h.ofFiles.fail hs name message

theorem tryMapM {xs : List β} {f : β → AttemptM α} (hf : ∀ b, Alters R (f b).run) :
    Alters R (xs.mapM f).run := h.ofFiles.tryMapM hf

theorem tryOption {o : Option β} {f : β → AttemptM α} (hf : ∀ b, Alters R (f b).run) :
    Alters R (o.mapM f).run := h.ofFiles.tryOption hf

theorem openInput (path : String) : Alters R (openInput path).run := h.ofFiles.openInput path

theorem openOutput (target : Target) : Alters R (openOutput target).run :=
  h.ofFiles.openOutput target

theorem prepareImage (argv : List String) : Alters R (prepareImage argv).run :=
  h.ofFiles.prepareImage argv

theorem build (act : Surroundings → BuildM α) : Alters R (build act).run := h.ofFiles.build act

theorem restore (redirected : ∀ sh stdio, R sh { sh with stdio }) (stdio : Stdio) :
    Alters R (restore stdio) :=
  h.ofFiles.restore (fun _ => alters_modifyShell fun sh => redirected sh _) stdio

theorem redirectForBuiltin (redirected : ∀ sh stdio, R sh { sh with stdio }) (c : Command)
    (own : Stdio) : Alters R (redirectForBuiltin c own).run :=
  h.ofFiles.redirectForBuiltin (fun _ => alters_modifyShell fun sh => redirected sh _) c own

theorem planStage (c : Command) : Alters R (planStage c).run := h.ofFiles.planStage c

theorem planBackground (ts : List Token) : Alters R (planBackground ts).run :=
  h.ofFiles.planBackground ts

theorem openForLaunch (launch : Launch) : Alters R (openForLaunch launch).run :=
  h.ofFiles.openForLaunch launch

theorem openEnds (p : Pipeline) : Alters R (openEnds p).run := h.ofFiles.openEnds p

/-! ### Processes -/

theorem receiveSignal (sig : Signal) : Alters R (receiveSignal sig) := by
  have linefeed : Alters R (do let _ ← SessionM.writeDirectly [Bytes.newline]) :=
    h.andThen (h.writeDirectly _) fun _ => h.pure trivial
  refine h.andThen h.shell fun sh => .ite ?_ (h.pure trivial)
  split
  · exact .ite (h.andThen (h.onProcesses _) fun _ => h.pure trivial) linefeed
  · exact linefeed

theorem runImage (pid : Int) (stdio : Stdio) (unwritten : Bytes) (image : Image) :
    Alters R (runImage pid stdio unwritten image) := by
  refine h.andThen h.shell fun sh => h.andThen h.host fun s => .ite (h.pure trivial) ?_
  refine h.andThen h.host fun s => ?_
  split
  · refine h.andThen (h.ofFiles.writeTo _ _) fun _ =>
      h.andThen (h.ofFiles.writeTo _ _) fun _ => ?_
    exact h.modifyProcesses _
  · refine h.andThen (h.ofFiles.perform _ _ _ _) fun next =>
      h.andThen (h.modifyProcesses _) fun _ => ?_
    split
    · exact h.receiveSignal _
    · exact h.pure trivial

/-- Whatever a copy of the shell does, the shell itself is put back afterwards. -/
theorem runCopy (pid : Int) (copy : Shell) (body : SessionM Int) :
    Alters R (runCopy pid copy body) := h.apart fun m => shell_runCopy pid copy body m

theorem runStage (source : Builtin.Sourcing) (pid : Int) (stdio : Stdio) (c : Command)
    (stage : Stage) : Alters R (runStage source pid stdio c stage) := by
  cases stage with
  | assignment => exact h.andThen h.shell fun _ => h.runCopy _ _ _
  | builtin b => exact h.andThen h.shell fun _ => h.runCopy _ _ _
  | program image => exact h.andThen h.shell fun _ => h.runImage _ _ _ _

theorem runStages (sources : Sources) (files : Nat → Stdio) (stages : List (Int × Command × Stage))
    (index : Nat) : Alters R (runStages sources files index stages) := by
  induction stages generalizing index with
  | nil => exact h.pure trivial
  | cons s rest ih => exact h.andThen (h.runStage _ _ _ _ _) fun _ => ih _

theorem openPipes (n : Nat) : Alters R (openPipes n) := h.ofFiles.openPipes n

theorem spawn (ownGroup : Bool) : Alters R (spawn ownGroup) :=
  h.andThen h.shell fun _ => h.onProcesses _

theorem waitFor (pid : Int) : Alters R (waitFor pid) :=
  h.andThen h.shell fun _ => h.andThen (h.modifyHost _) fun _ => h.onProcesses _

theorem runLaunch (chain : Stdio → SessionM Int) (pid : Int) (copy : Shell) (launch : Launch)
    (stdio : Stdio) : Alters R (runLaunch chain pid copy launch stdio) := by
  cases launch with
  | program c image => exact h.runImage _ _ _ _
  | copy => exact h.runCopy _ _ _

theorem runApart (pid : Int) (input : Handle) (output : Option Handle) (copy : Shell)
    {run : Stdio → SessionM Unit} (hr : ∀ stdio, Alters R (run stdio)) :
    Alters R (runApart pid input output copy run) :=
  h.andThen (h.onHost _) fun _ => h.andThen (h.onHost _) fun _ => h.andThen (hr _) fun _ =>
    h.modifyHost _

theorem withForeground {act : SessionM α} (watched : ∀ sh p, R sh { sh with foreground := p })
    (pid : Int) (hact : Does R Q act) : Does R Q (withForeground pid act) := by
  refine h.andThen (alters_modifyShell fun sh => watched sh _) fun _ => h.bind hact fun a ha => ?_
  exact h.andThen (alters_modifyShell fun sh => watched sh _) fun _ => h.pure ha

theorem settle (added : ∀ sh pid c s, R sh { sh with jobs := sh.jobs.add pid c s }) (pid : Int)
    (display : String) (outcome : Outcome) : Does R IsStatus (settle pid display outcome) := by
  have close : Does R IsStatus (Pure.pure outcome.status) := h.pure outcome.isStatus
  cases outcome with
  | exited status => exact close
  | killed signal => exact close
  | stopped signal =>
    refine h.andThen h.shell fun sh => ?_
    refine h.andThen (alters_modifyShell fun sh => added sh _ _ _) fun _ => ?_
    exact h.andThen (h.say _) fun _ => close

end Tolerant
end SessionM
end JobShell
