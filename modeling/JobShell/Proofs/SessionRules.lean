import JobShell.Proofs.BuiltinSteps
import JobShell.Proofs.Carriers
import JobShell.Session.Transcript
import Mathlib.Tactic.Common

/-! What steps of a session leave of the jobs and processes. Most steps touch neither, so that they
keep every property of them. -/
namespace JobShell

/-- The part of a machine that is about jobs and processes. -/
structure Affairs where
  /-- The number of the shell's own process. -/
  pid : Int
  jobs : JobTable
  processes : ProcessTable

def Machine.affairs (m : Machine) : Affairs := ⟨m.shell.pid, m.shell.jobs, m.host.toProcessTable⟩

namespace SessionM

variable {α β : Type} {P I : Affairs → Prop}

/-- From a state with one property, a step leads to a result and a state with another one. -/
def Ensures (P : Affairs → Prop) (x : SessionM α) (Q : α → Affairs → Prop) : Prop :=
  ∀ m, P m.affairs → Q (x m).1 (x m).2.affairs

/-- A step leaves a property as it finds it. -/
def Keeps (I : Affairs → Prop) (x : SessionM α) : Prop := Ensures I x fun _ => I

theorem Ensures.bind {x : SessionM α} {f : α → SessionM β} {Q : α → Affairs → Prop}
    {R : β → Affairs → Prop} (hx : Ensures P x Q) (hf : ∀ a, Ensures (Q a) (f a) R) :
    Ensures P (x >>= f) R := fun m h => hf _ _ (hx m h)

theorem Ensures.pure {Q : α → Affairs → Prop} {a : α} (h : ∀ s, P s → Q a s) :
    Ensures P (pure a) Q := fun m => h m.affairs

theorem Ensures.ite {x y : SessionM α} {Q : α → Affairs → Prop} {c : Prop} [Decidable c]
    (hx : Ensures P x Q) (hy : Ensures P y Q) : Ensures P (if c then x else y) Q := by
  split
  · exact hx
  · exact hy

theorem Ensures.keeps {x : SessionM α} {Q : α → Prop} (hx : Ensures I x fun a s => I s ∧ Q a) :
    Keeps I x := fun m hm => (hx m hm).1

namespace Keeps

theorem pure (a : α) : Keeps I (pure a) := fun _ h => h

theorem bind {x : SessionM α} {f : α → SessionM β} (hx : Keeps I x) (hf : ∀ a, Keeps I (f a)) :
    Keeps I (x >>= f) := Ensures.bind hx hf

/-- A step that keeps what the next one starts from can go before it. -/
theorem andThen {x : SessionM α} {f : α → SessionM β} {Q : β → Affairs → Prop} (hx : Keeps I x)
    (hf : ∀ a, Ensures I (f a) Q) : Ensures I (x >>= f) Q := Ensures.bind hx hf

theorem ite {x y : SessionM α} {c : Prop} [Decidable c] (hx : Keeps I x) (hy : Keeps I y) :
    Keeps I (if c then x else y) := Ensures.ite hx hy

theorem of_affairs {x : SessionM α} (h : ∀ m, (x m).2.affairs = m.affairs) : Keeps I x :=
  fun m hm => (h m).symm ▸ hm

theorem anyhow {x : SessionM α} (hx : Keeps I x) : Ensures I x fun _ s => I s ∧ True :=
  fun m hm => ⟨hx m hm, trivial⟩

end Keeps

/-- What is read of the shell is what it is. -/
theorem Ensures.shellBind {f : Shell → SessionM β} {Q : β → Affairs → Prop}
    (h : ∀ sh, Ensures (fun a => P a ∧ a.jobs = sh.jobs) (f sh) Q) : Ensures P (shell >>= f) Q :=
  fun m hm => h m.shell m ⟨hm, rfl⟩

/-! ### Attempts -/

/-- Something holds of what has been found, and something else if nothing has been. -/
def Resolves {ε : Type} (Q : α → Affairs → Prop) (E : Affairs → Prop) (r : Except ε α)
    (s : Affairs) : Prop :=
  match r with
  | .ok a => Q a s
  | .error _ => E s

/-- An attempt succeeds, with a result and a state that have a property. -/
def Succeeds (Q : α → Affairs → Prop) (r : Except ShellError α) (s : Affairs) : Prop :=
  ∃ a, r = .ok a ∧ Q a s

namespace Ensures

variable {Q : α → Affairs → Prop} {R : Except ShellError β → Affairs → Prop}

theorem tryBind {x : AttemptM α} {f : α → AttemptM β}
    (hx : Ensures P x.run fun r s => (∀ a, r = .ok a → Q a s) ∧ ∀ e, r = .error e → R (.error e) s)
    (hf : ∀ a, Ensures (Q a) (f a).run R) : Ensures P (x >>= f).run R := by
  rw [ExceptT.run_bind]
  refine Ensures.bind hx fun r => ?_
  cases r with
  | ok a => exact fun m h => hf a m (h.1 a rfl)
  | error e => exact fun m h => h.2 e rfl

theorem succeedBind {x : AttemptM α} {f : α → AttemptM β} (hx : Ensures P x.run (Succeeds Q))
    (hf : ∀ a, Ensures (Q a) (f a).run R) : Ensures P (x >>= f).run R := by
  refine tryBind (fun m h => ?_) hf
  obtain ⟨a, ok, ha⟩ := hx m h
  exact ⟨fun b eq => by cases ok.symm.trans eq; exact ha, fun e eq => by cases ok.symm.trans eq⟩

theorem liftBind {x : SessionM α} {f : α → AttemptM β} (hx : Ensures P x Q)
    (hf : ∀ a, Ensures (Q a) (f a).run R) : Ensures P ((liftM x : AttemptM α) >>= f).run R :=
  fun m h => hf _ _ (hx m h)

end Ensures

namespace Keeps

theorem tryPure (a : α) : Keeps I (Pure.pure a : AttemptM α).run := pure _

theorem tryThrow (e : ShellError) : Keeps I (throw e : AttemptM α).run := pure _

theorem tryBind {x : AttemptM α} {f : α → AttemptM β} (hx : Keeps I x.run)
    (hf : ∀ a, Keeps I (f a).run) : Keeps I (x >>= f).run :=
  Ensures.tryBind (fun m h => ⟨fun _ _ => hx m h, fun _ _ => hx m h⟩) hf

theorem liftBind {x : SessionM α} {f : α → AttemptM β} (hx : Keeps I x)
    (hf : ∀ a, Keeps I (f a).run) : Keeps I ((liftM x : AttemptM α) >>= f).run :=
  Ensures.liftBind hx hf

theorem tryMapM {xs : List β} {f : β → AttemptM α} (h : ∀ b, Keeps I (f b).run) :
    Keeps I (xs.mapM f).run := by
  induction xs with
  | nil => exact tryPure []
  | cons b xs ih =>
    rw [List.mapM_cons]
    exact (h b).tryBind fun a => ih.tryBind fun as => tryPure (a :: as)

theorem tryOption {o : Option β} {f : β → AttemptM α} (h : ∀ b, Keeps I (f b).run) :
    Keeps I (o.mapM f).run := by
  cases o with
  | none => exact tryPure none
  | some b => exact (h b).tryBind fun a => tryPure (some a)

end Keeps

/-! ### Parts of the state -/

theorem keeps_get : Keeps I get := fun _ h => h

theorem keeps_shell : Keeps I shell := fun _ h => h

theorem keeps_host : Keeps I host := fun _ h => h

theorem keeps_lastStatus : Keeps I lastStatus := fun _ h => h

theorem keeps_modifyShell {f : Shell → Shell}
    (same : ∀ sh, (f sh).pid = sh.pid ∧ (f sh).jobs = sh.jobs) : Keeps I (modifyShell f) := by
  refine .of_affairs fun m => ?_
  change Affairs.mk (f m.shell).pid (f m.shell).jobs _ = _
  rw [(same _).1, (same _).2]
  rfl

theorem keeps_modifyVars (f : Variables → Variables) : Keeps I (modifyVars f) :=
  keeps_modifyShell fun _ => ⟨rfl, rfl⟩

theorem keeps_setStatus (status : Int) : Keeps I (setStatus status) := keeps_modifyVars _

theorem keeps_onHost {f : Host → α × Host}
    (same : ∀ s, (f s).2.toProcessTable = s.toProcessTable) : Keeps I (onHost f) := by
  refine .of_affairs fun m => ?_
  change Affairs.mk _ _ (f m.host).2.toProcessTable = _
  rw [same]
  rfl

theorem get_bind (f : Machine → SessionM α) (m : Machine) : (get >>= f) m = f m m := rfl

theorem tryHost_apply {ε : Type} (f : Host → Except ε (α × Host)) (m : Machine) :
    tryHost f m =
      match f m.host with
      | .error e => (.error e, m)
      | .ok (a, host) => (.ok a, { m with host }) := by
  rw [tryHost, get_bind]
  cases f m.host <;> rfl

theorem keeps_tryHost {ε : Type} {f : Host → Except ε (α × Host)}
    (same : ∀ s a t, f s = .ok (a, t) → t.toProcessTable = s.toProcessTable) :
    Keeps I (tryHost f) := by
  refine .of_affairs fun m => ?_
  rw [tryHost_apply]
  split
  · rfl
  · next a host found =>
    change Affairs.mk _ _ host.toProcessTable = _
    rw [same _ _ _ found]
    rfl

theorem keeps_tryWrite (h : Handle) (b : Bytes) :
    Keeps I (tryHost fun s => (s.write h b).map fun s => ((), s)) :=
  keeps_tryHost fun _ _ _ => Host.toProcessTable_tryWrite

/-! ### What steps are put together from -/

/-- Steps keep a property of jobs and processes if their parts do. -/
theorem ofFiles_keeps (I : Affairs → Prop) : OfFiles (fun {α} (Q : α → Prop) (x : SessionM α) =>
    Ensures I x fun a s => I s ∧ Q a) fun m => I m.affairs where
  pure ha := fun _ hm => ⟨hm, ha⟩
  bind hx hf := fun m hm => hf _ (hx m hm).2 _ (hx m hm).1
  gives hx found := fun m hm => ⟨(hx m hm).1, found m⟩
  get := fun _ hm => ⟨hm, hm⟩
  unwritten _ := (keeps_modifyShell fun _ => ⟨rfl, rfl⟩).anyhow
  writeDirectly b := (keeps_shell.bind fun _ => keeps_tryWrite _ b).anyhow
  complain _ := (keeps_shell.bind fun _ => keeps_onHost (f := fun s => ((), s.complain _ _ _))
    fun s => s.toProcessTable_complain _ _ _).anyhow
  record _ := by
    refine (keeps_shell.bind fun sh => ?_).anyhow
    split
    · exact keeps_onHost (f := fun s => ((), s.attempt _ _)) fun s => s.toProcessTable_attempt _ _
    · exact .pure _
  onHost same := (keeps_onHost same).anyhow
  tryHost same := (keeps_tryHost same).anyhow

theorem ofQuiet_keeps (I : Affairs → Prop) : OfQuiet (fun {α} (Q : α → Prop) (x : SessionM α) =>
    Ensures I x fun a s => I s ∧ Q a) fun m => I m.affairs where
  toOfSteps := (ofFiles_keeps I).toOfSteps
  aliases _ := (keeps_modifyShell fun _ => ⟨rfl, rfl⟩).anyhow
  set _ _ := (keeps_modifyVars _).anyhow
  exported _ _ := (keeps_modifyVars _).anyhow
  unset _ := (keeps_modifyVars _).anyhow
  moved _ _ := (keeps_modifyShell fun _ => ⟨rfl, rfl⟩).anyhow
  left _ := (keeps_modifyShell fun _ => ⟨rfl, rfl⟩).anyhow

theorem keeps_writeDirectly (b : Bytes) : Keeps I (writeDirectly b) :=
  ((ofFiles_keeps I).writeDirectly b).keeps

theorem keeps_flush : Keeps I flush := (ofFiles_keeps I).flush.keeps

theorem keeps_say (pieces : List String) : Keeps I (say pieces) :=
  ((ofFiles_keeps I).say pieces).keeps

theorem keeps_complain (text : String) : Keeps I (complain text) :=
  ((ofFiles_keeps I).complain text).keeps

theorem keeps_report (e : ShellError) : Keeps I (report e) :=
  ((ofFiles_keeps I).report e.isStatus).keeps

theorem keeps_fail (name message : String) (status : Int) : Keeps I (fail name message status) :=
  (keeps_complain _).bind fun _ => .pure _

theorem keeps_openInput (path : String) : Keeps I (openInput path).run :=
  ((ofFiles_keeps I).openInput path).keeps

theorem keeps_openOutput (target : Target) : Keeps I (openOutput target).run :=
  ((ofFiles_keeps I).openOutput target).keeps

theorem keeps_prepareImage (argv : List String) : Keeps I (prepareImage argv).run :=
  ((ofFiles_keeps I).prepareImage argv).keeps

theorem keeps_build (act : Surroundings → BuildM α) : Keeps I (build act).run :=
  ((ofFiles_keeps I).build act).keeps

theorem keeps_restore (stdio : Stdio) : Keeps I (restore stdio) :=
  keeps_flush.bind fun _ => keeps_modifyShell fun _ => ⟨rfl, rfl⟩

theorem keeps_redirectForBuiltin (c : Command) (own : Stdio) :
    Keeps I (redirectForBuiltin c own).run :=
  ((ofFiles_keeps I).redirectForBuiltin
    (fun _ => (keeps_modifyShell fun _ => ⟨rfl, rfl⟩).anyhow) c own).keeps

theorem keeps_expandLine (line : String) : Keeps I (expandLine line) :=
  keeps_shell.bind fun _ => .bind (keeps_modifyShell fun _ => ⟨rfl, rfl⟩) fun _ => .pure _

theorem keeps_planStage (c : Command) : Keeps I (planStage c).run :=
  ((ofFiles_keeps I).planStage c).keeps

theorem keeps_planBackground (ts : List Token) : Keeps I (planBackground ts).run :=
  ((ofFiles_keeps I).planBackground ts).keeps

theorem keeps_openForLaunch (launch : Launch) : Keeps I (openForLaunch launch).run :=
  ((ofFiles_keeps I).openForLaunch launch).keeps

theorem keeps_openEnds (p : Pipeline) : Keeps I (openEnds p).run :=
  ((ofFiles_keeps I).openEnds p).keeps

theorem keeps_openPipes (n : Nat) : Keeps I (openPipes n) := ((ofFiles_keeps I).openPipes n).keeps

/-- What holds of single steps holds of the lines of one session. -/
theorem correspondence_keeps (I : Affairs → Prop) : Correspondence (σ := Machine) (τ := Machine)
    (fun {α} (Q : α → Prop) x _ => Ensures I x fun a s => I s ∧ Q a) fun _ => True where
  pure := (ofFiles_keeps I).pure
  bind := (ofFiles_keeps I).bind
  isOver := (ofFiles_keeps I).isOver
  shell := keeps_shell.anyhow
  expandLine line := (keeps_expandLine line).anyhow
  zero := trivial
  lastStatus := keeps_lastStatus.anyhow
  setStatus {status} _ := (keeps_setStatus status).anyhow
  report e := (keeps_report e).anyhow

theorem keeps_prompt : Keeps I prompt := (ofQuiet_keeps I).prompt.keeps

/-- Builtins that are about variables, directories and printing leave jobs and processes alone. -/
theorem keeps_quiet {b : Builtin} (quiet : b.isQuiet = true) (source : Builtin.Sourcing)
    (argv : List String) : Keeps I (b.run source argv) := by
  by_cases stays : b.stays = true
  · exact ((ofQuiet_keeps I).quiet quiet stays source argv).keeps
  · have leaves : Keeps I (Builtin.runExit b argv) := ((ofQuiet_keeps I).runExit
      (fun _ => (keeps_modifyShell fun _ => ⟨rfl, rfl⟩).anyhow) b argv).keeps
    cases b with
    | exit | quit => exact leaves
    | dot | source => cases quiet
    | _ => exact absurd rfl stays

end SessionM
end JobShell
