import JobShell.Proofs.SessionSteps
import JobShell.Session.Prompt

/-! What builtins are put together from: they print, complain, and change tables, the working
directory and jobs. What holds of these steps holds of every builtin that neither asks to leave nor
sources a file, and all of them give a status. -/
namespace JobShell

/-- Whether a builtin has nothing to do with jobs, processes and the running of lines. -/
def Builtin.isQuiet : Builtin → Bool
  | dot | source | background | foreground | kill | ping => false
  | _ => true

/-- Whether a builtin neither asks to leave nor runs lines. -/
def Builtin.stays : Builtin → Bool
  | exit | quit | dot | source => false
  | _ => true

namespace SessionM

/-- A property of steps that holds of what quiet builtins change. New variables are named by
identifiers, and directories are entered that have been found. -/
structure OfQuiet (C : {α : Type} → (α → Prop) → SessionM α → Prop) (known : Machine → Prop) :
    Prop extends OfSteps C known where
  aliases : ∀ f : Aliases → Aliases, C (fun _ => True) (Tables.modifyAliases f)
  set : ∀ {name : String}, Text.isIdentifier name.toList = true → ∀ value,
    C (fun _ => True) (modifyVars (·.set name value))
  exported : ∀ {name : String}, Text.isIdentifier name.toList = true → ∀ value : Variables → String,
    C (fun _ => True) (modifyVars fun v => v.setExported name (value v))
  unset : ∀ name, C (fun _ => True) (modifyVars (·.unset name))
  moved : ∀ {m : Machine} {path : Bytes} {directory : NodeId}, known m →
    m.host.tree.directoryAt m.shell.directory path = .ok directory →
    C (fun _ => True) (modifyShell fun sh => { sh with directory })
  left : ∀ previous, C (fun _ => True)
    (modifyShell fun sh => { sh with previousDirectory := some previous })

namespace OfQuiet

variable {C : {α : Type} → (α → Prop) → SessionM α → Prop} {known : Machine → Prop}

variable (h : OfQuiet C known)
include h

theorem thenZero {x : SessionM Unit} (hx : C (fun _ => True) x) : C IsStatus (do x; return 0) :=
  h.thenReturn hx isStatus_zero

theorem failOne (name message : String) : C IsStatus (fail name message 1) :=
  h.fail isStatus_one name message

theorem misuse (name message : String) : C IsStatus (fail name message 2) :=
  h.fail isStatus_two name message

/-! ### Tables -/

section Tables
open Tables

theorem goThrough {act : String → SessionM Int} (ha : ∀ arg, C IsStatus (act arg))
    (args : List String) {status : Int} (hs : IsStatus status) :
    C IsStatus (goThrough act status args) := by
  induction args generalizing status with
  | nil => exact h.pure hs
  | cons arg rest ih =>
    refine h.bind (ha arg) fun s hs' => h.andThen h.isHalted fun _ => ?_
    have either : IsStatus (if s = 0 then status else s) := by
      split
      · exact hs
      · exact hs'
    exact h.ite (h.pure either) (ih either)

theorem forEach {act : String → SessionM Int} (ha : ∀ arg, C IsStatus (act arg))
    (args : List String) : C IsStatus (forEach args act) := h.goThrough ha args isStatus_zero

theorem exportOne (arg : String) : C IsStatus (exportOne arg) := by
  unfold Tables.exportOne
  split
  · next name value assigned =>
    exact h.thenZero (h.exported (Text.isIdentifier_of_splitAssignment? assigned) fun _ => value)
  · split
    · next identifier => exact h.thenZero (h.exported identifier _)
    · exact h.failOne _ _

/-- A listing of variables. -/
theorem listing {β : Type} (entries : Variables → List β) (shown : β → List String) :
    C IsStatus (do (entries (← vars)).forM fun p => say (shown p); return 0) :=
  h.andThen h.vars fun _ => h.thenZero (h.forM fun _ => h.say _)

theorem runExport (argv : List String) : C IsStatus (runExport argv) :=
  h.ite (h.listing _ _) (h.forEach h.exportOne _)

theorem runUnset (argv : List String) : C IsStatus (runUnset argv) :=
  h.ite (h.misuse _ _) (h.thenZero (h.forM h.unset))

theorem aliasOne (arg : String) : C IsStatus (aliasOne arg) := by
  unfold Tables.aliasOne
  split
  · exact h.ite (h.failOne _ _) (h.thenZero (h.aliases _))
  · refine h.andThen h.shell fun sh => ?_
    split
    · exact h.thenZero (h.say _)
    · exact h.failOne _ _

theorem runAlias (argv : List String) : C IsStatus (runAlias argv) := by
  refine h.ite (h.andThen h.shell fun sh => ?_) (h.forEach h.aliasOne _)
  exact h.thenZero (h.forM fun _ => h.say _)

theorem unaliasOne (arg : String) : C IsStatus (unaliasOne arg) := by
  refine h.ite (h.thenZero (h.aliases _)) (h.andThen h.shell fun sh => ?_)
  exact h.ite (h.thenZero (h.aliases _)) (h.failOne _ _)

theorem runUnalias (argv : List String) : C IsStatus (runUnalias argv) :=
  h.ite (h.misuse _ _) (h.forEach h.unaliasOne _)

end Tables

/-! ### Directories -/

section Directory
open Directory

theorem current : C (fun _ => True) current :=
  h.anyhow (h.read fun m => m.host.tree.pathOf? m.shell.directory)

theorem enter (path : Bytes) (announce : Bool) : C IsStatus (enter path announce) := by
  have close (now : String) : C IsStatus (do
      modifyVars (·.set "PWD" now)
      if announce then say [now, "\n"]
      return 0) :=
    h.andThen (h.set (by decide) now) fun _ =>
      h.ite (h.thenZero (h.say _)) (h.pure isStatus_zero)
  refine h.andThen h.current fun before => h.bind h.get fun m hm => ?_
  split
  · exact h.failOne _ _
  next directory found =>
  refine h.andThen (h.moved hm found) fun _ => h.andThen h.current fun now => ?_
  cases before with
  | none => exact close _
  | some previous =>
    refine h.andThen (h.set (by decide) previous.toStringLossy) fun _ => ?_
    exact h.andThen (h.left previous) fun _ => close _

theorem change (argv : List String) : C IsStatus (change argv) := by
  refine h.ite (h.failOne _ _) (h.andThen h.shell fun sh => ?_)
  split
  · exact h.failOne _ _
  · exact h.enter _ _

theorem printDirectory (argv : List String) : C IsStatus (Directory.print argv) := by
  refine h.andThen h.current fun dir => ?_
  split
  · exact h.thenZero (h.say _)
  · exact h.failOne _ _

end Directory

/-! ### Inquiries and printing -/

section Inquiry
open Inquiry

theorem runHelp (argv : List String) : C IsStatus (runHelp argv) :=
  h.andThen (h.say _) fun _ => h.thenZero (h.forM fun _ => h.say _)

theorem locate (name : String) : C (fun _ => True) (locate name) :=
  h.andThen h.get fun _ => h.pure trivial

theorem whichOne (name : String) : C IsStatus (whichOne name) := by
  refine h.andThen (h.locate name) fun path => ?_
  split
  · exact h.thenZero (h.say _)
  · exact h.failOne _ _

theorem runWhich (argv : List String) : C IsStatus (runWhich argv) :=
  h.ite (h.failOne _ _) (h.forEach h.whichOne _)

theorem typeOne (name : String) : C IsStatus (typeOne name) := by
  refine h.andThen h.shell fun sh => ?_
  split
  · exact h.thenZero (h.say _)
  refine h.ite (h.thenZero (h.say _)) (h.andThen (h.locate name) fun path => ?_)
  split
  · exact h.thenZero (h.say _)
  · exact h.failOne _ _

theorem runType (argv : List String) : C IsStatus (runType argv) :=
  h.ite (h.misuse _ _) (h.forEach h.typeOne _)

end Inquiry

/-- A step that prints, and a complaint if that fails. -/
theorem printing {name : String} {x : SessionM (Except Errno Unit)} (hx : C (fun _ => True) x) :
    C IsStatus (do
      match ← x with
      | .ok () => return 0
      | .error e => SessionM.fail name e.fileText 1) := by
  refine h.andThen hx fun printed => ?_
  cases printed with
  | error e => exact h.failOne _ _
  | ok => exact h.pure isStatus_zero

theorem runClear : C IsStatus Builtin.runClear := by
  refine h.andThen (h.print _) fun printed => ?_
  cases printed with
  | error e => exact h.printing (h.pure trivial)
  | ok => exact h.printing h.flush

theorem runTest (b : Builtin) (argv : List String) : C IsStatus (Builtin.runTest b argv) := by
  refine h.ite (h.misuse _ _) (h.andThen h.get fun m => ?_)
  dsimp only
  split
  · exact h.pure isStatus_zero
  · exact h.pure isStatus_one
  · exact h.misuse _ _

theorem runJobs (argv : List String) : C IsStatus (JobControl.runJobs argv) := by
  refine h.ite (h.failOne _ _) (h.andThen h.shell fun sh => ?_)
  exact h.thenZero (h.forM fun _ => h.say _)

/-- To leave is to ask for it. -/
theorem runExit (asked : ∀ status, C (fun _ => True)
      (modifyShell fun sh => { sh with exitRequest := some status }))
    (b : Builtin) (argv : List String) : C (fun _ => True) (Builtin.runExit b argv) := by
  have leave (status : Int) : C (fun _ => True) (do
      modifyShell fun sh => { sh with exitRequest := some status }
      return status) := h.thenReturn (asked status) trivial
  unfold Builtin.runExit
  dsimp only
  split
  · exact h.andThen h.lastStatus leave
  · split
    · exact h.andThen (h.pure (Q := fun _ => True) trivial) leave
    · exact h.andThen (h.misuse _ _) leave

theorem prompt : C (fun _ => True) prompt := by
  refine h.andThen h.shell fun sh => h.andThen h.current fun dir => ?_
  dsimp only
  exact h.pure trivial

theorem quiet {b : Builtin} (quiet : b.isQuiet = true) (stays : b.stays = true)
    (source : Builtin.Sourcing) (argv : List String) : C IsStatus (b.run source argv) := by
  cases b with
  | dot | source | background | foreground | kill | ping => cases quiet
  | exit | quit => cases stays
  | colon | success => exact h.pure isStatus_zero
  | failure => exact h.pure isStatus_one
  | bracket => exact h.runTest .bracket argv
  | test => exact h.runTest .test argv
  | aliasing => exact h.runAlias argv
  | changeDirectory => exact h.change argv
  | clear => exact h.runClear
  | echo => exact h.printing (h.print _)
  | environment => exact h.listing _ _
  | exporting => exact h.runExport argv
  | help => exact h.runHelp argv
  | jobs => exact h.runJobs argv
  | printDirectory => exact h.printDirectory argv
  | set => exact h.listing _ _
  | type => exact h.runType argv
  | unalias => exact h.runUnalias argv
  | unset => exact h.runUnset argv
  | which => exact h.runWhich argv

end OfQuiet

/-! ### Signals -/

/-- Such a property that also holds of the sending of signals. -/
structure OfSignals (C : {α : Type} → (α → Prop) → SessionM α → Prop) (known : Machine → Prop) :
    Prop extends OfQuiet C known where
  kill : ∀ self target signal, C (fun _ => True) (onProcesses (·.kill self target signal))
  struck : ∀ signal, C (fun _ => True) (halt (.struck signal))

namespace OfSignals

open JobControl

variable {C : {α : Type} → (α → Prop) → SessionM α → Prop} {known : Machine → Prop}

variable (h : OfSignals C known)
include h

theorem receiveSignal (sig : Signal) : C (fun _ => True) (receiveSignal sig) := by
  have feed : C (fun _ => True) (do let _ ← writeDirectly [Bytes.newline]) :=
    h.thenReturn (h.writeDirectly _) trivial
  refine h.andThen h.shell fun sh => h.ite ?_ (h.pure trivial)
  cases sh.foreground with
  | none => exact feed
  | some pid => exact h.ite (h.thenReturn (h.kill _ _ _) trivial) feed

theorem send (target : Int) (signal : Option Signal) : C (fun _ => True) (send target signal) := by
  refine h.andThen h.shell fun sh => h.andThen (h.kill _ _ _) fun sent => ?_
  cases signal with
  | none => exact h.pure trivial
  | some sig =>
    refine h.andThen h.host fun s => h.ite (h.ite ?_ (h.ite ?_ (h.pure trivial))) (h.pure trivial)
    · exact h.thenReturn (h.receiveSignal sig) trivial
    · exact h.thenReturn (h.struck sig) trivial

theorem resume (job : Job) : C (fun _ => True) (resume job) :=
  h.ite (h.andThen h.shell fun _ => h.kill _ _ _) (h.pure trivial)

theorem killOne (sig : Signal) (arg : String) : C IsStatus (killOne sig arg) := by
  refine h.andThen h.shell fun sh => ?_
  split
  · exact h.failOne _ _
  refine h.andThen (h.send _ _) fun sent => ?_
  cases sent with
  | error e => exact h.failOne _ _
  | ok => exact h.pure isStatus_zero

theorem killAll (sig : Signal) (targets : List String) : C IsStatus (killAll sig targets) :=
  h.ite (h.misuse _ _) (h.forEach (h.killOne sig) _)

theorem runKill (argv : List String) : C IsStatus (runKill argv) := by
  unfold JobControl.runKill
  split
  · split
    · split
      · exact h.killAll _ _
      · exact h.failOne _ _
    · exact h.killAll _ _
  · exact h.killAll _ _

theorem runPing (argv : List String) : C IsStatus (runPing argv) := by
  unfold JobControl.runPing
  split
  · split
    · refine h.andThen (h.send _ _) fun sent => ?_
      cases sent with
      | error e => exact h.ite (h.failOne _ _) (h.failOne _ _)
      | ok => exact h.thenZero (h.say _)
    · exact h.failOne _ _
  · exact h.failOne _ _

end OfSignals

/-! ### Jobs -/

/-- Such a property that also holds of what is done to jobs. -/
structure OfBuiltins (C : {α : Type} → (α → Prop) → SessionM α → Prop) (known : Machine → Prop) :
    Prop extends OfSignals C known where
  forgotten : ∀ pid, C (fun _ => True) (modifyJobs (·.removeByPid pid))
  resumed : ∀ pid, C (fun _ => True) (modifyJobs (·.setStatus pid .running))
  bringBack : ∀ {m : Machine} {spec : Option String} {job : Job}, known m →
    JobControl.select m.shell.jobs spec = some job → C IsStatus (JobControl.bringBack job)

namespace OfBuiltins

open JobControl

variable {C : {α : Type} → (α → Prop) → SessionM α → Prop} {known : Machine → Prop}

variable (h : OfBuiltins C known)
include h

theorem letGo (job : Job) : C IsStatus (letGo job) := by
  refine h.ite (h.thenZero (h.complain _)) (h.andThen (h.resume job) fun sent => ?_)
  cases sent with
  | error e =>
    exact h.ite (h.andThen (h.forgotten _) fun _ => h.failOne _ _) (h.failOne _ _)
  | ok => exact h.andThen (h.resumed _) fun _ => h.thenZero (h.say _)

/-- Something is done to the job that an argument selects. -/
theorem onSelected {act : Job → SessionM Int} (name : String)
    (ha : ∀ {m : Machine} {spec : Option String} {job : Job}, known m →
      select m.shell.jobs spec = some job → C IsStatus (act job)) (argv : List String) :
    C IsStatus (do
      if 2 < argv.length then SessionM.fail name "too many arguments" 1
      else match select (← SessionM.shell).jobs argv[1]? with
        | none => SessionM.fail name (noSuchJob argv[1]?) 1
        | some job => act job) := by
  refine h.ite (h.failOne _ _) (h.bind h.shell fun sh hsh => ?_)
  obtain ⟨m, hm, rfl⟩ := hsh
  split
  · exact h.failOne _ _
  · next selected => exact ha hm selected

theorem builtin {b : Builtin} (stays : b.stays = true) (source : Builtin.Sourcing)
    (argv : List String) : C IsStatus (b.run source argv) := by
  by_cases quiet : b.isQuiet = true
  · exact h.quiet quiet stays source argv
  · cases b with
    | background => exact h.onSelected "bg" (fun _ _ => h.letGo _) argv
    | foreground => exact h.onSelected "fg" h.bringBack argv
    | kill => exact h.runKill argv
    | ping => exact h.runPing argv
    | dot | source => cases stays
    | _ => exact absurd rfl quiet

end OfBuiltins
end SessionM
end JobShell
