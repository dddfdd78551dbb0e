import JobShell.Proofs.BuiltinFrame
import JobShell.Proofs.ConfinedSteps
import JobShell.Proofs.LineSteps
import JobShell.Proofs.SessionStates

/-! Lines and whatever they run use no other open files than the shell may use. The states that a
session comes to are all in order in this respect. -/
namespace JobShell

open Host (Course Within)

namespace SessionM

open Abides (of_course of_rest rest bind andThen ite tryPure tryThrow tryBind
  tryThen liftBind liftThen tryMapM tryOption)

variable {α : Type} {A : Access} {n : Extent}

/-! ### Builtins -/

theorem heeds_resume (job : Job) : Heeds A n (JobControl.resume job) :=
  ite (heeds_shell.andThen fun _ => heeds_kill _ _ _) rest

theorem heeds_bringBack (job : Job) : Heeds A n (JobControl.bringBack job) := by
  refine (heeds_say _).andThen fun _ => heeds_flush.andThen fun _ => ?_
  refine (heeds_modifyJobs _).andThen fun _ => andThen (heeds_withForeground _ ?_) ?_
  · refine (heeds_resume job).andThen ?_
    rintro (e | ⟨⟩)
    · exact (heeds_fail _ _ _).andThen fun _ => rest
    · exact (heeds_waitFor _).andThen fun _ => rest
  · rintro (status | (e | outcome))
    · exact rest
    · exact heeds_fail _ _ _
    · exact heeds_settle _ _ _

/-- A directory that has been found is one. -/
theorem heeds_moved {m : Machine} (hm : m.Confined A) {path : Bytes} {directory : NodeId}
    (found : m.host.tree.directoryAt m.shell.directory path = .ok directory) :
    Heeds A n (modifyShell fun sh => { sh with directory }) := by
  have entered : A.directory directory = true := by
    rw [← hm.host.directories]
    unfold FileTree.directoryAt at found
    split at found
    · cases found
    · split at found
      · next isDirectory =>
        cases found
        exact isDirectory
      · cases found
  exact heeds_modifyShell fun _ _ _ sh => { sh with directory := entered }

/-- A file that is read from without an end may be waited for. -/
theorem standing_of_readText {m : Machine} (hm : m.Confined A) {path : String} {file : NodeId}
    (endless : m.host.tree.readText m.shell.directory path = .endless file) : A.standing file := by
  obtain ⟨found, endless⟩ := FileTree.lookup_of_endless endless
  exact hm.host.standing file endless (FileTree.has_of_lookup hm.host.sound hm.isDirectory found).2

/-- What builtins are put together from uses no other files. -/
theorem ofBuiltins_abides : OfBuiltins (fun {α} (Q : α → Prop) (x : SessionM α) =>
    Abides A n (fun _ => Q) x) fun m => m.Confined A where
  pure ha := fun _ hm _ => ⟨⟨[], .rest _⟩, hm.shell, ha⟩
  bind hx hf := hx.bind fun _ b le hb => (hf b hb).later le
  gives hx found := fun m hm size => ⟨(hx m hm size).1, (hx m hm size).2.1, found m⟩
  get := fun _ hm _ => ⟨⟨[], .rest _⟩, hm.shell, hm⟩
  unwritten _ := heeds_modifyRest fun _ => ⟨rfl, rfl, rfl⟩
  writeDirectly := heeds_writeDirectly
  complain := heeds_complain
  record := heeds_record
  aliases _ := heeds_modifyRest fun _ => ⟨rfl, rfl, rfl⟩
  set _ _ := heeds_modifyVars _
  exported _ _ := heeds_modifyVars _
  unset _ := heeds_modifyVars _
  moved hm found := heeds_moved hm found
  left _ := heeds_modifyRest fun _ => ⟨rfl, rfl, rfl⟩
  kill := heeds_kill
  struck _ := heeds_halt trivial
  forgotten _ := heeds_modifyJobs _
  resumed _ := heeds_modifyJobs _
  bringBack _ _ := fun m hm size => ⟨(heeds_bringBack _ m hm size).1,
    (heeds_bringBack _ m hm size).2.1, (admits_stands.bringBack _ m).2⟩

/-! ### Commands and pipelines -/

/-- The files of a process that are given, or else those of the shell. -/
theorem allowed_getD {own : Stdio} (allowed : own.Allowed A n) {input output : Option Handle}
    (read : ∀ h, input = some h → A.Free n h) (written : ∀ h, output = some h → A.Free n h) :
    Stdio.Allowed A n
      { own with input := input.getD own.input, output := output.getD own.output } where
  input := by
    cases input with
    | none => exact allowed.input
    | some h => exact ⟨(read h rfl).reads, (read h rfl).opened⟩
  output := by
    cases output with
    | none => exact allowed.output
    | some h => exact ⟨(written h rfl).prints, (written h rfl).opened⟩
  error := allowed.error
  space := allowed.space

theorem heeds_runExternal (c : Command) : Heeds A n (runExternal c).run := by
  refine (tryThen (Q := fun _ _ => True) (heeds_prepareImage _) fun image => ?_).heeds
  refine (tryOption abides_openInput).tryBind fun i input _ read => ?_
  refine (tryOption abides_openOutput).tryBind fun j output le written => ?_
  refine liftThen heeds_flush fun _ => liftBind abides_shell fun k own le' allowed => ?_
  have given := allowed_getD allowed.stdio
    (fun h hh => (read h hh).mono (le_trans le le')) fun h hh => (written h hh).mono le'
  refine liftThen (heeds_spawn false) fun pid => liftThen ?_ ?_
  · refine heeds_withForeground pid (heeds_shell.andThen fun sh => ?_)
    exact (heeds_runImage given pid _ image).andThen fun _ => heeds_waitFor pid
  · rintro (e | outcome)
    · exact tryThrow _
    · exact (heeds_settle pid _ outcome).mono fun _ _ _ => trivial

theorem abides_openEnds (p : Pipeline) :
    Abides A n (Found fun k ends => (∀ h, ends.1 = some h → A.Free k h) ∧
      ∀ h, ends.2 = some h → A.Free k h) (openEnds p).run := by
  refine (tryOption abides_openInput).tryBind fun k input _ read => ?_
  refine (tryOption abides_openOutput).tryBind fun j output le written => ?_
  exact tryPure fun _ le' => ⟨fun h hh => (read h hh).mono (le_trans le le'),
    fun h hh => (written h hh).mono le'⟩

theorem abides_openPipes (count : Nat) :
    Abides A n (fun k pipes => pipes.length = count ∧
      ∀ ends ∈ pipes, A.Free k ends.1 ∧ A.Free k ends.2) (openPipes count) := by
  induction count generalizing n with
  | zero => exact fun _ hm _ => ⟨⟨[], .rest _⟩, hm.shell, rfl, fun _ none => by cases none⟩
  | succ count ih =>
    refine abides_openPipe.bind fun k ends _ free => ih.bind fun j pipes le opened => ?_
    refine fun m hm reached => ⟨⟨[], .rest _⟩, hm.shell, congrArg (· + 1) opened.1, ?_⟩
    refine List.forall_mem_cons.2 ⟨?_, fun ends hends => ?_⟩
    · have more := le_trans le reached
      exact ⟨free.1.mono more, free.2.mono more⟩
    · obtain ⟨reads, writes⟩ := opened.2 ends hends
      exact ⟨reads.mono reached, writes.mono reached⟩

/-- Every stage of a pipeline may use the files of its place. -/
theorem allowed_stageFiles {ends : Stdio} (allowed : ends.Allowed A n)
    {pipes : List (Handle × Handle)} (free : ∀ e ∈ pipes, A.Free n e.1 ∧ A.Free n e.2)
    {index : Nat} (inside : index ≤ pipes.length) :
    (stageFiles ends pipes index).Allowed A n where
  input := by
    unfold stageFiles
    dsimp only
    split
    · exact allowed.input
    · have within : index - 1 < pipes.length := by omega
      rw [List.getD_eq_getElem?_getD, List.getElem?_eq_getElem within, Option.getD_some]
      have freed := (free _ (List.getElem_mem within)).1
      exact ⟨freed.reads, freed.opened⟩
  output := by
    unfold stageFiles
    dsimp only
    split
    · exact allowed.output
    · have within : index < pipes.length := by omega
      rw [List.getD_eq_getElem?_getD, List.getElem?_eq_getElem within, Option.getD_some]
      have freed := (free _ (List.getElem_mem within)).2
      exact ⟨freed.prints, freed.opened⟩
  error := allowed.error
  space := allowed.space

section
variable {source : Builtin.Sourcing}
  (hb : ∀ (b : Builtin) (argv : List String), Heeds A ⊥ (b.run source argv))
include hb

theorem heeds_runStage {stdio : Stdio} (allowed : stdio.Allowed A n) (pid : Int) (c : Command)
    (stage : Stage) : Heeds A n (runStage source pid stdio c stage) := by
  have copied {k : Extent} {sh : Shell} (le : n ≤ k) (hsh : sh.Allowed A k) :
      Shell.Allowed A k { sh with stdio } := { hsh with stdio := allowed.mono le }
  cases stage with
  | assignment =>
    exact abides_shell.bind fun k sh le hsh => heeds_runCopy (copied le hsh) rest pid
  | builtin b =>
    refine abides_shell.bind fun k sh le hsh => heeds_runCopy (copied le hsh) ?_ pid
    exact (hb b c.argv).later bot_le
  | program image => exact heeds_shell.andThen fun sh => heeds_runImage allowed pid _ image

theorem heeds_runStages {files : Nat → Stdio} {count : Nat}
    (allowed : ∀ index < count, (files index).Allowed A n)
    (stages : List (Int × Command × Stage)) {index : Nat} (inside : index + stages.length ≤ count) :
    Heeds A n (runStages (fun _ => source) files index stages) := by
  induction stages generalizing index with
  | nil => exact rest
  | cons s stages ih =>
    obtain ⟨pid, c, stage⟩ := s
    rw [List.length_cons] at inside
    refine (heeds_runStage hb (allowed index (by omega)) pid c stage).andThen fun _ => ?_
    exact ih (by omega)

omit hb in
theorem heeds_waitForStages (stages : List (Int × Command × Stage)) :
    Heeds A n (waitForStages stages) := by
  induction stages with
  | nil => exact rest
  | cons s stages ih =>
    obtain ⟨pid, c, stage⟩ := s
    have all (status : Int) : Heeds A n (do return status :: (← waitForStages stages)) :=
      ih.andThen fun _ => rest
    refine (heeds_waitFor pid).andThen ?_
    rintro (e | outcome)
    · exact andThen rest all
    · exact (heeds_settle pid _ outcome).andThen all

theorem heeds_runBetween (stages : List (Command × Stage))
    {ends : Option Handle × Option Handle} (read : ∀ h, ends.1 = some h → A.Free n h)
    (written : ∀ h, ends.2 = some h → A.Free n h) :
    Heeds A n (runBetween (fun _ => source) stages ends).run := by
  refine (liftBind (Q := fun _ _ => True) (abides_openPipes _) fun i pipes le opened => ?_).heeds
  refine liftThen heeds_flush fun _ => ?_
  refine tryBind (tryMapM fun s => ?_) fun j tasks le' length => ?_
  · refine (liftThen (Q := fun _ _ => True) (heeds_spawn false) fun _ => ?_).heeds
    exact tryPure fun _ _ => trivial
  refine liftBind abides_shell fun k own le'' allowed => ?_
  have more := le_trans (le_trans le le') le''
  have given := allowed_getD allowed.stdio (fun h hh => (read h hh).mono more)
    fun h hh => (written h hh).mono more
  have free : ∀ e ∈ pipes, A.Free k e.1 ∧ A.Free k e.2 := fun e he =>
    ⟨(opened.2 e he).1.mono (le_trans le' le''), (opened.2 e he).2.mono (le_trans le' le'')⟩
  refine liftThen (heeds_withForeground _ ?_) fun statuses => ?_
  · have files index (inside : index < pipes.length + 1) :=
      allowed_stageFiles given free (Nat.le_of_lt_succ inside)
    refine andThen (heeds_runStages hb files tasks ?_) fun _ => heeds_waitForStages tasks
    have pipes := opened.1
    omega
  · exact liftThen heeds_shell fun _ => tryPure fun _ _ => trivial

theorem heeds_runPipeline (p : Pipeline) : Heeds A n (runPipeline source p).run := by
  refine (tryThen (Q := fun _ _ => True) (tryMapM fun c => ?_).heeds fun stages => ?_).heeds
  · refine (tryThen (Q := fun _ _ => True) (heeds_planStage c) fun _ => ?_).heeds
    exact tryPure fun _ _ => trivial
  refine (abides_openEnds p).tryBind fun k ends _ free => ?_
  exact (heeds_runBetween hb stages free.1 free.2).mono fun _ r _ => by cases r <;> trivial

omit hb in
theorem heeds_runBuiltin {b : Builtin} {c : Command} (hb : Heeds A ⊥ (b.run source c.argv)) :
    Heeds A n (runBuiltin source b c).run := by
  refine (liftBind (Q := fun _ _ => True) abides_shell fun k sh _ allowed => ?_).heeds
  refine tryThen (heeds_redirectForBuiltin c allowed.stdio) fun _ => ?_
  refine liftThen (hb.later bot_le) fun status => liftThen heeds_flush fun _ => ?_
  refine ite ?_ (tryPure fun _ _ => trivial)
  exact liftThen (heeds_restore allowed.stdio) fun _ => tryPure fun _ _ => trivial

end

section
variable {source : Builtin.Sourcing} {ts : List Token} (hc : Heeds A ⊥ (executeChain source ts))
include hc

theorem heeds_runLaunch {copy : Shell} (copied : copy.Allowed A n) {stdio : Stdio}
    (allowed : stdio.Allowed A n) (pid : Int) (launch : Launch) :
    Heeds A n (runLaunch (fun _ => executeChain source ts) pid copy launch stdio) := by
  cases launch with
  | program c image => exact heeds_runImage allowed pid _ image
  | copy =>
    have given : Shell.Allowed A n { copy with stdio, interactive := false } :=
      { copied with stdio := allowed }
    exact heeds_runCopy given (hc.later bot_le) pid

theorem heeds_startBackground : Heeds A n (startBackground source ts).run := by
  refine (tryThen (Q := fun _ _ => True) (heeds_planBackground ts) fun launch => ?_).heeds
  refine (abides_openForLaunch launch).tryBind fun j files _ opened => ?_
  refine liftThen heeds_flush fun _ => liftBind abides_shell fun k copy le copied => ?_
  refine liftThen (heeds_spawn true) fun pid => liftThen (heeds_modifyJobs _) fun _ => ?_
  refine liftThen (heeds_modifyVars _) fun _ => liftThen (heeds_say _) fun _ => ?_
  have apart : Heeds A k
      (runApart pid files.1 files.2 copy
        (runLaunch (fun _ => executeChain source ts) pid copy launch)) :=
    heeds_runApart (opened.1.mono le) (fun h hh => (opened.2 h hh).mono le) copied
      fun _ _ more allowed => heeds_runLaunch hc (copied.mono more) allowed pid launch
  exact apart.mono fun _ _ _ => trivial

end

/-! ### Lines and whole steps -/

theorem heeds_reapJobs : Heeds A n reapJobs := by
  intro m hm _
  let reaped := JobTable.reapJobs m.shell.pid m.shell.jobs.jobs m.host.toProcessTable
  have noted : Course A m.host [] { m.host with toProcessTable := reaped.2.2 } :=
    Host.course_processes (.reapJobs _ _)
  have tell : Heeds A ⊥ _ := ofBuiltins_abides.announce reaped.1
  have confined : Machine.Confined A
      { shell := { m.shell with jobs := { m.shell.jobs with jobs := reaped.2.1 } }
        host := { m.host with toProcessTable := reaped.2.2 } } :=
    ⟨noted.within hm.host, hm.shell.stdio, hm.shell.log, hm.shell.directory⟩
  obtain ⟨⟨log, told⟩, allowed, -⟩ := tell _ confined bot_le
  exact ⟨⟨_, noted.trans told⟩, allowed, trivial⟩

/-- What lines are put together from uses no other files. -/
theorem ofLines_abides : OfLines (fun {α} (Q : α → Prop) (x : SessionM α) =>
    Abides A ⊥ (fun _ => Q) x) fun m => m.Confined A where
  toOfBuiltins := ofBuiltins_abides
  assigned := heeds_modifyVars
  asked _ := heeds_modifyRest fun _ => ⟨rfl, rfl, rfl⟩
  depth _ := heeds_modifyRest fun _ => ⟨rfl, rfl, rfl⟩
  buildCommand := heeds_buildCommand
  buildPipeline := heeds_buildPipeline
  runBuiltin hb := heeds_runBuiltin hb
  runExternal := heeds_runExternal
  runPipeline _ hb := heeds_runPipeline hb _
  startBackground hc := heeds_startBackground hc
  stuck hm endless := heeds_halt (standing_of_readText hm endless)

/-- The ways in which files are sourced: from a line, or from a file that is being sourced. -/
def IsSourcing (source : Builtin.Sourcing) : Prop :=
  source = sourceFile ∨ ∃ levels, source = sourceWithin levels

theorem IsSourcing.heeds {source : Builtin.Sourcing} (h : IsSourcing source) (path : String) :
    Heeds A n (source path) := by
  obtain rfl | ⟨levels, rfl⟩ := h
  · exact (ofLines_abides.sourceFile path).later bot_le
  · exact (ofLines_abides.sourceWithin levels path).later bot_le

theorem heeds_builtin {source : Builtin.Sourcing} (hs : ∀ path, Heeds A ⊥ (source path))
    (b : Builtin) (argv : List String) : Heeds A n (b.run source argv) :=
  (ofLines_abides.anyBuiltin hs b argv).later bot_le

theorem heeds_runLine (line : String) : Heeds A n (runLine line) :=
  (ofLines_abides.runLine line).later bot_le

theorem heeds_step (step : Transcript.Step) : Heeds A n (Transcript.perform step) :=
  (ofLines_abides.perform step (fun _ => heeds_reapJobs)
    fun _ _ _ => heeds_modifyProcesses fun _ => .filter _).later bot_le

end SessionM

/-! ### States of a session -/

/-- What may be used on a host by a shell with some files and a log: each of them for what it is there
for, and whatever is opened from now on. What processes have held back may still be delivered. -/
def Host.access (s : Host) (stdio : Stdio) (log : Option Handle) : Access where
  bound := s.opened.size
  reads h := h = stdio.input ∨ s.opened.size ≤ h
  prints h := h = stdio.output ∨ s.opened.size ≤ h
  complains h := h = stdio.error ∨ s.opened.size ≤ h
  records h := h ∈ log
  holds h b := h = stdio.output ∨ h = stdio.error ∨ h ∈ log ∨ s.opened.size ≤ h ∨
    ∃ p ∈ s.processes, (h, b) ∈ p.held
  crashes := s.isFull stdio.error = true
  standing id := s.tree.isEndless id = true ∧ ¬s.tree.Unlisted id
  directory := s.tree.isDirectory
  fresh new := ⟨.inr new, .inr new, .inr new⟩
  held := by
    rintro h ((own | new) | (own | new) | log) b
    · exact .inl own
    · exact .inr (.inr (.inr (.inl new)))
    · exact .inr (.inl own)
    · exact .inr (.inr (.inr (.inl new)))
    · exact .inr (.inr (.inl log))

namespace Machine

/-- The files of a session and of its processes are open, and they and the directory of the session
are part of a sound tree. A session that is in order stays so, whatever it does
(`Machine.Reaches.inOrder`). -/
structure InOrder (m : Machine) : Prop where
  sound : m.host.tree.Sound
  nodes : ∀ (h : Handle) (o : OpenFile), m.host.opened[h]? = some o → m.host.tree.Has o.node
  input : m.shell.stdio.input < m.host.opened.size
  output : m.shell.stdio.output < m.host.opened.size
  error : m.shell.stdio.error < m.host.opened.size
  log : ∀ h ∈ m.shell.log, h < m.host.opened.size
  held : ∀ p ∈ m.host.processes, ∀ e ∈ p.held, e.1 < m.host.opened.size
  directory : m.host.tree.isDirectory m.shell.directory = true
  next : 0 < m.host.nextPid

variable {A : Access} {m start : Machine} {others : Bool}

/-- What a session may use. -/
def access (m : Machine) : Access := m.host.access m.shell.stdio m.shell.log

theorem Confined.inOrder (h : m.Confined A) : m.InOrder where
  sound := h.host.sound
  nodes := h.host.nodes
  input := h.shell.stdio.input.2
  output := h.shell.stdio.output.2
  error := h.shell.stdio.error.2
  log f hf := (h.shell.log f hf).2
  held p hp e he := (h.host.held p hp e he).2
  directory := h.isDirectory
  next := h.host.next

theorem InOrder.within (h : m.InOrder) (stdio : Stdio) (log : Option Handle) :
    m.host.Within (m.host.access stdio log) where
  bound := Nat.le_refl _
  sound := h.sound
  directories _ := rfl
  standing _ endless listed := ⟨endless, listed⟩
  nodes := h.nodes
  held p hp e he := ⟨.inr (.inr (.inr (.inr ⟨p, hp, he⟩))), h.held p hp e he⟩
  next := h.next

theorem InOrder.confined (h : m.InOrder) : m.Confined m.access := by
  have space : m.host.isFull m.shell.stdio.error = true ∨
      m.host.extent.spacious m.shell.stdio.error := by
    cases full : m.host.isFull m.shell.stdio.error with
    | true => exact .inl rfl
    | false => exact .inr ⟨h.error, full⟩
  exact ⟨h.within _ _, ⟨⟨.inl rfl, h.input⟩, ⟨.inl rfl, h.output⟩, ⟨.inl rfl, h.error⟩, space⟩,
    fun f hf => ⟨hf, h.log f hf⟩, h.directory⟩

theorem InOrder.after (h : m.InOrder) {α : Type} {x : SessionM α}
    (hx : SessionM.Heeds m.access ⊥ x) : (x m).2.InOrder :=
  (hx.confined h.confined bot_le).inOrder

/-- Processes may change in any way that gives them no other files. -/
theorem InOrder.onProcesses (h : m.InOrder) {processes : ProcessTable}
    (retains : m.host.toProcessTable.Retains processes) :
    InOrder { m with host := { m.host with toProcessTable := processes } } where
  sound := h.sound
  nodes := h.nodes
  input := h.input
  output := h.output
  error := h.error
  log := h.log
  held p hp e he := by
    obtain ⟨q, hq, he⟩ := retains.held p hp e he
    exact h.held q hq e he
  directory := h.directory
  next := Int.lt_of_lt_of_le h.next retains.next

/-- What a shell can come to a halt by in a session: if standard error is full, by giving up; at a file
in some directory that has no end; or by a signal that it sends itself. -/
def Halts (m : Machine) : Halt → Prop
  | .crashed => m.host.isFull m.shell.stdio.error = true
  | .stuck file => m.host.tree.isEndless file = true ∧ ¬m.host.tree.Unlisted file
  | .struck _ => True

/-- No shell has come to a halt for any other reason after a line, be it that of the session or a copy
of it. -/
theorem InOrder.halts_runLine (h : m.InOrder) {line : String} {pid : Int} {cause : Halt}
    (halted : (pid, some cause) ∈ (SessionM.runLine line m).2.host.halts) :
    (pid, some cause) ∈ m.host.halts ∨ m.Halts cause := by
  obtain ⟨⟨log, course⟩, -⟩ := SessionM.heeds_runLine line m h.confined bot_le
  refine (course.halts halted).imp_right fun admitted => ?_
  cases cause <;> exact admitted

theorem Reaches.inOrder (sound : start.InOrder) (reached : start.Reaches others m) :
    m.InOrder := by
  induction reached with
  | start => exact sound
  | befall _ e _ ih => exact ih.onProcesses (.applyEvent e)
  | @step m _ c _ step _ ih =>
    have under : (m.under c).InOrder :=
      ih.onProcesses ⟨fun p hp _ he => ⟨p, hp, he⟩, Int.le_refl _⟩
    exact under.after (SessionM.heeds_step step)

/-- A session that starts in a directory of a sound tree is in order. -/
theorem inOrder_start {tree : FileTree} (sound : tree.Sound) {directory : NodeId}
    (here : tree.isDirectory directory = true) {input : Node}
    (plain : ∀ parent entries, input ≠ .directory parent entries)
    (environment : List (String × String)) (config : Config) :
    (Machine.start tree directory input environment config).InOrder := by
  let empty := Host.ofTree tree
  -- Where nothing is open, everything is still to be opened.
  let A := empty.access ⟨0, 0, 0⟩ none
  have within : empty.Within A :=
    { bound := Nat.le_refl _
      sound
      directories := fun _ => rfl
      standing := fun _ endless listed => ⟨endless, listed⟩
      nodes := fun h o here => by cases here
      held := fun p hp => by cases hp
      next := (by decide : 0 < ProcessTable.initial.nextPid) }
  let first := (empty.openUnnamed input).2
  let second := (first.openUnnamed (.file [] false)).2
  have opened : Host.Course A empty [] (second.openUnnamed (.file [] false)).2 :=
    (Host.course_openUnnamed plain).trans ((Host.course_openUnnamed (by rintro _ _ ⟨⟩)).trans
      (Host.course_openUnnamed (by rintro _ _ ⟨⟩)))
  have all := opened.within within
  exact
    { sound := all.sound
      nodes := all.nodes
      input := (by decide : 0 < 3)
      output := (by decide : 1 < 3)
      error := (by decide : 2 < 3)
      log := fun _ none => by cases none
      held := fun p hp e he => (all.held p hp e he).2
      directory := (all.directories directory).trans here
      next := all.next }

end Machine
end JobShell
