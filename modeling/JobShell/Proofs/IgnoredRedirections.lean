import JobShell.Proofs.RedirectionOrder

/-! Redirections that a pipeline drops are not without effect: their targets are opened with all
others before the pipeline is built. -/
namespace JobShell

open Token Grammar

namespace SessionM

/-! ### Files that are opened for a pipeline -/

/-- A tree after a file in it has been opened to write to it, if there is one to be opened. -/
def written (t : FileTree) (dir : NodeId) : Option Target → Except FileError FileTree
  | none => .ok t
  | some target =>
    (t.openForWriting dir target.path).map fun opened =>
      if target.append then opened.2 else opened.2.truncate opened.1

/-- A tree after the files that a pipeline is run with have been opened. -/
def openedFor (t : FileTree) (dir : NodeId) (p : Pipeline) : Except FileError FileTree := do
  let _ ← (p.head?.bind Command.input).mapM (t.lookup true dir)
  written t dir (p.getLast?.bind Command.target?)

/-- An attempt that fails where it has to and then leaves all files alone, and otherwise leaves
certain files behind. -/
inductive LeavesFiles {α : Type} (x : AttemptM α) (m : Machine) :
    Except FileError FileTree → Prop where
  | failed {e : ShellError} {m' : Machine} (run : x.run m = (.error e, m'))
    (same : m'.host.tree = m.host.tree) (cause : FileError) : LeavesFiles x m (.error cause)
  | done {a : α} {m' : Machine} (run : x.run m = (.ok a, m')) : LeavesFiles x m (.ok m'.host.tree)

theorem shell_apply (m : Machine) : shell m = (m.shell, m) := rfl

theorem liftBind_run {α β : Type} (x : SessionM α) (f : α → AttemptM β) (m : Machine) :
    (liftM x >>= f).run m = (f (x m).1).run (x m).2 := rfl

theorem openInput_run (path : String) (m : Machine) :
    (openInput path).run m =
      match m.host.tree.lookup true m.shell.directory path with
      | .error e => (.error (.redirectionTarget path e), m)
      | .ok node =>
        (.ok m.host.opened.size, { m with host := (m.host.openNode node false).2 }) := by
  rw [openInput, liftBind_run, liftBind_run, shell_apply, tryHost_apply, Host.openForReading]
  cases m.host.tree.lookup true m.shell.directory path <;> rfl

theorem openOutput_run (target : Target) (m : Machine) :
    (openOutput target).run m =
      match m.host.tree.openForWriting m.shell.directory target.path with
      | .error e => (.error (.redirectionTarget target.path e), m)
      | .ok (node, tree) =>
        let tree := if target.append then tree else tree.truncate node
        (.ok m.host.opened.size,
          { m with host := ({ m.host with tree }.openNode node target.append).2 }) := by
  rw [openOutput, liftBind_run, liftBind_run, shell_apply, tryHost_apply, Host.openForWriting]
  cases m.host.tree.openForWriting m.shell.directory target.path <;> rfl

theorem LeavesFiles.of_run {α : Type} {x y : AttemptM α} {m m' : Machine}
    {r : Except FileError FileTree} (run : x.run m = y.run m') (same : m'.host.tree = m.host.tree)
    (h : LeavesFiles y m' r) : LeavesFiles x m r := by
  cases h with
  | failed failed same' cause => exact .failed (run.trans failed) (same'.trans same) cause
  | done done => exact .done (run.trans done)

theorem LeavesFiles.thenPure {α β : Type} {x : AttemptM α} {m : Machine}
    {r : Except FileError FileTree} (h : LeavesFiles x m r) (f : α → β) :
    LeavesFiles (x >>= fun a => pure (f a)) m r := by
  cases h with
  | failed run same cause => exact .failed (tryBind_of_error run _) same cause
  | done run => exact .done (tryBind_of_ok run _)

theorem LeavesFiles.exists_run {α : Type} {x : AttemptM α} {m : Machine} {t : FileTree}
    (h : LeavesFiles x m (.ok t)) : ∃ a m', x.run m = (.ok a, m') ∧ m'.host.tree = t := by
  cases h with
  | done run => exact ⟨_, _, run, rfl⟩

theorem LeavesFiles.eq_or_eq {α : Type} {x : AttemptM α} {m : Machine}
    {r : Except FileError FileTree} (h : LeavesFiles x m r) :
    (x.run m).2.host.tree = m.host.tree ∨ r = .ok (x.run m).2.host.tree := by
  cases h with
  | failed run same =>
    rw [run]
    exact .inl same
  | done run =>
    rw [run]
    exact .inr rfl

theorem leavesFiles_outputs (output : Option Target) (m : Machine) :
    LeavesFiles (output.mapM openOutput) m (written m.host.tree m.shell.directory output) := by
  cases output with
  | none => exact .done rfl
  | some target =>
    refine LeavesFiles.thenPure ?_ some
    have run := openOutput_run target m
    rw [written]
    cases found : m.host.tree.openForWriting m.shell.directory target.path with
    | error e =>
      rw [found] at run
      exact .failed run rfl e
    | ok opened =>
      rw [found] at run
      exact .done run

theorem leavesFiles_openEnds (p : Pipeline) (m : Machine) :
    LeavesFiles (openEnds p) m (openedFor m.host.tree m.shell.directory p) := by
  unfold openEnds openedFor
  cases p.head?.bind Command.input with
  | none => exact (leavesFiles_outputs _ m).thenPure (none, ·)
  | some path =>
    have run := openInput_run path m
    cases found : m.host.tree.lookup true m.shell.directory path with
    | error e =>
      rw [found] at run
      have unread : (some path).mapM (m.host.tree.lookup true m.shell.directory) = .error e := by
        rw [Option.mapM_some, found]
        rfl
      rw [unread]
      exact .failed (tryBind_of_error (tryBind_of_error run _) _) rfl e
    | ok node =>
      rw [found] at run
      have read : (some path).mapM (m.host.tree.lookup true m.shell.directory) =
          .ok (some node) := by
        rw [Option.mapM_some, found]
        rfl
      rw [read]
      have opened : ((some path).mapM openInput).run m = (.ok (some m.host.opened.size), _) :=
        tryBind_of_ok run _
      refine .of_run (tryBind_of_ok opened _) rfl ?_
      exact (leavesFiles_outputs _ _).thenPure (some _, ·)

end SessionM

/-! ### Targets that a pipeline keeps -/

namespace Pipeline

variable {here : Surroundings} {t opened : FileTree} {p : PipelineTree} {built : Pipeline}
  {c : Command}

theorem exists_command_of_mem (h : build here p.tokens t = (.ok built, opened))
    (member : c ∈ built) :
    ∃ cmd ∈ p.commands, ∃ count i, c = stage count i (Command.spelled here opened cmd.tokens) := by
  rw [eq_stages_of_build h, ← segments_eq_splitOnP, p.segments_tokens] at member
  obtain ⟨i, inside, rfl⟩ := List.mem_mapIdx.1 member
  rw [List.getElem_map]
  exact ⟨_, List.getElem_mem _, _, i, rfl⟩

theorem redirections_subset {cmd : CommandTree} (h : cmd ∈ p.commands) :
    redirections cmd.tokens ⊆ redirections p.tokens := by
  intro r member
  rw [p.redirections_tokens]
  exact List.mem_flatMap.2 ⟨cmd, h, member⟩

theorem exists_input_of_mem (h : build here p.tokens t = (.ok built, opened)) (member : c ∈ built)
    {path : String} (input : c.input = some path) :
    ∃ r ∈ redirections p.tokens, path = Command.targetPath here r.2 := by
  obtain ⟨cmd, hcmd, count, i, rfl⟩ := exists_command_of_mem h member
  simp only [stage, Option.ite_none_right_eq_some] at input
  obtain ⟨r, last, rfl⟩ := Option.map_eq_some_iff.1 input.2
  have mem := List.mem_of_getLast? last
  exact ⟨r, redirections_subset hcmd (List.mem_filter.1 mem).1, rfl⟩

theorem exists_output_of_mem (h : build here p.tokens t = (.ok built, opened)) (member : c ∈ built)
    {target : Target} (output : c.target? = some target) :
    ∃ r ∈ redirections p.tokens, r.1.kind ≠ .input ∧
      target = ⟨Command.targetPath here r.2, r.1.kind = .append⟩ := by
  obtain ⟨cmd, hcmd, count, i, rfl⟩ := exists_command_of_mem h member
  obtain ⟨path, named, rfl⟩ := Option.map_eq_some_iff.1 output
  simp only [stage, Option.ite_none_right_eq_some] at named
  obtain ⟨atEnd, spelled⟩ := named
  obtain ⟨r, last, rfl⟩ := Option.map_eq_some_iff.1 spelled
  obtain ⟨mem, kind⟩ := List.mem_filter.1 (List.mem_of_getLast? last)
  refine ⟨r, redirections_subset hcmd mem, of_decide_eq_true kind, ?_⟩
  have flag : (Command.spelled here opened cmd.tokens).append = decide (r.1.kind = .append) := by
    rw [Command.spelled, last]
    rfl
  rw [stage, flag, decide_eq_true atEnd, Bool.true_and]

theorem inTurn_of_build (h : build here p.tokens t = (.ok built, opened)) :
    Command.InTurn here (redirections p.tokens) t opened := by
  rw [← Command.openAll_eq_ok,
    ← Command.checkRedirections_eq_openAll fun _ => p.target_not_isRedirection]
  unfold build at h
  split at h
  · cases h
  · next probed checked =>
    obtain ⟨-, rfl⟩ := Prod.mk.inj h
    exact checked

end Pipeline

namespace Command

variable {here : Surroundings} {r r' : Token × Token} {t s alone : FileTree}

theorem written_eq_openTarget (redirection : r.1.kind.isRedirection = true)
    (output : r.1.kind ≠ .input) :
    SessionM.written t here.directory (some ⟨targetPath here r.2, r.1.kind = .append⟩) =
      openTarget here r t := by
  rw [SessionM.written, openTarget_output output]
  generalize r.1.kind = kind at redirection output
  cases kind with
  | input => exact absurd rfl output
  | output | append => rfl
  | _ => cases redirection

/-- If opening one target settles another one, then opening that other one instead does the same or
nothing. -/
theorem Opens.eq_or_eq (sound : t.Sound) (h : Opens here r t alone) (h' : Opens here r' t s)
    (settled : Settled here r' alone) : s = t ∨ s = alone := by
  obtain ⟨id', names', -, empty⟩ := settled
  cases h' with
  | read | kept => exact .inl rfl
  | @emptied id n output found noDirectory node =>
    obtain rfl : id = id' := Except.ok.inj ((found.grow sound h.grows).symm.trans names')
    -- Either the file was empty before, or it is the one that has been emptied.
    by_cases same : alone.get? id = t.get? id
    · rw [empty output n (same.trans node)]
      exact .inl (FileTree.set_eq_self node)
    · obtain directory | ⟨-, n', node', rfl⟩ := h.changed (FileTree.has_of_get? node) same
      · cases noDirectory.symm.trans directory
      · cases node.symm.trans node'
        exact .inr rfl
  | @made dir name output missing directory none =>
    have child := (h.grows.lookup_missing sound missing id').1 names'
    cases h with
    | read | kept => cases none.symm.trans child
    | emptied _ _ _ node =>
      rw [FileTree.child?_set_emptied node, none] at child
      cases child
    | made _ _ directory' =>
      rw [FileTree.child?_create directory'] at child
      split at child
      · next place =>
        obtain ⟨rfl, rfl⟩ := place
        exact .inr rfl
      · cases none.symm.trans child

/-- One step of a probe between a tree and what opening one target makes of it. -/
theorem eq_or_eq_of_openTarget (sound : t.Sound) (directory : t.isDirectory here.directory = true)
    (start : alone = t ∨ ∃ r, openTarget here r t = .ok alone)
    (settled : r'.1.kind ≠ .input → Settled here r' alone) {u : FileTree}
    (between : s = t ∨ s = alone) (h : openTarget here r' s = .ok u) : u = t ∨ u = alone := by
  by_cases input : r'.1.kind = .input
  · obtain ⟨rfl, -⟩ := (openTarget_input input).1 h
    exact between
  have settled := settled input
  have atEnd (h : openTarget here r' alone = .ok u) : u = t ∨ u = alone :=
    .inr (Except.ok.inj (h.symm.trans settled.openTarget_eq))
  obtain rfl | rfl := between
  · obtain rfl | ⟨r, first⟩ := start
    · exact atEnd h
    · exact (opens_of_openTarget sound directory first).eq_or_eq sound
        (opens_of_openTarget sound directory h) settled
  · exact atEnd h

theorem InTurn.eq_or_eq {rs : List (Token × Token)} {u : FileTree} (h : InTurn here rs s u)
    (sound : t.Sound) (directory : t.isDirectory here.directory = true)
    (start : alone = t ∨ ∃ r, openTarget here r t = .ok alone)
    (settled : ∀ r' ∈ rs, r'.1.kind ≠ .input → Settled here r' alone)
    (between : s = t ∨ s = alone) : u = t ∨ u = alone := by
  induction h with
  | nil => exact between
  | cons first rest ih =>
    obtain ⟨here, later⟩ := List.forall_mem_cons.1 settled
    exact ih later (eq_or_eq_of_openTarget sound directory start here between first)

/-- Probing targets does no more than opening one of them, or none, just if that settles all targets
that are written to. -/
theorem InTurn.eq_iff_settled {rs : List (Token × Token)} {opened : FileTree}
    (h : InTurn here rs t opened) (sound : t.Sound)
    (directory : t.isDirectory here.directory = true)
    (start : alone = t ∨ ∃ r ∈ rs, openTarget here r t = .ok alone) :
    opened = alone ↔ ∀ r ∈ rs, r.1.kind ≠ .input → Settled here r alone := by
  have probed := h.opened sound directory
  refine ⟨?_, fun settled => ?_⟩
  · rintro rfl r member -
    exact probed.settled r member
  obtain rfl | same :=
    h.eq_or_eq sound directory (start.imp_right fun ⟨r, _, first⟩ => ⟨r, first⟩) settled (.inl rfl)
  · -- If the probe has changed nothing, the one target was settled before.
    obtain same | ⟨r, member, first⟩ := start
    · exact same.symm
    · exact Except.ok.inj ((probed.settled r member).openTarget_eq.symm.trans first)
  · exact same

end Command

namespace Pipeline

variable {here : Surroundings} {t opened : FileTree} {p : PipelineTree} {built : Pipeline}

/-- Files that have been probed can be opened, which changes nothing more. -/
theorem openedFor_probed (h : build here p.tokens t = (.ok built, opened))
    (settled : ∀ r ∈ redirections p.tokens, Command.Settled here r opened) :
    SessionM.openedFor opened here.directory built = .ok opened := by
  have input : ∃ node, (built.head?.bind Command.input).mapM (opened.lookup true here.directory) =
      .ok node := by
    cases found : built.head?.bind Command.input with
    | none => exact ⟨none, rfl⟩
    | some path =>
      obtain ⟨c, first, input⟩ := Option.bind_eq_some_iff.1 found
      obtain ⟨r, member, rfl⟩ := exists_input_of_mem h (List.mem_of_head? first) input
      obtain ⟨id, names, -⟩ := settled r member
      refine ⟨some id, ?_⟩
      rw [Option.mapM_some, names]
      rfl
  have output : SessionM.written opened here.directory (built.getLast?.bind Command.target?) =
      .ok opened := by
    cases found : built.getLast?.bind Command.target? with
    | none => rfl
    | some target =>
      obtain ⟨c, last, output⟩ := Option.bind_eq_some_iff.1 found
      obtain ⟨r, member, kind, rfl⟩ := exists_output_of_mem h (List.mem_of_getLast? last) output
      rw [Command.written_eq_openTarget (List.mem_filter.1 member).2 kind]
      exact (settled r member).openTarget_eq
  obtain ⟨node, input⟩ := input
  rw [SessionM.openedFor, input]
  exact output

/-- Opening the files of a pipeline alone is opening one target at most. -/
theorem openedFor_cases (h : build here p.tokens t = (.ok built, opened)) {alone : FileTree}
    (left : SessionM.openedFor t here.directory built = .ok alone) :
    alone = t ∨ ∃ r ∈ redirections p.tokens, Command.openTarget here r t = .ok alone := by
  have output : SessionM.written t here.directory (built.getLast?.bind Command.target?) =
      .ok alone := by
    rw [SessionM.openedFor] at left
    cases read : (built.head?.bind Command.input).mapM (t.lookup true here.directory) with
    | error e =>
      rw [read] at left
      cases left
    | ok node =>
      rw [read] at left
      exact left
  cases found : built.getLast?.bind Command.target? with
  | none =>
    rw [found] at output
    exact .inl (Except.ok.inj output).symm
  | some target =>
    obtain ⟨c, last, target'⟩ := Option.bind_eq_some_iff.1 found
    obtain ⟨r, member, kind, rfl⟩ := exists_output_of_mem h (List.mem_of_getLast? last) target'
    rw [found, Command.written_eq_openTarget (List.mem_filter.1 member).2 kind] at output
    exact .inr ⟨r, member, output⟩

end Pipeline

/-- Building a pipeline opens the targets of all its redirections, and those that it drops are no
exception: each is left as opening it leaves it. When the files that the pipeline keeps are opened
afterwards, that succeeds and changes nothing more. So the probe makes no difference just if opening
those files alone settles every target that is written to. -/
theorem dropped_redirections_take_effect (m : Machine) (p : PipelineTree) (built : Pipeline)
    (opened : FileTree) (sound : m.host.tree.Sound)
    (directory : m.host.tree.isDirectory m.shell.directory = true)
    (h : Pipeline.build m.shell.surroundings p.tokens m.host.tree = (.ok built, opened)) :
    let here := m.shell.surroundings
    let rs := redirections p.tokens
    let alone := ((SessionM.openEnds built).run m).2.host.tree
    (∀ r ∈ rs, Command.Settled here r opened) ∧
    (∃ files m', (SessionM.openEnds built).run { m with host := { m.host with tree := opened } } =
      (.ok files, m') ∧ m'.host.tree = opened) ∧
    (opened = alone ↔ ∀ r ∈ rs, r.1.kind ≠ .input → Command.Settled here r alone) ∧
    ∀ source, SessionM.runPipeline source built = (do
      let stages ← built.mapM fun c => do return (c, ← SessionM.planStage c)
      SessionM.runBetween (fun _ => source) stages (← SessionM.openEnds built)) := by
  intro here rs alone
  have inTurn := Pipeline.inTurn_of_build h
  have settled := (inTurn.opened sound directory).settled
  refine ⟨settled, ?_, ?_, fun _ => rfl⟩
  · let probed : Machine := { m with host := { m.host with tree := opened } }
    have left := SessionM.leavesFiles_openEnds built probed
    change SessionM.LeavesFiles _ _ (SessionM.openedFor opened here.directory built) at left
    rw [Pipeline.openedFor_probed h settled] at left
    exact left.exists_run
  · refine inTurn.eq_iff_settled sound directory ?_
    obtain same | left := (SessionM.leavesFiles_openEnds built m).eq_or_eq
    · exact .inl same
    · exact Pipeline.openedFor_cases h left

/-- A file that two stages write to, of which the last one makes it anyway. -/
theorem dropped_redirections_take_effect_same_file :
    let m : Machine := ⟨(Machine.start .empty FileTree.root .null [] .default).shell,
      Host.ofTree .empty⟩
    let here := m.shell.surroundings
    let word (text : String) : Word := ⟨⟨.word, text, false⟩, rfl⟩
    let c : CommandTree := ⟨word "a", [.redirection ⟨operator .output ">", rfl⟩ (word "f")]⟩
    let d : CommandTree := ⟨word "b", [.redirection ⟨operator .append ">>", rfl⟩ (word "f")]⟩
    let p : PipelineTree := .more c ⟨operator .pipe "|", rfl⟩ (.one d)
    let built : Pipeline := [⟨["a"], none, none, false⟩, ⟨["b"], none, some "f", true⟩]
    m.host.tree.Sound ∧ m.host.tree.isDirectory m.shell.directory = true ∧
    ∃ opened, Pipeline.build here p.tokens m.host.tree = (.ok built, opened) ∧
      opened = ((SessionM.openEnds built).run m).2.host.tree := by
  intro m here word c d p built
  have built_eq : Pipeline.build here p.tokens m.host.tree = (.ok built, _) :=
    Prod.ext (by decide +kernel) rfl
  obtain ⟨-, -, iff, -⟩ :=
    dropped_redirections_take_effect m p built _ FileTree.sound_empty rfl built_eq
  refine ⟨FileTree.sound_empty, rfl, _, built_eq, iff.2 fun r member _ => ?_⟩
  have found : ((SessionM.openEnds built).run m).2.host.tree.lookup true m.shell.directory "f" =
      .ok 1 := by decide +kernel
  have file : ((SessionM.openEnds built).run m).2.host.tree.get? 1 = some (.file [] false) := rfl
  have paths : ∀ r ∈ redirections p.tokens, Command.targetPath here r.2 = "f" := by decide +kernel
  have names : Command.Names here r ((SessionM.openEnds built).run m).2.host.tree 1 := by
    rw [Command.Names, paths r member]
    exact found
  refine ⟨1, names, fun _ => rfl, fun _ n node => ?_⟩
  cases file.symm.trans node
  rfl

/-- A file that the first stage of a pipeline writes to is emptied, although nothing is ever written
to it. -/
theorem dropped_redirection_empties_file :
    let full := (FileTree.empty.create FileTree.root (Bytes.ofString "f") (.file [] false)).2.set 1
      (.file (Bytes.ofString "x") false)
    let m : Machine :=
      ⟨(Machine.start full FileTree.root .null [] .default).shell, Host.ofTree full⟩
    let word (text : String) : Word := ⟨⟨.word, text, false⟩, rfl⟩
    let c : CommandTree := ⟨word "a", [.redirection ⟨operator .output ">", rfl⟩ (word "f")]⟩
    let p : PipelineTree := .more c ⟨operator .pipe "|", rfl⟩ (.one ⟨word "b", []⟩)
    let built : Pipeline := [⟨["a"], none, none, false⟩, ⟨["b"], none, none, false⟩]
    ∃ opened, Pipeline.build m.shell.surroundings p.tokens full = (.ok built, opened) ∧
      opened.readText m.shell.directory "f" = .text "" ∧
      ((SessionM.openEnds built).run m).2.host.tree.readText m.shell.directory "f" = .text "x" := by
  intro full m word c p built
  have built_eq : Pipeline.build m.shell.surroundings p.tokens full = (.ok built, _) :=
    Prod.ext (by decide +kernel) rfl
  exact ⟨_, built_eq, by decide +kernel, by decide +kernel⟩

end JobShell
