import JobShell.Host.World
import JobShell.Proofs.ConfinedRuns
import JobShell.Proofs.ShellInvariants

/-! Redirections have a scope. A line is run here with its files given to every command in turn: to
one that stands in a file that is sourced, those of the command that sources it; and a command puts
its own redirections in their place for itself alone. A session that redirects its own files and puts
them back runs every line in this way. -/
namespace JobShell

/-- Files with others in place of input and output. -/
def Stdio.redirect (files : Stdio) (input output : Option Handle) : Stdio :=
  { files with input := input.getD files.input, output := output.getD files.output }

namespace Scoped

open SessionM hiding runBuiltin runLineWith sourceWithin sourceFile runLine

/-! ### Running with given files -/

/-- Gives files to the shell, whatever it had. -/
def give (files : Stdio) : SessionM Unit := modifyShell fun sh => { sh with stdio := files }

/-- Opens what the output of a builtin is redirected to. What has been printed goes out before, and
also if this fails behind an input that has been opened. -/
def openOutputFor (c : Command) : AttemptM (Option Handle) := do
  match c.target? with
  | none => return none
  | some target =>
    let opened : Except ShellError Handle ← liftM (openOutput target).run
    match opened with
    | .error e =>
      if c.input.isSome then
        let _ ← flush
      throw e
    | .ok h =>
      let _ ← flush
      return some h

/-- Opens what a builtin is redirected to, and tells with which files it runs. -/
def openFor (files : Stdio) (c : Command) : AttemptM Stdio := do
  let input ← c.input.mapM openInput
  let output ← openOutputFor c
  return files.redirect input output

variable (sources : Sources) (files : Stdio)

def runBuiltin (b : Builtin) (c : Command) : AttemptM Int := do
  let now ← openFor files c
  give now
  let status ← b.run (sources now) c.argv
  give now
  let _ ← flush
  give files
  return status

/-- Commands of each kind, run with given files. -/
def commands : Commands Machine where
  assign name value := do
    modifyVars (·.set name value)
    return 0
  builtin := runBuiltin sources files
  program := runExternal
  pipeline := runPipelineBy prepareImage sources

def execute (ts : List Token) : SessionM Int := do
  give files
  (commands sources files).execute ts

/-- What runs lines with given files. The files of a copy of the shell in the background are its
own. -/
def engine : Engine Machine where
  execute := execute sources files
  launch ts := do
    give files
    (startBackgroundBy prepareImage
      (fun stdio ts => Chain.run (execute sources stdio) (Chain.ofTokens ts)) ts).run

/-- Sources a file. All its lines are run with the files of the command that sources it. -/
def sourceWithin : Nat → Sources
  | 0, _, _ => return .error (.sourceDepth maxSourceDepth)
  | levels + 1, files, path => do
    give files
    (engine (sourceWithin levels) files).runFile path

def sourceFile : Sources := fun files path => do
  sourceWithin (maxSourceDepth - (← shell).sourceDepth) files path

/-- Runs a line with given files. -/
def runLine (line : String) : SessionM Int := do
  give files
  (engine sourceFile files).runLine line

end Scoped

/-! ### Files of the shell -/

/-- A machine whose shell has been given some files. -/
def Machine.giving (m : Machine) (files : Stdio) : Machine :=
  { m with shell := { m.shell with stdio := files } }

theorem Machine.giving_of_eq {m : Machine} {files : Stdio} (uses : m.shell.stdio = files) :
    m.giving files = m := by
  rw [← uses]
  rfl

namespace SessionM

open Scoped (give openOutputFor openFor)

theorem flush_apply (m : Machine) :
    flush m =
      if m.shell.unwritten.isEmpty then (.ok (), m)
      else match m.host.write m.shell.stdio.output m.shell.unwritten with
        | .error e => (.error e, m)
        | .ok t => (.ok (), ⟨{ m.shell with unwritten := [] }, t⟩) := by
  change (if _ then _ else _ : SessionM (Except Errno Unit)) m = _
  split
  · rfl
  · have written : writeDirectly m.shell.unwritten m = tryHost (fun s =>
      (s.write m.shell.stdio.output m.shell.unwritten).map fun s => ((), s)) m := rfl
    rw [Engine.bind_apply, written, tryHost_apply]
    cases m.host.write m.shell.stdio.output m.shell.unwritten <;> rfl

theorem stdio_flush (m : Machine) : (flush m).2.shell.stdio = m.shell.stdio := by
  rw [flush_apply]
  split
  · rfl
  · split <;> rfl

/-- What has gone out does not go out once more, and what has been refused is refused again. -/
theorem flush_flush (m : Machine) : (flush (flush m).2).2 = (flush m).2 := by
  rw [flush_apply m]
  split
  · next none => rw [flush_apply, if_pos none]
  · next some =>
    split
    · next e refused =>
      rw [flush_apply, if_neg some]
      dsimp only
      rw [refused]
    · rw [flush_apply]
      rfl

/-- Only the output matters. -/
theorem flush_giving {m : Machine} {files : Stdio} (same : files.output = m.shell.stdio.output) :
    flush (m.giving files) = ((flush m).1, (flush m).2.giving files) := by
  have held : (m.giving files).shell.unwritten = m.shell.unwritten := rfl
  have written : (m.giving files).host.write (m.giving files).shell.stdio.output
      m.shell.unwritten = m.host.write m.shell.stdio.output m.shell.unwritten := by
    rw [← same]
    rfl
  rw [flush_apply, flush_apply, held, written]
  split
  · rfl
  · split <;> rfl

theorem openOutput_giving (target : Target) (files : Stdio) (m : Machine) :
    (openOutput target).run (m.giving files) =
      (((openOutput target).run m).1, ((openOutput target).run m).2.giving files) := by
  have opened : (m.giving files).host.tree.openForWriting (m.giving files).shell.directory
      target.path = m.host.tree.openForWriting m.shell.directory target.path := rfl
  rw [openOutput_run, openOutput_run, opened]
  rcases m.host.tree.openForWriting m.shell.directory target.path with e | ⟨node, tree⟩ <;> rfl

/-- The second half of redirecting for a builtin. -/
def redirectOutputFor (c : Command) (own : Stdio) : AttemptM Unit := do
  if let some target := c.target? then
    let opened : Except ShellError Handle ← liftM (openOutput target).run
    match opened with
    | .error e =>
      if c.input.isSome then restore own
      throw e
    | .ok h =>
      let _ ← flush
      redirectOutput h

theorem redirectForBuiltin_eq (c : Command) (own : Stdio) :
    redirectForBuiltin c own = (do
      if let some path := c.input then
        let h ← openInput path
        redirectInput h
      redirectOutputFor c own) := rfl

theorem redirectOutputFor_run {c : Command} {m : Machine} {now : Stdio}
    (same : now.output = m.shell.stdio.output) (plain : c.input = none → now = m.shell.stdio) :
    (redirectOutputFor c m.shell.stdio).run (m.giving now) =
      (do give (now.redirect none (← openOutputFor c)) : AttemptM Unit).run m := by
  unfold redirectOutputFor openOutputFor
  rcases c.target? with _ | target
  · rfl
  have kept : ((openOutput target).run m).2.shell = m.shell := by
    rw [openOutput_run]
    split <;> rfl
  simp only [bind_assoc]
  rw [liftBind_run, liftBind_run, openOutput_giving]
  generalize (openOutput target).run m = opened at kept ⊢
  obtain ⟨e | h, m'⟩ := opened
  · dsimp only at kept ⊢
    rcases input : c.input with _ | path
    · rw [plain input, ← kept, Machine.giving_of_eq rfl]
      rfl
    · have out : now.output = m'.shell.stdio.output := kept ▸ same
      have stays : (flush m').2.shell.stdio = m.shell.stdio := by rw [stdio_flush, kept]
      have restored : (restore m.shell.stdio (m'.giving now)).2 = (flush m').2 := by
        change (flush (m'.giving now)).2.giving m.shell.stdio = _
        rw [flush_giving out]
        exact Machine.giving_of_eq stays
      change (Except.error e, (restore m.shell.stdio (m'.giving now)).2) = (Except.error e, _)
      rw [restored]
      rfl
  · dsimp only at kept ⊢
    have out : now.output = m'.shell.stdio.output := kept ▸ same
    rw [liftBind_run, flush_giving out]
    rfl

/-- To redirect is to open, and to use what has been opened from then on. -/
theorem redirectForBuiltin_run (c : Command) (m : Machine) :
    (redirectForBuiltin c m.shell.stdio).run m =
      (do give (← openFor m.shell.stdio c) : AttemptM Unit).run m := by
  rw [redirectForBuiltin_eq]
  unfold openFor
  rcases input : c.input with _ | path
  · have run := redirectOutputFor_run (c := c) (m := m) rfl fun _ => rfl
    rw [Machine.giving_of_eq rfl] at run
    simp only [Option.mapM_none, pure_bind, bind_assoc]
    exact run
  · have kept : ((openInput path).run m).2.shell = m.shell := by
      rw [openInput_run]
      split <;> rfl
    simp only [Option.mapM_some, bind_assoc, map_eq_pure_bind, pure_bind]
    rcases opened : (openInput path).run m with ⟨e | h, m'⟩
    · rw [tryBind_of_error opened, tryBind_of_error opened]
    · rw [opened] at kept
      rw [tryBind_of_ok opened, tryBind_of_ok opened]
      let now : Stdio := { m'.shell.stdio with input := h }
      have out : now.output = m'.shell.stdio.output := rfl
      rw [← kept]
      exact redirectOutputFor_run out (by simp [input])

end SessionM

/-! ### Two runs with the same files -/

/-- A shell has been given some files. -/
def Shell.Uses (files : Stdio) (sh : Shell) : Prop := sh.stdio = files

open Shell (Uses)

namespace SessionM

variable {α : Type} {files : Stdio} {Q : α → Prop}

theorem kept_uses (files : Stdio) : Kept (Uses files) fun _ => True where
  admits :=
    { refl _ := id
      trans first second := second ∘ first
      printed _ _ := id
      aliases _ _ := id
      jobs _ _ := id
      watched _ _ := id
      moved _ _ := id
      left _ _ := id
      set _ _ _ _ := id
      exported _ _ _ _ := id
      unset _ _ := id }
  range _ := trivial
  current _ := trivial
  status h _ := h
  background h _ := h
  leaving h _ := h

/-- To be given the same files once more makes no difference. -/
theorem Alike.given {x y : SessionM α} (hx : Alike (Uses files) Q x y) :
    Alike (Uses files) Q x (do Scoped.give files; y) := by
  intro m uses
  have same : (do Scoped.give files; y) m = y (m.giving files) := rfl
  rw [same, Machine.giving_of_eq uses]
  exact hx m uses

/-- A way of sourcing files that is the given one, whatever files there are. -/
def Follows (source : Builtin.Sourcing) (sources : Sources) : Prop :=
  ∀ files path, Alike (Uses files) (Finds fun _ => True) (source path) (sources files path)

theorem alters_openFor (own : Stdio) (c : Command) :
    Alters (Keeping (Uses files)) (Scoped.openFor own c).run := by
  have A := (kept_uses files).admits
  refine (A.tryAndThen (Q := fun _ => True) (A.tryOption A.openInput) fun input => ?_).alters
  refine A.tryAndThen ?_ fun output => A.tryPure trivial
  unfold Scoped.openOutputFor
  split
  · exact (A.tryPure (Q := fun _ => True) trivial).alters
  · refine (A.liftThen (Q := fun _ => True) (A.openOutput _) ?_).alters
    rintro (e | h)
    · refine Does.ite (A.liftThen A.flush fun _ => ?_) ?_
      · exact A.tryThrow e
      · exact A.tryThrow e
    · exact A.liftThen A.flush fun _ => A.tryPure trivial

/-- Without redirections no files are opened. -/
theorem openFor_plain {c : Command} (plain : (c.input.isSome || c.output.isSome) = false)
    (own : Stdio) (m : Machine) : (Scoped.openFor own c).run m = (.ok own, m) := by
  simp only [Bool.or_eq_false_iff, Option.isSome_eq_false_iff, Option.isNone_iff_eq_none] at plain
  unfold Scoped.openFor Scoped.openOutputFor
  rw [plain.1, Command.target?, plain.2]
  rfl

section
variable {source : Builtin.Sourcing} {sources : Sources} (follows : Follows source sources)
include follows

theorem follows_builtin (files : Stdio) (b : Builtin) (argv : List String) :
    Alike (Uses files) (fun _ => True) (b.run source argv) (b.run (sources files) argv) :=
  alike_builtin (kept_uses files) (follows files) b argv

/-- The files of the shell are redirected for a builtin and put back, and so the builtin runs with
files of its own. -/
theorem follows_runBuiltin (b : Builtin) (c : Command) :
    Alike (Uses files) (Finds fun _ => True) (runBuiltin source b c).run
      (Scoped.runBuiltin sources files b c).run := by
  rintro m rfl
  have start : (runBuiltin source b c).run m = (do
      redirectForBuiltin c m.shell.stdio
      let status ← b.run source c.argv
      let _ ← flush
      if c.input.isSome || c.output.isSome then restore m.shell.stdio
      return status : AttemptM Int).run m := rfl
  have redirected := redirectForBuiltin_run c m
  have kept : Uses m.shell.stdio ((Scoped.openFor m.shell.stdio c).run m).2.shell :=
    (alters_openFor m.shell.stdio c m).1 rfl
  rcases opened : (Scoped.openFor m.shell.stdio c).run m with ⟨e | now, m'⟩
  · rw [opened] at kept
    rw [tryBind_of_error opened] at redirected
    rw [start, tryBind_of_error redirected, Scoped.runBuiltin, tryBind_of_error opened]
    exact ⟨rfl, kept, trivial⟩
  have run : (do Scoped.give (← Scoped.openFor m.shell.stdio c) : AttemptM Unit).run m =
      (.ok (), m'.giving now) := by
    rw [tryBind_of_ok opened]
    rfl
  have builtin : Alike (Uses now) (fun _ => True) (b.run source c.argv)
      (b.run (sources now) c.argv) := follows_builtin follows now b c.argv
  obtain ⟨same, uses, -⟩ := builtin (m'.giving now) rfl
  rw [start, tryBind_of_ok (redirected.trans run), liftBind_run, same, liftBind_run]
  rw [Scoped.runBuiltin, tryBind_of_ok opened]
  generalize ran : b.run (sources now) c.argv (m'.giving now) = result at uses
  obtain ⟨status, after⟩ := result
  -- The builtin has left its files as they were, so that they need not be given to it again.
  have inScope : (do
      Scoped.give now
      let status ← b.run (sources now) c.argv
      Scoped.give now
      let _ ← flush
      Scoped.give m.shell.stdio
      return status : AttemptM Int).run m' =
        (.ok status, (flush after).2.giving m.shell.stdio) := by
    change (Except.ok (b.run (sources now) c.argv (m'.giving now)).1,
      (flush ((b.run (sources now) c.argv (m'.giving now)).2.giving now)).2.giving
        m.shell.stdio) = _
    rw [ran, Machine.giving_of_eq uses]
  rw [inScope]
  refine ⟨?_, rfl, trivial⟩
  · dsimp only
    split
    · change (Except.ok status, (flush (flush after).2).2.giving m.shell.stdio) = _
      rw [flush_flush]
    · next plain =>
      have unchanged : now = m.shell.stdio := by
        have direct := openFor_plain (Bool.eq_false_iff.2 plain) m.shell.stdio m
        exact Except.ok.inj (congrArg Prod.fst (opened.symm.trans direct))
      change (Except.ok status, (flush after).2) = _
      rw [Machine.giving_of_eq]
      rw [stdio_flush, ← unchanged]
      exact uses

theorem follows_run (c : Command) :
    Alike (Uses files) (Finds fun _ => True) ((commandsBy prepareImage source).run c).run
      ((Scoped.commands sources files).run c).run := by
  have external := (does_runExternal c).weaken (kept_uses files).of_beside
  unfold Commands.run
  cases c.assignment? with
  | some assignment => exact fun m uses => ⟨rfl, uses, trivial⟩
  | none =>
    cases Builtin.ofName? c.name with
    | some b => exact follows_runBuiltin follows b c
    | none => exact .tryOf_does external.alters

theorem follows_execute (files : Stdio) (ts : List Token) :
    Alike (Uses files) (fun _ => True) ((commandsBy prepareImage source).execute ts)
      (Scoped.execute sources files ts) := by
  have K := kept_uses files
  refine .given (alike_execute K (follows_run follows) (fun p => ?_) ts)
  exact alike_runPipeline K (fun _ _ _ => rfl) (fun _ _ _ _ => rfl) (follows_builtin follows) p

theorem follows_engine (files : Stdio) :
    Engine.Agree (fun {α} (Q : α → Prop) x y => Alike (Uses files) Q x y) (fun _ => True)
      (.session source) (Scoped.engine sources files) where
  execute := follows_execute follows files
  launch ts := by
    refine .given (alike_startBackground (J := Uses) (kept_uses files) (fun _ _ _ => rfl)
      (fun _ _ _ _ => rfl) ts fun stdio => ?_)
    exact (correspondence_alike (kept_uses stdio)).runChain (follows_execute follows stdio) _

end

theorem follows_sourceWithin (levels : Nat) :
    Follows (sourceWithin levels) (Scoped.sourceWithin levels) := by
  induction levels with
  | zero => exact fun _ _ => .pure trivial
  | succ levels ih =>
    intro files path
    have K := kept_uses files
    refine .given ((correspondence_alike K).runFile (K := fun _ => True) (follows_engine ih files)
      (.of_does K.admits.get) ?_ fun f m uses => ⟨rfl, uses, trivial⟩)
    exact fun _ file _ _ => .of_does (K.admits.ofFiles.halt (.stuck file))

theorem follows_sourceFile : Follows sourceFile Scoped.sourceFile :=
  fun files path => .shellBind fun _ _ => follows_sourceWithin _ files path

/-- A line leaves the shell with the files that it had, and all that are open stay open: every place
still has its node, and writes at its end or not as before. Within the line, every command runs with
the files of what it stands in, but for its own redirections: a command of the line with those of the
line, and a command of a file with those of the command that sources the file. -/
theorem files_scoped_and_restored (line : String) (m : Machine) :
    (runLine line m).2.shell.stdio = m.shell.stdio ∧
    (m.InOrder → ∀ (h : Handle) (o : OpenFile), m.host.opened[h]? = some o →
      ∃ o', (runLine line m).2.host.opened[h]? = some o' ∧ o'.node = o.node ∧
        o'.append = o.append) ∧
    runLine line m = Scoped.runLine m.shell.stdio line m := by
  have engine := follows_engine follows_sourceFile m.shell.stdio
  have follows : Alike (Uses m.shell.stdio) (fun _ => True) (runLine line)
      (Scoped.runLine m.shell.stdio line) :=
    .given ((correspondence_alike (kept_uses m.shell.stdio)).runLine engine line)
  obtain ⟨same, kept, -⟩ := follows m rfl
  refine ⟨?_, fun inOrder => ?_, same⟩
  · rw [same]
    exact kept
  · obtain ⟨log, course⟩ := (heeds_runLine line m inOrder.confined bot_le).1
    exact course.continues.opened

/-- A file that is sourced sources another one. Each of them prints, redirects a command of its own,
and has a command whose output cannot be opened behind an input that could be. -/
theorem files_scoped_and_restored_nested :
    let tree := (World.withDevices.plant FileTree.root "s"
      (.file (Bytes.ofString "echo a\n. t > g\necho b < s > no/f\necho c") false)).plant
      FileTree.root "t" (.file (Bytes.ofString "echo d > h\n: < no; echo -n e\n") false)
    let m := Machine.start tree FileTree.root .null [] .default
    let line := ". s > out; echo f"
    let after := (runLine line m).2
    m.InOrder ∧ after.shell.stdio = m.shell.stdio ∧
      (∀ (h : Handle) (o : OpenFile), m.host.opened[h]? = some o →
        ∃ o', after.host.opened[h]? = some o' ∧ o'.node = o.node ∧ o'.append = o.append) ∧
      runLine line m = Scoped.runLine m.shell.stdio line m ∧
      ["out", "g", "h"].map (fun path => (after.host.tree.readText FileTree.root path).toOption) =
        [some "a\nc\n", some "e", some "d\n"] ∧
      after.host.content m.shell.stdio.output = Bytes.ofString "f\n" := by
  intro tree m line after
  have sound : tree.Sound := FileTree.sound_of_isProper (by decide +kernel) (by decide +kernel)
  have inOrder : m.InOrder := Machine.inOrder_start sound (by decide +kernel) (by rintro _ _ ⟨⟩) _ _
  obtain ⟨same, stays, inScope⟩ := files_scoped_and_restored line m
  exact ⟨inOrder, same, stays inOrder, inScope, by decide +kernel, by decide +kernel⟩

end SessionM
end JobShell
