import JobShell.Proofs.ConfinedRuns
import JobShell.Proofs.ShellInvariants
import Mathlib.Logic.Function.Iterate

/-! How deep files are sourced one inside the other. The session counts the files that are being
sourced, and refuses one more if there are too many. That count alone determines how files are
sourced: whatever would happen further down, no run gets there, and every run leaves the count as it
was. -/
namespace JobShell.SessionM

open Shell (Enduring)

/-! ### Sourcing by the count of the session -/

/-- Runs a file, in whose lines files are sourced in a given way, unless too many files are being
sourced already. -/
def sourceCounted (source : Builtin.Sourcing) : Builtin.Sourcing := fun path => do
  if maxSourceDepth ≤ (← shell).sourceDepth then return .error (.sourceDepth maxSourceDepth)
  else (Engine.session source).runFile path

/-! ### Runs at a depth -/

/-- So many files are being sourced. -/
def AtDepth (d : Nat) (sh : Shell) : Prop := sh.sourceDepth = d

theorem enduring_atDepth (d : Nat) : Enduring (AtDepth d) fun _ => True where
  range _ := trivial
  current _ := trivial
  status h _ := h
  background h _ := h
  set h _ _ := h
  exported h _ _ := h
  unset h _ := h
  other h _ same := same.trans h

/-- Two ways of sourcing files come to the same at a depth, and leave it as it is. -/
def SourceAlike (d : Nat) (source' source : Builtin.Sourcing) : Prop :=
  ∀ path, Alike (AtDepth d) (Finds fun _ => True) (source' path) (source path)

section

variable {d : Nat} {source' source : Builtin.Sourcing}

theorem SourceAlike.engine (h : SourceAlike d source' source) :
    Engine.Agree (fun {α} (Q : α → Prop) x y => Alike (AtDepth d) Q x y) (fun _ => True)
      (.session source') (.session source) :=
  alike_engine (enduring_atDepth d) h fun _ _ _ => rfl

theorem SourceAlike.runLineWith (h : SourceAlike d source' source) (line : String) :
    Alike (AtDepth d) (fun _ => True) (runLineWith source' line) (runLineWith source line) :=
  (correspondence_alike (kept_of_enduring (enduring_atDepth d))).runLine h.engine line

theorem runFile_apply (source : Builtin.Sourcing) (path : String) (m : Machine) :
    (Engine.session source).runFile path m =
      match m.host.tree.readText m.shell.directory path with
      | .failed e => (.error e, m)
      | .endless file => (.ok 0, (halt (.stuck file) m).2)
      | .text text =>
        let ran := (Engine.session source).runLines 0 (Text.lines text.toList)
          { m with shell := { m.shell with sourceDepth := m.shell.sourceDepth + 1 } }
        (.ok ran.1, { ran.2 with
          shell := { ran.2.shell with sourceDepth := ran.2.shell.sourceDepth - 1 } }) := by
  have read : Carrier.lift get m = (m, m) := rfl
  rw [Engine.runFile, Engine.bind_apply, read]
  dsimp only
  cases m.host.tree.readText m.shell.directory path <;> rfl

/-- The lines of a file are run one level deeper, and the count is set back behind them. -/
theorem SourceAlike.runFile (h : SourceAlike (d + 1) source' source) :
    SourceAlike d (Engine.session source').runFile (Engine.session source).runFile := by
  intro path m depth
  rw [runFile_apply, runFile_apply]
  cases m.host.tree.readText m.shell.directory path with
  | failed e => exact ⟨rfl, depth, trivial⟩
  | endless file => exact ⟨rfl, depth, trivial⟩
  | text text =>
    have lines : Alike (AtDepth (d + 1)) _ ((Engine.session source').runLines 0 _) _ :=
      (correspondence_alike (kept_of_enduring (enduring_atDepth (d + 1)))).runLines h.engine trivial
        (Text.lines text.toList)
    obtain ⟨same, kept, -⟩ := lines
      { m with shell := { m.shell with sourceDepth := m.shell.sourceDepth + 1 } }
      (congrArg (· + 1) depth)
    dsimp only
    rw [same]
    exact ⟨rfl, congrArg (· - 1) kept, trivial⟩

end

/-! ### The levels that are left -/

theorem sourceCounted_apply (source : Builtin.Sourcing) (path : String) (m : Machine) :
    sourceCounted source path m =
      if maxSourceDepth ≤ m.shell.sourceDepth then (.error (.sourceDepth maxSourceDepth), m)
      else (Engine.session source).runFile path m := by
  change (if _ then _ else _ : SessionM (Except FileError Int)) m = _
  split <;> rfl

/-- At a depth, a session has the levels left that the limit allows. -/
theorem sourceAlike_iff {d : Nat} {source : Builtin.Sourcing} :
    SourceAlike d source sourceFile ↔ SourceAlike d source (sourceWithin (maxSourceDepth - d)) := by
  have same (path : String) {m : Machine} (depth : AtDepth d m.shell) :
      sourceFile path m = sourceWithin (maxSourceDepth - d) path m := by
    rw [← depth]
    rfl
  refine forall_congr' fun path => forall_congr' fun m => forall_congr' fun depth => ?_
  rw [same path depth]

/-- One level by the count, with the sourcing of the session in the lines of a file, is the sourcing
of the session. At the limit the lines do not matter. -/
theorem sourceAlike_sourceCounted {d : Nat} {source : Builtin.Sourcing}
    (h : d < maxSourceDepth → SourceAlike (d + 1) source sourceFile) :
    SourceAlike d (sourceCounted source) sourceFile := by
  rw [sourceAlike_iff]
  intro path m depth
  have count : m.shell.sourceDepth = d := depth
  rw [sourceCounted_apply, count]
  by_cases shallow : d < maxSourceDepth
  · have levels : maxSourceDepth - d = maxSourceDepth - (d + 1) + 1 := by omega
    rw [if_neg (Nat.not_le.2 shallow), levels]
    exact (sourceAlike_iff.1 (h shallow)).runFile path m depth
  · have none : maxSourceDepth - d = 0 := by omega
    rw [if_pos (Nat.not_lt.1 shallow), none]
    exact ⟨rfl, depth, trivial⟩

/-- With levels enough up to the limit, it does not matter how files are sourced below them. -/
theorem sourceAlike_iterate (below : Builtin.Sourcing) {levels d : Nat}
    (h : maxSourceDepth ≤ d + levels) :
    SourceAlike d (sourceCounted^[levels + 1] below) sourceFile := by
  induction levels generalizing d with
  | zero => exact sourceAlike_sourceCounted fun shallow => absurd h (Nat.not_le.2 shallow)
  | succ levels ih =>
    rw [Function.iterate_succ_apply']
    exact sourceAlike_sourceCounted fun _ => ih (by omega)

theorem sourceAlike_sourceFile (d : Nat) : SourceAlike d sourceFile sourceFile :=
  fun path m depth =>
    ⟨rfl, (sourceAlike_iterate sourceFile (Nat.le_add_left maxSourceDepth d) path m depth).2⟩

theorem sourceCounted_sourceFile : sourceCounted sourceFile = sourceFile := by
  funext path m
  exact (sourceAlike_sourceCounted (fun _ => sourceAlike_sourceFile _) path m rfl).1

/-- A way of sourcing files that goes by the count, also in the lines of the files, is that of the
session. -/
theorem eq_sourceFile {source : Builtin.Sourcing} (fixed : sourceCounted source = source) :
    source = sourceFile := by
  funext path m
  have alike := sourceAlike_iterate source (Nat.le_add_left maxSourceDepth m.shell.sourceDepth)
  rw [Function.iterate_fixed fixed] at alike
  exact (alike path m rfl).1

/-- Files are sourced by the count of the session, which refuses them at the limit, and this leaves
one way only in which they can be sourced. For every line, at most 64 files are being sourced at a
time: the levels up to the limit are all that a run of it goes through, and nothing depends on what
sourcing would do below them. The count after a line or a file is the one before it, however the
line or the file has ended. A shell that does not come to the end of a file, be it that of the session
or a copy of it, waits for a FIFO, a full device or a terminal that was in some directory before. -/
theorem sourcing_bounded_and_balanced (line : String) (m : Machine) :
    (∀ source, sourceCounted source = source ↔ source = sourceFile) ∧
    (∀ levels, 64 ≤ m.shell.sourceDepth + levels → ∀ below,
      runLineWith (sourceCounted^[levels + 1] below) line m = runLine line m) ∧
    (runLine line m).2.shell.sourceDepth = m.shell.sourceDepth ∧
    (∀ path, (sourceFile path m).2.shell.sourceDepth = m.shell.sourceDepth) ∧
    (m.InOrder → ∀ pid file,
      (pid, some (.stuck file)) ∈ (runLine line m).2.host.halts →
      (pid, some (.stuck file)) ∈ m.host.halts ∨
        m.host.tree.isEndless file = true ∧ ¬m.host.tree.Unlisted file) := by
  refine ⟨fun source => ⟨eq_sourceFile, ?_⟩, fun levels enough below => ?_, ?_, fun path => ?_,
    fun inOrder pid file => inOrder.halts_runLine⟩
  · rintro rfl
    exact sourceCounted_sourceFile
  · exact ((sourceAlike_iterate below enough).runLineWith line m rfl).1
  · exact ((sourceAlike_sourceFile _).runLineWith line m rfl).2.1
  · exact (sourceAlike_sourceFile _ path m rfl).2.1

/-- Files that source themselves and each other, plainly, in a pipeline and in the background,
before a syntax error and a request to leave. Sourcing below the limit would spoil the count, and as
there is nothing else in the tree, no shell waits for ever. -/
theorem sourcing_bounded_and_balanced_cycle :
    let tree := (FileTree.empty.plant FileTree.root "a"
      (.file (Bytes.ofString ". a\n") false)).plant FileTree.root "b"
      (.file (Bytes.ofString ". b | . a\n. b &\n. b && (\n. a; . b; exit 3\n") false)
    let m := Machine.start tree FileTree.root .null [] .default
    let below : Builtin.Sourcing := fun _ => do
      modifyShell fun sh => { sh with sourceDepth := 100 }
      return .ok 7
    64 ≤ m.shell.sourceDepth + 64 ∧
      runLineWith (sourceCounted^[64 + 1] below) ". b" m = runLine ". b" m ∧
      (runLine ". b" m).2.shell.sourceDepth = 0 ∧ (runLine ". a" m).1 = 1 ∧ m.InOrder ∧
      ∀ pid file, (pid, some (.stuck file)) ∉ (runLine ". b" m).2.host.halts := by
  intro tree m below
  obtain ⟨-, bounded, balanced, -, standing⟩ := sourcing_bounded_and_balanced ". b" m
  have enough : 64 ≤ m.shell.sourceDepth + 64 := Nat.le_add_left 64 _
  have sound : tree.Sound := FileTree.sound_of_isProper (by decide +kernel) (by decide +kernel)
  have inOrder : m.InOrder :=
    Machine.inOrder_start sound (by decide +kernel) (by rintro _ _ ⟨⟩) _ _
  refine ⟨enough, bounded 64 enough below, balanced, by decide +kernel, inOrder,
    fun pid file halted => ?_⟩
  have finite : m.host.tree.nodes.toList.all (!·.isEndless) = true := by decide +kernel
  obtain before | ⟨endless, -⟩ := standing inOrder pid file halted
  · cases before
  · obtain ⟨found, endless⟩ := (Option.any_eq_true_iff_get _ _).1 endless
    have node := Array.mem_of_getElem? (Option.some_get found).symm
    have ends := List.all_eq_true.1 finite _ (Array.mem_toList_iff.2 node)
    rw [endless] at ends
    cases ends

/-- A line that sources a FIFO does not come to an end, although it is the only file that is being
sourced. -/
theorem sourcing_waits_for_fifo :
    let tree := FileTree.empty.plant FileTree.root "p" .fifo
    let m := Machine.start tree FileTree.root .null [] .default
    (runLine ". p; x=1" m).2.host.haltOf? m.shell.pid = some (.stuck 1) ∧
      (runLine ". p; x=1" m).2.shell.vars.get? "x" = none := by
  decide +kernel

end JobShell.SessionM
