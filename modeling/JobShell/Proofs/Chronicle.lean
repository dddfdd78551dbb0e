import JobShell.Proofs.Evaluation

/-! What a session does itself while it runs a line, in order: the same run with a record beside the
machine. What copies of the shell do in their own processes is not recorded. -/
namespace JobShell

open Token Grammar Carrier

/-- A step of a line that has effects, or what runs in the process of the shell. -/
inductive Deed where
  /-- The files of redirections are tried, and file names are expanded. -/
  | build (ts : List Token)
  | assignment (name value : String)
  | builtin (b : Builtin) (argv : List String)
  | program (c : Command)
  | pipeline (p : Pipeline)
  /-- A start in the background. -/
  | launch (ts : List Token)
  deriving DecidableEq, Repr

/-- Steps of a session with a record of deeds. -/
abbrev ChronicleM := StateM (Machine × List Deed)

/-- The tokens to run of an expanded line, or why nothing of it is run. -/
def Grammar.read (limit : Nat) (line : String) : Except ShellError (List Token) :=
  match tokenize limit line with
  | .error e => .error e
  | .ok ts =>
    match validate limit ts with
    | .tooManyTokens => .error (.tooManyTokens limit)
    | .refused fault => .error (.badSyntax fault.message)
    | .accepted => .ok (withoutEnds ts)

/-- A line is read as a whole before anything of it is run. -/
theorem Engine.runLine_eq {σ : Type} [Carrier σ] (E : Engine σ) (line : String) :
    E.runLine line = (do
      let text ← lift (SessionM.expandLine line)
      match Grammar.read (← lift SessionM.shell).settings.maxTokens text with
      | .error e => lift (SessionM.reject e)
      | .ok ts => E.runTokens ts : StateM σ Int) := by
  funext s
  simp only [runLine, bind_apply, lift_shell]
  generalize lift (SessionM.expandLine line) s = expanded
  obtain ⟨text, s⟩ := expanded
  dsimp only
  unfold Grammar.read
  cases tokenize (machine s).shell.settings.maxTokens text with
  | error e => rfl
  | ok ts =>
    dsimp only
    rw [runChecked, bind_apply, lift_shell]
    dsimp only
    cases validate (machine s).shell.settings.maxTokens ts <;> rfl

namespace Chronicle

/-! ### Running with a record -/

def note (d : Deed) : ChronicleM Unit := modify fun s => (s.1, s.2 ++ [d])

/-- How files are sourced, without and with a record. -/
structure Sources where
  plain : Builtin.Sourcing
  noted : String → ChronicleM (Except FileError Int)

variable (sources : Sources)

def runSource (b : Builtin) (argv : List String) : ChronicleM Int := do
  match argv[1]? with
  | none => lift (SessionM.fail b.name "filename argument required" 2)
  | some file =>
    match ← sources.noted file with
    | .ok status => return status
    | .error e => lift (SessionM.fail b.name (file ++ ": " ++ e.message) 1)

/-- Runs a builtin. Of one that sources a file, what the file does is recorded as well. -/
def callBuiltin (b : Builtin) (argv : List String) : ChronicleM Int := do
  note (.builtin b argv)
  match b with
  | .dot | .source => runSource sources b argv
  | _ => lift (b.run sources.plain argv)

def runBuiltin (b : Builtin) (c : Command) : ExceptT ShellError ChronicleM Int := do
  let own := (← (lift SessionM.shell : ChronicleM Shell)).stdio
  -- A builtin whose files cannot be opened does not run, so that it is noted after this.
  attempt (SessionM.redirectForBuiltin c own)
  let status ← callBuiltin sources b c.argv
  let _ ← (lift SessionM.flush : ChronicleM (Except Errno Unit))
  if c.input.isSome || c.output.isSome then (lift (SessionM.restore own) : ChronicleM Unit)
  return status

def commands : Commands (Machine × List Deed) where
  assign name value := do
    note (.assignment name value)
    lift (do SessionM.modifyVars (·.set name value); return 0)
  builtin := runBuiltin sources
  program c := do
    note (.program c)
    attempt (SessionM.runExternal c)
  pipeline p := do
    note (.pipeline p)
    attempt (SessionM.runPipeline sources.plain p)

/-- The engine of a session that also notes what it does. To start a segment in the background
includes trying the files of its redirections. -/
def engine : Engine (Machine × List Deed) where
  execute ts := do
    note (.build ts)
    (commands sources).execute ts
  launch ts := do
    note (.launch ts)
    lift (SessionM.startBackground sources.plain ts).run

def runLineWith (line : String) : ChronicleM Int := (engine sources).runLine line

def sourcesWithin : Nat → Sources
  | 0 => ⟨SessionM.sourceWithin 0, fun path => lift (SessionM.sourceWithin 0 path)⟩
  | levels + 1 => ⟨SessionM.sourceWithin (levels + 1), (engine (sourcesWithin levels)).runFile⟩

def sourcesOfSession : Sources where
  plain := SessionM.sourceFile
  noted path := do
    (sourcesWithin (SessionM.maxSourceDepth - (← lift SessionM.shell).sourceDepth)).noted path

/-- What is done, in order, when a session runs a line. -/
def lineDeeds (line : String) (m : Machine) : List Deed :=
  (runLineWith sourcesOfSession line (m, [])).2.2

/-! ### Forgetting the record -/

open Engine (Seen Views)

theorem seen_note {α : Type} {x : ChronicleM α} {y : SessionM α} (d : Deed)
    (hx : Seen Prod.fst x y) : Seen Prod.fst (do note d; x) y := fun s => hx (s.1, s.2 ++ [d])

theorem seen_lift {α : Type} (x : SessionM α) : Seen Prod.fst (lift x : ChronicleM α) x :=
  Views.fst.lift x

/-- Sourcing with a record is sourcing, apart from the record. -/
def Sources.Agree (sources : Sources) : Prop :=
  ∀ path, Seen Prod.fst (sources.noted path) (sources.plain path)

variable {sources : Sources}

theorem seen_callBuiltin (agree : sources.Agree) (b : Builtin) (argv : List String) :
    Seen Prod.fst (callBuiltin sources b argv) (b.run sources.plain argv) := by
  have sourcing (b : Builtin) :
      Seen Prod.fst (runSource sources b argv) (Builtin.runSource sources.plain b argv) := by
    unfold runSource Builtin.runSource
    cases argv[1]? with
    | none => exact seen_lift _
    | some file =>
      refine .bind (agree file) ?_
      rintro (e | status)
      · exact seen_lift _
      · exact .pure _
  refine seen_note _ ?_
  cases b with
  | dot | source => exact sourcing _
  | _ => exact seen_lift _

theorem seen_runBuiltin (agree : sources.Agree) (b : Builtin) (c : Command) :
    Seen Prod.fst (runBuiltin sources b c).run (SessionM.runBuiltin sources.plain b c).run := by
  refine .liftBind (seen_lift _) fun sh => .tryBind (seen_lift _) fun _ => ?_
  refine .liftBind (seen_callBuiltin agree b c.argv) fun status =>
    .liftBind (seen_lift _) fun _ => ?_
  refine .ite _ ?_ (.pure _)
  exact .liftBind (seen_lift _) fun _ => .pure _

theorem commands_seenAs (agree : sources.Agree) :
    (commands sources).SeenAs Prod.fst
      (SessionM.commandsBy SessionM.prepareImage sources.plain) where
  views := .fst
  assign _ _ := seen_note _ (seen_lift _)
  builtin := seen_runBuiltin agree
  program c := seen_note (.program c) (seen_lift (SessionM.runExternal c).run)
  pipeline p := seen_note (.pipeline p) (seen_lift (SessionM.runPipeline sources.plain p).run)

theorem engine_seenAs (agree : sources.Agree) :
    (engine sources).SeenAs Prod.fst (.session sources.plain) where
  views := .fst
  execute ts := seen_note _ ((commands_seenAs agree).execute ts)
  launch _ := seen_note _ (seen_lift _)

theorem plain_sourcesWithin (levels : Nat) :
    (sourcesWithin levels).plain = SessionM.sourceWithin levels := by
  cases levels <;> rfl

theorem sourcesWithin_agree (levels : Nat) : (sourcesWithin levels).Agree := by
  induction levels with
  | zero => exact fun path => seen_lift _
  | succ levels ih =>
    intro path
    have seen := (engine_seenAs ih).runFile path
    rw [plain_sourcesWithin] at seen
    exact seen

theorem sourcesOfSession_agree : sourcesOfSession.Agree := by
  intro path
  refine .bind (seen_lift _) fun sh => ?_
  have agree := sourcesWithin_agree (SessionM.maxSourceDepth - sh.sourceDepth) path
  rw [plain_sourcesWithin] at agree
  exact agree

theorem seen_runLine (line : String) (m : Machine) :
    runLineWith sourcesOfSession line (m, []) =
      ((SessionM.runLine line m).1, (SessionM.runLine line m).2, lineDeeds line m) := by
  have seen : (_, _) = SessionM.runLine line m :=
    (engine_seenAs sourcesOfSession_agree).runLine line (m, [])
  rw [← seen]
  rfl

end Chronicle
end JobShell
