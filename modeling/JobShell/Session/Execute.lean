import JobShell.Session.Engine

/-!
Running lines in a session. Builtins and assignments are carried out by the shell itself; programs,
the stages of pipelines and whatever goes into the background get processes of their own. Files that
are sourced are run line by line, one inside the other up to a fixed depth.
-/
namespace JobShell

namespace SessionM

/-! ### Builtins -/

def redirectInput (h : Handle) : SessionM Unit :=
  modifyShell fun sh => { sh with stdio := { sh.stdio with input := h } }

def redirectOutput (h : Handle) : SessionM Unit :=
  modifyShell fun sh => { sh with stdio := { sh.stdio with output := h } }

/-- Puts the shell's own files back in place of others, after writing out what was printed. -/
def restore (stdio : Stdio) : SessionM Unit := do
  let _ ← flush
  modifyShell fun sh => { sh with stdio }

/-- Redirects the shell's own output for a builtin; if that fails, its input is put back. -/
def redirectForBuiltin (c : Command) (own : Stdio) : AttemptM Unit := do
  if let some path := c.input then
    let h ← openInput path
    redirectInput h
  if let some target := c.target? then
    let opened : Except ShellError Handle ← liftM (openOutput target).run
    match opened with
    | .error e =>
      if c.input.isSome then restore own
      throw e
    | .ok h =>
      let _ ← flush
      redirectOutput h

/-- Runs a builtin in the shell itself, with its files redirected for the time being. -/
def runBuiltin (source : Builtin.Sourcing) (b : Builtin) (c : Command) : AttemptM Int := do
  let own := (← shell).stdio
  redirectForBuiltin c own
  let status ← b.run source c.argv
  let _ ← flush
  if c.input.isSome || c.output.isSome then restore own
  return status

/-! ### Programs -/

/-- How the start of a program is prepared from the words of a command. -/
abbrev Preparation := List String → AttemptM Image

/-- How files are sourced by a process with given files of its own. -/
abbrev Sources := Stdio → Builtin.Sourcing

/-- Runs a program that has been prepared in a process of its own, and waits for it. -/
def runPrepared (c : Command) (image : Image) : AttemptM Int := do
  let input ← c.input.mapM openInput
  let output ← c.target?.mapM openOutput
  let _ ← flush
  let own := (← shell).stdio
  let stdio := { own with input := input.getD own.input, output := output.getD own.output }
  let pid ← spawn false
  let outcome : Except Errno Outcome ← liftM <| withForeground pid do
    runImage pid stdio (← shell).unwritten image
    waitFor pid
  match outcome with
  | .ok outcome => settle pid c.display outcome
  | .error e => throw (.wait e)

def runExternalBy (prepare : Preparation) (c : Command) : AttemptM Int := do
  runPrepared c (← prepare c.argv)

/-! ### Pipelines -/

/-- What a stage of a pipeline does in its own process. -/
inductive Stage where
  | assignment
  | builtin (b : Builtin)
  | program (image : Image)

def planStageBy (prepare : Preparation) (c : Command) : AttemptM Stage := do
  match c.assignment?, Builtin.ofName? c.name with
  | some _, _ => return .assignment
  | none, some b => return .builtin b
  | none, none => return .program (← prepare c.argv)

/-- Opens the files that a pipeline is run with: the input of its first stage and the output of its
last one. -/
def openEnds (p : Pipeline) : AttemptM (Option Handle × Option Handle) := do
  let input ← (p.head?.bind Command.input).mapM openInput
  let output ← (p.getLast?.bind Command.target?).mapM openOutput
  return (input, output)

/-- Opens pipes, each with one end to read from and one to write to. -/
def openPipes : Nat → SessionM (List (Handle × Handle))
  | 0 => return []
  | n + 1 => do
    let pipe ← onHost (·.openPipe)
    return pipe :: (← openPipes n)

/-- The files of a stage by its place: pipes lead from each stage to the next one, and the ends of
the pipeline to the first and the last one. -/
def stageFiles (ends : Stdio) (pipes : List (Handle × Handle)) (index : Nat) : Stdio :=
  { ends with
    input := if index = 0 then ends.input else (pipes.getD (index - 1) (ends.input, 0)).1
    output := if index = pipes.length then ends.output else (pipes.getD index (0, ends.output)).2 }

def runStage (source : Builtin.Sourcing) (pid : Int) (stdio : Stdio) (c : Command) :
    Stage → SessionM Unit
  | .assignment => do runCopy pid { ← shell with stdio } (return 0)
  | .builtin b => do runCopy pid { ← shell with stdio } (b.run source c.argv)
  | .program image => do runImage pid stdio (← shell).unwritten image

/-- Runs stages from left to right, from one place on, each with the files of its place. -/
def runStages (sources : Sources) (files : Nat → Stdio) :
    Nat → List (Int × Command × Stage) → SessionM Unit
  | _, [] => return
  | index, (pid, c, stage) :: rest => do
    runStage (sources (files index)) pid (files index) c stage
    runStages sources files (index + 1) rest

/-- Waits for the stages in turn; one that cannot be waited for counts as failed. -/
def waitForStages : List (Int × Command × Stage) → SessionM (List Int)
  | [] => return []
  | (pid, c, _) :: rest => do
    let status ← match ← waitFor pid with
      | .ok outcome => settle pid c.display outcome
      | .error _ => pure 1
    return status :: (← waitForStages rest)

/-- Runs the stages of a pipeline, each in a process of its own, with ends that are open. The last one
is in the foreground until all of them have been waited for and seen to. -/
def runBetween (sources : Sources) (stages : List (Command × Stage))
    (ends : Option Handle × Option Handle) : AttemptM Int := do
  let pipes : List (Handle × Handle) ← openPipes (stages.length - 1)
  let _ ← flush
  let stages ← stages.mapM fun s => do return (← spawn false, s)
  let own := (← shell).stdio
  let last := (stages.getLast?.map (·.1)).getD 0
  let files := stageFiles
    { own with input := ends.1.getD own.input, output := ends.2.getD own.output } pipes
  let statuses : List Int ← liftM <| withForeground last do
    runStages sources files 0 stages
    waitForStages stages
  return Pipeline.status (← shell).settings.pipefail statuses

def runPipelineBy (prepare : Preparation) (sources : Sources) (p : Pipeline) : AttemptM Int := do
  let stages ← p.mapM fun c => do return (c, ← planStageBy prepare c)
  runBetween sources stages (← openEnds p)

/-! ### In the background -/

/-- How a segment is started in the background. -/
inductive Launch where
  | program (c : Command) (image : Image)
  | copy

def planBackgroundBy (prepare : Preparation) (ts : List Token) : AttemptM Launch := do
  if ts.any (·.kind.isOperator) then return .copy
  let c ← build (Command.build · ts)
  if c.assignment?.isSome || (Builtin.ofName? c.name).isSome then return .copy
  return .program c (← prepare c.argv)

/-- Opens the files of what is to run in the background; without an input there is nothing to
read. -/
def openForLaunch : Launch → AttemptM (Handle × Option Handle)
  | .program c _ => do
    let input ← c.input.mapM openInput
    let output ← c.target?.mapM openOutput
    return (← input.getDM (openInput "/dev/null"), output)
  | .copy => return (← openInput "/dev/null", none)

/-- What a process does in the background, given how a copy of the shell runs the segment with files
of its own. -/
def runLaunch (chain : Stdio → SessionM Int) (pid : Int) (copy : Shell) (launch : Launch)
    (stdio : Stdio) : SessionM Unit :=
  match launch with
  | .program _ image => runImage pid stdio copy.unwritten image
  | .copy => runCopy pid { copy with stdio, interactive := false } (chain stdio)

/-- Runs a process in the background. What it writes to the files that it shares with the shell is
held until it is asked for. -/
def runApart (pid : Int) (input : Handle) (output : Option Handle) (copy : Shell)
    (run : Stdio → SessionM Unit) : SessionM Unit := do
  let out ← onHost (·.openUnnamed (.file [] false))
  let err ← onHost (·.openUnnamed (.file [] false))
  run ⟨input, output.getD out, err⟩
  modifyHost fun s => s.updateProcess pid fun p =>
    { p with held := [(copy.stdio.output, s.content out), (copy.stdio.error, s.content err)] }

/-- Starts a segment in the background and registers it as a job. -/
def startBackgroundBy (prepare : Preparation) (chain : Stdio → List Token → SessionM Int)
    (ts : List Token) : AttemptM Unit := do
  let launch ← planBackgroundBy prepare ts
  let (input, output) ← openForLaunch launch
  let _ ← flush
  let copy ← shell
  let pid ← spawn true
  let id := copy.jobs.next
  modifyJobs (·.add pid (Token.render ts) .running)
  modifyVars fun v => { v with background := some pid }
  say ["[", toString id, "] ", toString pid, "\n"]
  runApart pid input output copy (runLaunch (chain · ts) pid copy launch)

/-! ### Sessions in which the preparation of programs is left open -/

def commandsBy (prepare : Preparation) (source : Builtin.Sourcing) : Commands Machine where
  assign name value := do
    modifyVars (·.set name value)
    return 0
  builtin := runBuiltin source
  program := runExternalBy prepare
  pipeline := runPipelineBy prepare fun _ => source

def executeChainBy (prepare : Preparation) (source : Builtin.Sourcing) (ts : List Token) :
    SessionM Int := Chain.run (commandsBy prepare source).execute (Chain.ofTokens ts)

def engineBy (prepare : Preparation) (source : Builtin.Sourcing) : Engine Machine where
  execute := (commandsBy prepare source).execute
  launch ts := (startBackgroundBy prepare (fun _ => executeChainBy prepare source) ts).run

/-- Sources a file, with so many levels left for files sourced from within it. -/
def sourceWithinBy (prepare : Preparation) : Nat → Builtin.Sourcing
  | 0, _ => return .error (.sourceDepth maxSourceDepth)
  | levels + 1, path => (engineBy prepare (sourceWithinBy prepare levels)).runFile path

def sourceFileBy (prepare : Preparation) : Builtin.Sourcing := fun path => do
  sourceWithinBy prepare (maxSourceDepth - (← shell).sourceDepth) path

/-! ### Sessions as they run -/

section

variable (source : Builtin.Sourcing)

def runExternal (c : Command) : AttemptM Int := runExternalBy prepareImage c

def planStage (c : Command) : AttemptM Stage := planStageBy prepareImage c

def runPipeline (p : Pipeline) : AttemptM Int := runPipelineBy prepareImage (fun _ => source) p

def runCommand (c : Command) : AttemptM Int := (commandsBy prepareImage source).run c

def executePipeline (ts : List Token) : SessionM Int := (commandsBy prepareImage source).execute ts

def executeChain (ts : List Token) : SessionM Int := executeChainBy prepareImage source ts

def planBackground (ts : List Token) : AttemptM Launch := planBackgroundBy prepareImage ts

def startBackground (ts : List Token) : AttemptM Unit :=
  startBackgroundBy prepareImage (fun _ => executeChain source) ts

end

end SessionM

open SessionM

/-- How a session runs lines, given how files are sourced. -/
def Engine.session (source : Builtin.Sourcing) : Engine Machine := engineBy prepareImage source

namespace SessionM

section

variable (source : Builtin.Sourcing)

def executeSegment (s : Segment) : SessionM Int := (Engine.session source).runSegment s

/-- Runs the tokens of a line if the grammar accepts all of them. -/
def runTokens (ts : List Token) : SessionM Int := (Engine.session source).runChecked ts

/-- Runs a line, given how files are sourced. -/
def runLineWith (line : String) : SessionM Int := (Engine.session source).runLine line

end

def sourceWithin (levels : Nat) : Builtin.Sourcing := sourceWithinBy prepareImage levels

/-- Runs every line of a file in this session. -/
def sourceFile : Builtin.Sourcing := sourceFileBy prepareImage

/-- Expands and runs a line. -/
def runLine (line : String) : SessionM Int := runLineWith sourceFile line

/-- Runs tokens without expanding them. -/
def runParsed (ts : List Token) : SessionM Int := runTokens sourceFile ts

end SessionM
end JobShell
