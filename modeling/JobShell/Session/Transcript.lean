import JobShell.Session.Execute
import JobShell.Session.Prompt

/-!
Sessions driven from outside, step by step, with a record of what each step did. In records, the
processes of jobs are named by their jobs.
-/
namespace JobShell

/-- A session on a tree of files: standard input is given, output and errors are collected. -/
def Machine.start (tree : FileTree) (directory : NodeId) (input : Node)
    (environment : List (String × String)) (config : Config) : Machine :=
  let s := Host.ofTree tree
  let (input, s) := s.openUnnamed input
  let (output, s) := s.openUnnamed (.file [] false)
  let (error, s) := s.openUnnamed (.file [] false)
  ⟨Shell.initial config environment directory ⟨input, output, error⟩, s⟩

namespace Transcript

inductive Step where
  | line (text : String)
  | builtin (name : String) (argv : List String)
  | tokens (ts : List Token)
  | source (path : String)
  | prompt
  | reap
  /-- The process of a job is killed, and its end told to someone else. -/
  | steal (job : Nat)
  | signal (number : Int)

/-- A step, and the jobs whose output is to be waited for. -/
structure Cue where
  step : Step
  awaited : List Nat

/-- What a step gives beside a status. -/
inductive Value where
  | text (s : String)
  | failed (e : FileError)
  | noBuiltin

structure Result where
  status : Option Int
  value : Option Value

structure Record where
  result : Result
  last : Int
  exit : Option Int
  output : Bytes
  error : Bytes
  vars : List (String × Variable)
  jobs : List Job

open SessionM

/-- The process of a job, be it registered still or not. -/
def pidOf? (job : Nat) : SessionM (Option Int) := do
  return ((← shell).jobs.issued.find? (·.1 = job)).map (·.2)

/-- Carries out a step, given how programs are prepared. -/
def performBy (prepare : Preparation) : Step → SessionM Result
  | .line text => do
    return ⟨some (← (engineBy prepare (sourceFileBy prepare)).runLine text), none⟩
  | .builtin name argv => do
    match Builtin.ofName? name with
    | some b => return ⟨some (← b.run (sourceFileBy prepare) argv), none⟩
    | none => return ⟨none, some .noBuiltin⟩
  | .tokens ts => do
    return ⟨some (← (engineBy prepare (sourceFileBy prepare)).runChecked ts), none⟩
  | .source path => do
    match ← sourceFileBy prepare path with
    | .ok status => return ⟨some status, none⟩
    | .error e => return ⟨none, some (.failed e)⟩
  | .prompt => do return ⟨none, some (.text (← SessionM.prompt))⟩
  | .reap => do
    reapJobs
    return ⟨none, none⟩
  | .steal job => do
    if let some pid ← pidOf? job then modifyProcesses (·.drop pid)
    return ⟨none, none⟩
  | .signal number => do
    if let some sig := Signal.ofNumber? number then receiveSignal sig
    return ⟨none, none⟩

def perform (step : Step) : SessionM Result := performBy prepareImage step

/-- Takes out what has been written to a file so far. -/
def drain (h : Handle) : SessionM Bytes := do
  let b := (← host).content h
  modifyHost fun s =>
    match s.opened[h]? with
    | some o =>
      { s with
        tree := s.tree.set o.node (.file [] false)
        opened := s.opened.setIfInBounds h { o with offset := 0 } }
    | none => s
  return b

/-- Puts names of jobs in place of the numbers of their processes: a run of digits counts as a
whole, and of several jobs of one process the latest. -/
def nameJobs (issued : List (Nat × Int)) (digits : Bytes) : Bytes → Bytes
  | [] => close digits
  | b :: r =>
    if Bytes.within 0x30 0x39 b then nameJobs issued (digits ++ [b]) r
    else close digits ++ b :: nameJobs issued [] r
where
  close (digits : Bytes) : Bytes :=
    match issued.find? fun p => Bytes.ofString (toString p.2) = digits with
    | some (id, _) => Bytes.ofString ("<pid" ++ toString id ++ ">")
    | none => digits

def nameJobsIn (issued : List (Nat × Int)) (s : String) : String :=
  (Bytes.toString? (nameJobs issued [] (Bytes.ofString s))).getD s

/-- Carries out a step and records it. What background jobs wrote arrives before the next step, or
with this one if it is awaited. -/
def follow (cue : Cue) : SessionM Record := do
  modifyHost (·.deliver fun _ => true)
  let result ← perform cue.step
  let awaited ← cue.awaited.filterMapM pidOf?
  modifyHost (·.deliver fun p => awaited.contains p.pid)
  let _ ← flush
  let sh ← shell
  let output ← drain sh.stdio.output
  let error ← drain sh.stdio.error
  let issued := sh.jobs.issued
  return {
    result
    last := sh.vars.status
    exit := sh.exitRequest
    output := nameJobs issued [] output
    error := nameJobs issued [] error
    vars := sh.vars.list.map fun p =>
      (p.1, { p.2 with value := nameJobsIn issued p.2.value })
    jobs := sh.jobs.list.map fun j => { j with command := nameJobsIn issued j.command } }

def followAll (cues : List Cue) : SessionM (List Record) := cues.mapM follow

end Transcript
end JobShell
