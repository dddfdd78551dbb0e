import JobShell.Builtin.Run
import JobShell.Command.Build
import JobShell.Command.Sequence
import JobShell.Expansion.Reference
import JobShell.Grammar
import JobShell.Session.Launch
import JobShell.Token.Lexer

/-!
Running lines on states of any kind that have a machine in them. What differs is how commands of each
kind are run, and how a segment is started in the background; chains, segments, lines and files are
put together from these in one way. Each of them gives a status of its own beside the one that the
session keeps.
-/
namespace JobShell

/-- States of some kind that have a machine in them. -/
class Carrier (σ : Type) where
  machine : σ → Machine
  put : σ → Machine → σ
  machine_put : ∀ s m, machine (put s m) = m
  put_machine : ∀ s, put s (machine s) = s
  put_put : ∀ s m m', put (put s m) m' = put s m'

namespace Carrier

instance : Carrier Machine := ⟨id, fun _ m => m, fun _ _ => rfl, fun _ => rfl, fun _ _ _ => rfl⟩

/-- A record beside a machine makes no difference to it. -/
instance {σ ρ : Type} [Carrier σ] : Carrier (σ × ρ) where
  machine s := machine s.1
  put s m := (put s.1 m, s.2)
  machine_put _ _ := machine_put _ _
  put_machine s := congrArg (·, s.2) (put_machine s.1)
  put_put s _ _ := congrArg (·, s.2) (put_put s.1 _ _)

variable {σ α : Type} [Carrier σ]

/-- A step of a session, taken by the machine in a state. -/
def lift (x : SessionM α) : StateM σ α := fun s =>
  let (a, m) := x (machine s)
  (a, put s m)

/-- A step that can fail, taken by the machine in a state. -/
def attempt (x : AttemptM α) : ExceptT ShellError (StateM σ) α := ExceptT.mk (lift x.run)

end Carrier

namespace SessionM

/-- Builds something from tokens; files may have been made on the way. -/
def build {α : Type} (act : Surroundings → BuildM α) : AttemptM α := do
  let m ← (get : SessionM Machine)
  let (result, tree) := act m.shell.surroundings m.host.tree
  modifyHost fun s => { s with tree }
  match result with
  | .ok a => return a
  | .error e => throw e

def reject (e : ShellError) : SessionM Int := do
  let status ← report e
  setStatus status
  return status

/-- Puts aliases and the values of variables into a line. -/
def expandLine (line : String) : SessionM String := do
  let sh ← shell
  let (line, vars) := expandReferences sh.vars (sh.aliases.expand line)
  modifyShell fun sh => { sh with vars }
  return line

/-- How deep files may be sourced one inside the other. -/
def maxSourceDepth : Nat := 64

end SessionM

open Carrier SessionM

/-! ### Commands -/

/-- How commands of each kind are run on states of some kind. -/
structure Commands (σ : Type) where
  assign : String → String → StateM σ Int
  builtin : Builtin → Command → ExceptT ShellError (StateM σ) Int
  program : Command → ExceptT ShellError (StateM σ) Int
  pipeline : Pipeline → ExceptT ShellError (StateM σ) Int

namespace Commands

variable {σ : Type} (C : Commands σ)

/-- Runs a single command: an assignment, a builtin or a program. -/
def run (c : Command) : ExceptT ShellError (StateM σ) Int :=
  match c.assignment?, Builtin.ofName? c.name with
  | some (name, value), _ => C.assign name value
  | none, some b => C.builtin b c
  | none, none => C.program c

/-- Runs the tokens of a pipeline, a single command among them. A failure to do so is reported. -/
def execute [Carrier σ] (ts : List Token) : StateM σ Int := do
  let attempt : ExceptT ShellError (StateM σ) Int :=
    if ts.any (·.kind = .pipe) then do C.pipeline (← attempt (build (Pipeline.build · ts)))
    else do C.run (← attempt (build (Command.build · ts)))
  match ← attempt.run with
  | .ok status => return status
  | .error e => lift (report e)

end Commands

/-! ### Chains -/

namespace Chain

variable {σ : Type} [Carrier σ] (execute : List Token → StateM σ Int)

/-- Goes on in a chain after a status, given how pipelines are run. -/
def proceed (status : Int) : List (Connector × List Token) → StateM σ Int
  | [] => return status
  | (k, ts) :: rest => do
    if ← lift isOver then return status
    if k.proceeds status then
      let status ← execute ts
      lift (setStatus status)
      proceed status rest
    else proceed status rest

/-- Runs a chain of pipelines, each of them or not as the status before it says. -/
def run (c : Chain) : StateM σ Int := do
  let status ← execute c.first
  lift (setStatus status)
  proceed execute status c.rest

end Chain

/-! ### Lines and files -/

/-- What lines are run by. -/
structure Engine (σ : Type) where
  /-- Runs the tokens of a pipeline and gives its status. -/
  execute : List Token → StateM σ Int
  /-- Starts the tokens of a list in the background. -/
  launch : List Token → StateM σ (Except ShellError Unit)

namespace Engine

variable {σ : Type} [Carrier σ] (E : Engine σ)

/-- Runs a segment; sending one into the background succeeds at once. -/
def runSegment (s : Segment) : StateM σ Int := do
  if s.background then
    match ← E.launch s.tokens with
    | .ok () => lift (setStatus 0)
    | .error e => lift (do setStatus (← report e))
    lift lastStatus
  else
    let status ← Chain.run E.execute (Chain.ofTokens s.tokens)
    lift (setStatus status)
    return status

/-- Runs segments until nothing more is to be done. The status is that of the last one that has run,
or the one before if there is none. -/
def runSegments (status : Int) : List Segment → StateM σ Int
  | [] => return status
  | s :: ss => do
    let status ← E.runSegment s
    if ← lift isOver then return status
    runSegments status ss

/-- Runs the tokens of a line, cut into segments. -/
def runTokens (ts : List Token) : StateM σ Int := do
  E.runSegments (← lift lastStatus) (Segment.ofLine ts)

/-- Runs the tokens of a line if the grammar accepts all of them. -/
def runChecked (ts : List Token) : StateM σ Int := do
  let limit := (← lift shell).settings.maxTokens
  match Grammar.validate limit ts with
  | .tooManyTokens => lift (reject (.tooManyTokens limit))
  | .refused fault => lift (reject (.badSyntax fault.message))
  | .accepted => E.runTokens (Token.withoutEnds ts)

/-- Expands and runs a line. -/
def runLine (line : String) : StateM σ Int := do
  let text ← lift (expandLine line)
  match Token.tokenize (← lift shell).settings.maxTokens text with
  | .error e => lift (reject e)
  | .ok ts => E.runChecked ts

/-- Whether there is nothing to run in a line of a file. -/
def isIdle (line : List Char) : Bool :=
  match Text.trim line with
  | [] => true
  | c :: _ => c = '#'

/-- Runs the lines of a file until nothing more is to be done, and gives the status of the last one
that has run. -/
def runLines (status : Int) : List (List Char) → StateM σ Int
  | [] => return status
  | line :: rest => do
    if isIdle line then runLines status rest
    else
      let status ← E.runLine (String.ofList line)
      if ← lift isOver then return status
      runLines status rest

/-- Runs every line of a file. If the end of the file does not come, this does not end either. -/
def runFile (path : String) : StateM σ (Except FileError Int) := do
  let m ← lift get
  match m.host.tree.readText m.shell.directory path with
  | .failed e => return .error e
  | .endless file =>
    lift (halt (.stuck file))
    return .ok 0
  | .text text =>
    lift (modifyShell fun sh => { sh with sourceDepth := sh.sourceDepth + 1 })
    let status ← E.runLines 0 (Text.lines text.toList)
    lift (modifyShell fun sh => { sh with sourceDepth := sh.sourceDepth - 1 })
    return .ok status

end Engine
end JobShell
