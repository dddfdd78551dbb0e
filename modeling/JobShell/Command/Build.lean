import JobShell.Command.Basic
import JobShell.Error
import JobShell.Expansion.FileName
import JobShell.Grammar
import JobShell.Token.Basic

/-!
From tokens to commands. All files that are redirected to are opened first, in the order in which
they are named; then file names in the words are expanded.
-/
namespace JobShell

/-- What an attempt at something gives, and the tree of files it leaves behind. -/
abbrev BuildM (α : Type) := FileTree → Except ShellError α × FileTree

namespace Command

/-- The file that the token behind a redirection names. -/
def targetPath (here : Surroundings) (t : Token) : String :=
  if t.quoted then t.text else here.expandTilde t.text

/-- Opens the file of a redirection and closes it again. One to write to is made, and emptied
unless it is written to at its end. -/
def touch (here : Surroundings) (kind : Token.Kind) (path : String) (tree : FileTree) :
    Except FileError FileTree :=
  match kind with
  | .input => (tree.lookup true here.directory path).map fun _ => tree
  | .output => (tree.openForWriting here.directory path).map fun (node, tree) => tree.truncate node
  | _ => (tree.openForWriting here.directory path).map fun (_, tree) => tree

/-- Opens the files of all redirections in turn, up to one that cannot be opened. -/
def checkRedirections (here : Surroundings) : List Token → FileTree →
    Except ShellError Unit × FileTree
  | [], tree | [_], tree => (.ok (), tree)
  | t :: target :: rest, tree =>
    if t.kind.isRedirection then
      match touch here t.kind (targetPath here target) tree with
      | .ok tree => checkRedirections here rest tree
      | .error e => (.error (.redirectionTarget (targetPath here target) e), tree)
    else checkRedirections here (target :: rest) tree

/-- The words that a word token stands for. -/
def expandWord (here : Surroundings) (tree : FileTree) (t : Token) : List String :=
  if t.quoted then [t.text]
  else
    let word := here.expandTilde t.text
    if Pattern.isPattern word then Pattern.expand tree here.directory word else [word]

def syntaxFault (shown : String) : ShellError := .badSyntax (Grammar.Fault.unexpected shown).message

/-- Adds the tokens of a command to what has been gathered of it. -/
def gather (here : Surroundings) (tree : FileTree) : Command → List Token →
    Except ShellError Command
  | c, [] => .ok c
  | c, t :: rest =>
    match t.kind with
    | .word => gather here tree { c with argv := c.argv ++ expandWord here tree t } rest
    | .input =>
      match rest with
      | [] => .error (syntaxFault "newline")
      | target :: rest => gather here tree { c with input := some (targetPath here target) } rest
    | .output | .append =>
      match rest with
      | [] => .error (syntaxFault "newline")
      | target :: rest =>
        let output := some (targetPath here target)
        gather here tree { c with output, append := t.kind = .append } rest
    | _ => .error (syntaxFault t.text)

/-- The command that some tokens spell, which has one word at least. -/
def ofTokens (here : Surroundings) (tree : FileTree) (ts : List Token) :
    Except ShellError Command :=
  match gather here tree .empty (Token.withoutEnds ts) with
  | .error e => .error e
  | .ok c => if c.argv.isEmpty then .error .emptyCommand else .ok c

/-- Builds a single command. -/
def build (here : Surroundings) (ts : List Token) : BuildM Command := fun tree =>
  match checkRedirections here ts tree with
  | (.error e, tree) => (.error e, tree)
  | (.ok (), tree) => (ofTokens here tree ts, tree)

end Command

namespace Pipeline

/-- Cuts tokens at the pipe signs. -/
def segments : List Token → List (List Token)
  | [] => [[]]
  | t :: ts =>
    if t.kind = .pipe then [] :: segments ts
    else match segments ts with
      | [] => [[t]]
      | s :: ss => (t :: s) :: ss

/-- Drops the redirections of a stage that do not count: of the input unless it is the first, and of
the output unless it is the last. -/
def confine (first last : Bool) (c : Command) : Command :=
  let c := if first then c else { c with input := none }
  if !last && c.output.isSome then { c with output := none, append := false } else c

/-- The stages from one on. -/
def ofSegments (here : Surroundings) (tree : FileTree) (first : Bool) : List (List Token) →
    Except ShellError Pipeline
  | [] => .ok []
  | s :: ss =>
    match Command.ofTokens here tree s with
    | .error e => .error e
    | .ok c => (ofSegments here tree false ss).map (confine first ss.isEmpty c :: ·)

/-- Builds the stages of a pipeline. -/
def build (here : Surroundings) (ts : List Token) : BuildM Pipeline := fun tree =>
  match Command.checkRedirections here ts tree with
  | (.error e, tree) => (.error e, tree)
  | (.ok (), tree) => (ofSegments here tree true (segments ts), tree)

end Pipeline
end JobShell
