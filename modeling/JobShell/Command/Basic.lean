import JobShell.Text.Identifier
import JobShell.Text.Quoted

/-!
Commands: words, and the files that standard input and output are redirected to.
-/
namespace JobShell

/-- A file to write to, from its beginning or at its end. -/
structure Target where
  path : String
  append : Bool
  deriving DecidableEq, Repr

structure Command where
  argv : List String
  input : Option String
  output : Option String
  /-- Whether the output goes to the end of its file. -/
  append : Bool
  deriving DecidableEq, Repr

namespace Command

def empty : Command := ⟨[], none, none, false⟩

/-- The file to write to, and how. -/
def target? (c : Command) : Option Target := c.output.map (⟨·, c.append⟩)

/-- The program or builtin to run. -/
def name (c : Command) : String := c.argv.headD ""

/-- The variable and the value, if the command is an assignment and nothing else. -/
def assignment? (c : Command) : Option (String × String) :=
  match c.argv with
  | [word] => Text.splitAssignment? word
  | _ => none

/-- The command as it is shown in listings. -/
def display (c : Command) : String := Text.quoteWords c.argv

end Command

/-- Commands of which each reads what the one before it writes. -/
abbrev Pipeline := List Command

namespace Pipeline

/-- The status of a pipeline: that of its last stage, or, if failures are to show, that of the last
stage that failed. -/
def status (failuresShow : Bool) (statuses : List Int) : Int :=
  if failuresShow then (statuses.reverse.find? (· ≠ 0)).getD 0 else statuses.getLastD 0

end Pipeline
end JobShell
