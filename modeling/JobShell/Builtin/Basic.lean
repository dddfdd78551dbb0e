/-!
The commands that the shell carries out itself.
-/
namespace JobShell

inductive Builtin where
  | dot
  | colon
  | bracket
  | aliasing
  | background
  | changeDirectory
  | clear
  | echo
  | environment
  | exit
  | exporting
  | failure
  | foreground
  | help
  | jobs
  | kill
  | ping
  | printDirectory
  | quit
  | set
  | source
  | test
  | success
  | type
  | unalias
  | unset
  | which
  deriving DecidableEq, Repr

namespace Builtin

/-- The builtins in the order of their names. -/
def all : List Builtin :=
  [dot, colon, bracket, aliasing, background, changeDirectory, clear, echo, environment, exit,
    exporting, failure, foreground, help, jobs, kill, ping, printDirectory, quit, set, source, test,
    success, type, unalias, unset, which]

def name : Builtin → String
  | dot => "."
  | colon => ":"
  | bracket => "["
  | aliasing => "alias"
  | background => "bg"
  | changeDirectory => "cd"
  | clear => "clear"
  | echo => "echo"
  | environment => "env"
  | exit => "exit"
  | exporting => "export"
  | failure => "false"
  | foreground => "fg"
  | help => "help"
  | jobs => "jobs"
  | kill => "kill"
  | ping => "ping"
  | printDirectory => "pwd"
  | quit => "quit"
  | set => "set"
  | source => "source"
  | test => "test"
  | success => "true"
  | type => "type"
  | unalias => "unalias"
  | unset => "unset"
  | which => "which"

def description : Builtin → String
  | dot | source => "Execute commands from a file in the current shell"
  | colon => "Null command"
  | bracket | test => "Evaluate a conditional expression"
  | aliasing => "Define or display aliases"
  | background => "Resume a stopped job in the background"
  | changeDirectory => "Change the working directory"
  | clear => "Clear the terminal screen"
  | echo => "Display a line of text"
  | environment => "Print exported variables"
  | exit | quit => "Exit the shell"
  | exporting => "Mark variables for export to child processes"
  | failure => "Return failure"
  | foreground => "Move a job to the foreground"
  | help => "Display help for builtins"
  | jobs => "List background jobs"
  | kill => "Send a signal to a process or job"
  | ping => "Send a numbered signal to a process"
  | printDirectory => "Print the working directory"
  | set => "Display shell variables"
  | success => "Return success"
  | type => "Indicate how a command would be interpreted"
  | unalias => "Remove alias definitions"
  | unset => "Remove variables"
  | which => "Locate a command"

/-- The builtin with exactly this name. -/
def ofName? (name : String) : Option Builtin := all.find? (·.name = name)

@[simp] theorem ofName?_name (b : Builtin) : ofName? b.name = some b := by
  cases b <;> decide

end Builtin
end JobShell
