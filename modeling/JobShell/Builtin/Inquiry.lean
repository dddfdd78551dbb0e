import JobShell.Builtin.Basic
import JobShell.Builtin.Tables
import JobShell.Command.Image

/-!
`help`, `type` and `which`: what there is to run.
-/
namespace JobShell.Inquiry

open SessionM

/-- A name filled up with spaces, in the pieces in which it is printed. -/
def padded (width : Nat) (s : String) : List String :=
  s :: List.replicate (width - s.length) " "

def runHelp (_argv : List String) : SessionM Int := do
  say ["jobsh builtins:\n"]
  Builtin.all.forM fun b => say (["  "] ++ padded 10 b.name ++ [" ", b.description, "\n"])
  return 0

/-- The path of a program that is there. -/
def locate (name : String) : SessionM (Option String) := do
  let m ← get
  let tree := m.host.tree
  let dir := m.shell.directory
  return (Image.resolve? tree dir (m.shell.vars.get? "PATH") name).filter (tree.exists dir)

def typeOne (name : String) : SessionM Int := do
  if let some value := (← shell).aliases.get? name then
    say [name, " is aliased to '", value, "'\n"]
    return 0
  else if (Builtin.ofName? name).isSome then
    say [name, " is a shell builtin\n"]
    return 0
  else match ← locate name with
    | some path =>
      say [name, " is ", path, "\n"]
      return 0
    | none => fail "type" (name ++ ": not found") 1

def runType (argv : List String) : SessionM Int := do
  if argv.length < 2 then fail "type" "usage: type NAME..." 2
  else Tables.forEach argv.tail typeOne

def whichOne (name : String) : SessionM Int := do
  match ← locate name with
  | some path =>
    say [path, "\n"]
    return 0
  | none => fail "which" (name ++ ": not found") 1

def runWhich (argv : List String) : SessionM Int := do
  if argv.length < 2 then fail "which" "usage: which NAME..." 1
  else Tables.forEach argv.tail whichOne

end JobShell.Inquiry
