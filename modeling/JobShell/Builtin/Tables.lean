import JobShell.Session.Output
import JobShell.Text.Identifier
import JobShell.Text.Quoted

/-!
`export`, `unset`, `env`, `set`, `alias` and `unalias`: the tables of variables and aliases.
-/
namespace JobShell.Tables

open SessionM

/-- Goes through some arguments as long as the shell goes on; the status is that of the last one that
failed. -/
def goThrough (act : String → SessionM Int) (status : Int) : List String → SessionM Int
  | [] => return status
  | arg :: rest => do
    let s ← act arg
    let status := if s = 0 then status else s
    if ← isHalted then return status
    goThrough act status rest

def forEach (args : List String) (act : String → SessionM Int) : SessionM Int :=
  goThrough act 0 args

def exportOne (arg : String) : SessionM Int := do
  match Text.splitAssignment? arg with
  | some (name, value) =>
    modifyVars (·.setExported name value)
    return 0
  | none =>
    if Text.isIdentifier arg.toList then
      modifyVars (·.markExported arg)
      return 0
    else fail "export" ("`" ++ arg ++ "': not a valid identifier") 1

def runExport (argv : List String) : SessionM Int := do
  if argv.length = 1 then
    (← vars).environment.forM fun p => say ["export ", p.1, "=", Text.quote p.2, "\n"]
    return 0
  else forEach argv.tail exportOne

def runUnset (argv : List String) : SessionM Int := do
  if argv.length < 2 then fail "unset" "usage: unset NAME..." 2
  else
    argv.tail.forM fun name => modifyVars (·.unset name)
    return 0

def runEnv (_argv : List String) : SessionM Int := do
  (← vars).environment.forM fun p => say [p.1, "=", p.2, "\n"]
  return 0

def runSet (_argv : List String) : SessionM Int := do
  (← vars).list.forM fun p => say [p.1, "=", Text.quote p.2.value, "\n"]
  return 0

def modifyAliases (f : Aliases → Aliases) : SessionM Unit :=
  modifyShell fun sh => { sh with aliases := f sh.aliases }

def showAlias (name value : String) : SessionM Unit :=
  say ["alias ", name, "=", Text.quote value, "\n"]

def aliasOne (arg : String) : SessionM Int := do
  match Text.splitEquals? arg with
  | some (name, value) =>
    if name.isEmpty then fail "alias" ("`" ++ arg ++ "': invalid alias name") 1
    else
      modifyAliases (·.insert name value)
      return 0
  | none =>
    match (← shell).aliases.get? arg with
    | some value =>
      showAlias arg value
      return 0
    | none => fail "alias" (arg ++ ": not found") 1

def runAlias (argv : List String) : SessionM Int := do
  if argv.length = 1 then
    (← shell).aliases.entries.forM fun p => showAlias p.1 p.2
    return 0
  else forEach argv.tail aliasOne

def unaliasOne (arg : String) : SessionM Int := do
  if arg = "-a" then
    modifyAliases fun _ => .empty
    return 0
  else if (← shell).aliases.contains arg then
    modifyAliases (·.erase arg)
    return 0
  else fail "unalias" (arg ++ ": not found") 1

def runUnalias (argv : List String) : SessionM Int := do
  if argv.length < 2 then fail "unalias" "usage: unalias [-a] NAME..." 2
  else forEach argv.tail unaliasOne

end JobShell.Tables
