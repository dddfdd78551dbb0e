import JobShell.Session.Output

/-!
`cd` and `pwd`: the working directory.
-/
namespace JobShell.Directory

open SessionM

/-- The path of the working directory, which is lost once that has been removed. -/
def current : SessionM (Option Bytes) := do
  let m ← get
  return m.host.tree.pathOf? m.shell.directory

/-- Where a change of directory is to lead, and whether the new directory is to be announced. -/
def target (sh : Shell) : Option String → Except String (Bytes × Bool)
  | none | some "~" =>
    match (sh.vars.get? "HOME").filter (!·.isEmpty) with
    | some home => .ok (Bytes.ofString home, false)
    | none => .error "HOME not set"
  | some "-" =>
    match sh.previousDirectory with
    | some previous => .ok (previous, true)
    | none => .error "OLDPWD not set"
  | some dir => .ok (Bytes.ofString (sh.surroundings.expandTilde dir), false)

/-- Enters a directory and notes where the session was before. Paths that are no texts are shown with
replacements. -/
def enter (path : Bytes) (announce : Bool) : SessionM Int := do
  let before ← current
  let m ← get
  match m.host.tree.directoryAt m.shell.directory path with
  | .error e => fail "cd" (path.toStringLossy ++ ": " ++ e.message) 1
  | .ok directory =>
    modifyShell fun sh => { sh with directory }
    let now := ((← current).getD path).toStringLossy
    if let some previous := before then
      modifyVars (·.set "OLDPWD" previous.toStringLossy)
      modifyShell fun sh => { sh with previousDirectory := some previous }
    modifyVars (·.set "PWD" now)
    if announce then say [now, "\n"]
    return 0

def change (argv : List String) : SessionM Int := do
  if 2 < argv.length then fail "cd" "too many arguments" 1
  else match target (← shell) argv[1]? with
    | .error message => fail "cd" message 1
    | .ok (path, announce) => enter path announce

def print (_argv : List String) : SessionM Int := do
  match ← current with
  | some dir =>
    say [dir.toStringLossy, "\n"]
    return 0
  | none => fail "pwd" Errno.noEntry.fileText 1

end JobShell.Directory
