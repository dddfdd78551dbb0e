import JobShell.Session.Basic

/-!
Printing. Standard output is buffered by lines: complete lines are written at once, the rest is
kept, and what cannot be written stays in the buffer. Standard error is not buffered.
-/
namespace JobShell.SessionM

/-- How many bytes the buffer of standard output holds. -/
def bufferSize : Nat := 1024

/-- Writes to standard output past the buffer. -/
def writeDirectly (b : Bytes) : SessionM (Except Errno Unit) := do
  let out := (← shell).stdio.output
  tryHost fun s => (s.write out b).map fun s => ((), s)

/-- Writes out what is in the buffer. -/
def flush : SessionM (Except Errno Unit) := do
  let held := (← shell).unwritten
  if held.isEmpty then return .ok ()
  match ← writeDirectly held with
  | .error e => return .error e
  | .ok () =>
    modifyShell fun sh => { sh with unwritten := [] }
    return .ok ()

def keep (b : Bytes) : SessionM Unit :=
  modifyShell fun sh => { sh with unwritten := sh.unwritten ++ b }

/-- Puts bytes into the buffer, which is written out first if they do not fit. -/
def buffer (b : Bytes) : SessionM (Except Errno Unit) := do
  let room := bufferSize - (← shell).unwritten.length
  if room < b.length then
    if let .error e ← flush then return .error e
  if bufferSize ≤ b.length then writeDirectly b
  else
    keep b
    return .ok ()

/-- Cuts bytes behind their last line feed. -/
def splitLines (b : Bytes) : Bytes × Bytes :=
  let tail := (b.reverse.takeWhile (· ≠ Bytes.newline)).reverse
  (b.take (b.length - tail.length), tail)

/-- Prints bytes: complete lines go out, the rest is kept. -/
def print (b : Bytes) : SessionM (Except Errno Unit) := do
  let (lines, tail) := splitLines b
  let held := (← shell).unwritten
  if lines.isEmpty then
    if held.getLast? = some Bytes.newline then
      if let .error e ← flush then return .error e
    buffer tail
  else if held.isEmpty then
    if let .error e ← writeDirectly lines then return .error e
    buffer tail
  else
    if let .error e ← buffer lines then return .error e
    if let .error e ← flush then return .error e
    buffer tail

/-- Prints a text piece by piece, up to a piece that cannot be printed. -/
def say : List String → SessionM Unit
  | [] => return
  | piece :: rest => do
    match ← print (Bytes.ofString piece) with
    | .ok () => say rest
    | .error _ => return

/-- Prints a text. A shell that cannot do so gives up. -/
def proclaim (text : String) : SessionM Unit := do
  if let .error e ← print (Bytes.ofString text) then
    if e ≠ .badHandle then halt .crashed

/-- Writes a text to standard error. A shell that cannot do so gives up. -/
def complain (text : String) : SessionM Unit := do
  let sh ← shell
  modifyHost (·.complain sh.pid sh.stdio.error text)

/-- Writes to an open file what it takes. -/
def writeTo (h : Handle) (b : Bytes) : SessionM Unit := modifyHost (·.attempt h b)

/-- Adds a warning to the log, if there is one. -/
def record (text : String) : SessionM Unit := do
  if let some h := (← shell).log then writeTo h (Bytes.ofString ("[WARN] " ++ text ++ "\n"))

/-- Says why something failed, and gives the status that this leaves behind. -/
def report (e : ShellError) : SessionM Int := do
  record e.message
  complain ("jobsh: " ++ e.message ++ "\n")
  return e.status

/-- Says why a builtin failed, and gives the status that this leaves behind. -/
def fail (name message : String) (status : Int) : SessionM Int := do
  complain (name ++ ": " ++ message ++ "\n")
  return status

end JobShell.SessionM
