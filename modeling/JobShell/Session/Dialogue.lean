import JobShell.Session.Execute
import JobShell.Session.Prompt

/-!
Sessions that take their lines from standard input. Input is read ahead in larger pieces, so
programs that share it see only what lies beyond.
-/
namespace JobShell.SessionM

/-- How many bytes are read ahead at most. -/
def pieceSize : Nat := 8192

/-- Takes a line with its line feed off the input that has been read ahead. -/
def takeLine (b : Bytes) : Option (Bytes × Bytes) :=
  if b.contains Bytes.newline then
    let line := b.takeWhile (· ≠ Bytes.newline) ++ [Bytes.newline]
    some (line, b.drop line.length)
  else none

/-- The next line of standard input, or what is left of it at its end; nothing when there is nothing
left. At most so many pieces are read for it. -/
def nextLine : Nat → SessionM Bytes
  | 0 => return []
  | pieces + 1 => do
    let held := (← shell).readAhead
    match takeLine held with
    | some (line, rest) =>
      modifyShell fun sh => { sh with readAhead := rest }
      return line
    | none =>
      let input := (← shell).stdio.input
      match ← tryHost (·.readSome input pieceSize) with
      | .error _ | .ok [] =>
        modifyShell fun sh => { sh with readAhead := [] }
        return held
      | .ok piece =>
        modifyShell fun sh => { sh with readAhead := held ++ piece }
        nextLine pieces

def isLineEnd (c : Char) : Bool := c = '\n' || c = '\r'

/-- Runs lines of standard input, at most so many, up to its end or a request to leave. -/
def runDialogue : Nat → SessionM Unit
  | 0 => return
  | lines + 1 => do
    reapJobs
    let interactive := (← shell).interactive
    if interactive then
      proclaim (← prompt)
      let _ ← flush
      if ← isHalted then return
    let line ← nextLine (lines + 1)
    if line.isEmpty then
      if interactive then proclaim "exit\n"
    else match Bytes.toChars? line with
      | none => complain ("jobsh: read error: " ++ FileError.notText.message ++ "\n")
      | some cs =>
        if !(Text.trim cs).isEmpty then
          let _ ← runLine (String.ofList (cs.reverse.dropWhile isLineEnd).reverse)
        if ← isOver then return
        runDialogue lines

/-- Runs all lines of standard input. -/
def converse : SessionM Unit := do
  let m ← get
  let size := match (m.host.opened[m.shell.stdio.input]?).bind fun o => m.host.tree.get? o.node with
    | some (.file content _) => content.length
    | some (.terminal typed) => typed.length
    | _ => 0
  runDialogue (size + 2)

end JobShell.SessionM
