import JobShell.Host.FileTree
import JobShell.Host.ProcessTable

/-!
The host that a session runs on: files, the places at which they are open, and processes.
-/
namespace JobShell

/-- A file as it is open: the node, the place of the next byte, and whether writing always goes to
the end. -/
structure OpenFile where
  node : NodeId
  offset : Nat
  append : Bool
  deriving DecidableEq, Repr

/-- The number of an open file. Processes that share it share its offset. -/
abbrev Handle := Nat

/-- Why a shell process does not get any further in the middle of its work. -/
inductive Halt where
  /-- It has given up, as there is no space for what it has to say. -/
  | crashed
  /-- It waits for the end of a file that has none. -/
  | stuck (file : NodeId)
  /-- It has ended or stopped itself by a signal. -/
  | struck (signal : Signal)
  deriving DecidableEq, Repr

structure Host extends ProcessTable where
  tree : FileTree
  opened : Array OpenFile
  /-- Shell processes that have begun their work or come to a halt in it, the latest first. -/
  halts : List (Int × Option Halt)

namespace Host

def ofTree (tree : FileTree) : Host :=
  { ProcessTable.initial with tree, opened := #[], halts := [] }

/-! ### Open files -/

def openNode (s : Host) (node : NodeId) (append : Bool) : Handle × Host :=
  (s.opened.size, { s with opened := s.opened.push ⟨node, 0, append⟩ })

/-- Opens a file that is in no directory. -/
def openUnnamed (s : Host) (n : Node) : Handle × Host :=
  let (node, tree) := s.tree.push n
  { s with tree }.openNode node false

/-- Opens both ends of a pipe: what is written to the second can be read from the first. -/
def openPipe (s : Host) : (Handle × Handle) × Host :=
  let (node, tree) := s.tree.push (.file [] false)
  let (reader, s) := { s with tree }.openNode node false
  let (writer, s) := s.openNode node true
  ((reader, writer), s)

def openForReading (s : Host) (dir : NodeId) (path : String) :
    Except FileError (Handle × Host) :=
  match s.tree.lookup true dir path with
  | .error e => .error e
  | .ok node => .ok (s.openNode node false)

/-- Opens a file to write to it, from its beginning with what it held dropped, or at its end. -/
def openForWriting (s : Host) (dir : NodeId) (path : String) (append : Bool) :
    Except FileError (Handle × Host) :=
  match s.tree.openForWriting dir path with
  | .error e => .error e
  | .ok (node, tree) =>
    let tree := if append then tree else tree.truncate node
    .ok ({ s with tree }.openNode node append)

/-- A content with some bytes put at an offset. -/
def splice (content : Bytes) (offset : Nat) (b : Bytes) : Bytes :=
  content.take offset ++ List.replicate (offset - content.length) 0 ++ b
    ++ content.drop (offset + b.length)

def write (s : Host) (h : Handle) (b : Bytes) : Except Errno Host :=
  match s.opened[h]? with
  | none => .error .badHandle
  | some o =>
    match s.tree.get? o.node with
    | some (.file content executable) =>
      let offset := if o.append then content.length else o.offset
      .ok { s with
        tree := s.tree.set o.node (.file (splice content offset b) executable)
        opened := s.opened.setIfInBounds h { o with offset := offset + b.length } }
    | some .full => if b.isEmpty then .ok s else .error .noSpace
    | some .null | some (.terminal _) | some .fifo | some (.program _) => .ok s
    | _ => .error .badHandle

/-- Moves the place of the next byte ahead. -/
def skipAhead (s : Host) (h : Handle) (o : OpenFile) (n : Nat) : Host :=
  { s with opened := s.opened.setIfInBounds h { o with offset := o.offset + n } }

/-- Reads some bytes: what is there, but no more than asked for, and one line at a time from a
terminal. -/
def readSome (s : Host) (h : Handle) (limit : Nat) : Except Errno (Bytes × Host) :=
  match s.opened[h]? with
  | none => .error .badHandle
  | some o =>
    match s.tree.get? o.node with
    | some (.file content _) =>
      let b := (content.drop o.offset).take limit
      .ok (b, s.skipAhead h o b.length)
    | some (.terminal typed) =>
      let b := (typed.takeWhile (· ≠ Bytes.newline) ++
        (typed.dropWhile (· ≠ Bytes.newline)).take 1).take limit
      .ok (b, { s with tree := s.tree.set o.node (.terminal (typed.drop b.length)) })
    | some (.directory ..) => .error .isDirectory
    | _ => .ok ([], s)

/-- Reads all that is left. -/
def readAll (s : Host) (h : Handle) : Except Errno (Bytes × Host) :=
  match s.opened[h]? with
  | none => .error .badHandle
  | some o =>
    match s.tree.get? o.node with
    | some (.file content _) =>
      let b := content.drop o.offset
      .ok (b, s.skipAhead h o b.length)
    | some (.terminal typed) => .ok (typed, { s with tree := s.tree.set o.node (.terminal []) })
    | some (.directory ..) => .error .isDirectory
    | _ => .ok ([], s)

/-- What a file holds, wherever it is open. -/
def content (s : Host) (h : Handle) : Bytes :=
  match (s.opened[h]?).bind fun o => s.tree.get? o.node with
  | some (.file content _) => content
  | _ => []

def isTerminal (s : Host) (h : Handle) : Bool :=
  match (s.opened[h]?).bind fun o => s.tree.get? o.node with
  | some (.terminal _) => true
  | _ => false

/-- Whether a file takes nothing for want of space. -/
def isFull (s : Host) (h : Handle) : Bool :=
  match (s.opened[h]?).bind fun o => s.tree.get? o.node with
  | some .full => true
  | _ => false

/-- A host after something has been sent to an open file, which may not take it. -/
def attempt (s : Host) (h : Handle) (b : Bytes) : Host :=
  match s.write h b with
  | .ok s => s
  | .error _ => s

/-! ### Shell processes -/

/-- A shell process begins its work. -/
def setOut (s : Host) (pid : Int) : Host := { s with halts := (pid, none) :: s.halts }

def halt (s : Host) (pid : Int) (cause : Halt) : Host :=
  { s with halts := (pid, some cause) :: s.halts }

/-- What a shell process has come to a halt by since it began its work. -/
def haltOf? (s : Host) (pid : Int) : Option Halt := (s.halts.find? (·.1 = pid)).bind (·.2)

/-- A shell process writes a message to an open file. It gives up if there is no space for it. -/
def complain (s : Host) (pid : Int) (h : Handle) (text : String) : Host :=
  match s.write h (Bytes.ofString text) with
  | .ok s => s
  | .error e => if e = .noSpace then s.halt pid .crashed else s

/-- Whether a shell process does not get any further. -/
def isHalted (s : Host) (pid : Int) : Bool :=
  (s.haltOf? pid).isSome || (s.process? pid).any fun p => p.isEnded || p.isStopped

/-! ### Processes -/

def updateProcess (s : Host) (pid : Int) (f : Process → Process) : Host :=
  { s with toProcessTable := s.toProcessTable.update pid f }

/-- Delivers what processes wrote to files shared with their parents and still hold. -/
def deliver (s : Host) (which : Process → Bool) : Host :=
  let chunks := (s.processes.filter which).flatMap Process.held
  let emptied := s.processes.map fun p => if which p then { p with held := [] } else p
  let s := { s with processes := emptied }
  chunks.foldl (fun s c => s.attempt c.1 c.2) s

end Host
end JobShell
