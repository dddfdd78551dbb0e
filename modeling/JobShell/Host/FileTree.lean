import JobShell.Store.Listing
import JobShell.Host.Errno
import JobShell.Host.Path
import JobShell.Host.Program

/-!
The tree of files: a table of nodes, of which directories refer to others by name. A path is
walked component by component, and symbolic links are followed within a budget.
-/
namespace JobShell

abbrev NodeId := Nat

inductive Node where
  | file (content : Bytes) (executable : Bool)
  /-- Names may stand in any order. The root is its own parent. -/
  | directory (parent : NodeId) (entries : Listing Bytes NodeId)
  | link (target : Bytes)
  | fifo
  /-- Takes everything and holds nothing. -/
  | null
  /-- Takes nothing, for want of space. -/
  | full
  /-- What has been typed on it and not been read yet. -/
  | terminal (typed : Bytes)
  | program (run : Program)

/-- A file without its content. What was a program is an empty file that can still be started. -/
def Node.emptied : Node → Node
  | .file _ executable => .file [] executable
  | .program _ => .file [] true
  | n => n

structure FileTree where
  nodes : Array Node

namespace FileTree

def root : NodeId := 0

/-- A root directory with nothing in it. -/
def empty : FileTree := ⟨#[.directory root .empty]⟩

def get? (t : FileTree) (id : NodeId) : Option Node := t.nodes[id]?

def set (t : FileTree) (id : NodeId) (n : Node) : FileTree := ⟨t.nodes.setIfInBounds id n⟩

/-- Adds a node that no directory refers to yet. -/
def push (t : FileTree) (n : Node) : NodeId × FileTree := (t.nodes.size, ⟨t.nodes.push n⟩)

def isDirectory (t : FileTree) (id : NodeId) : Bool :=
  match t.get? id with
  | some (.directory ..) => true
  | _ => false

def entries? (t : FileTree) (id : NodeId) : Option (Listing Bytes NodeId) :=
  match t.get? id with
  | some (.directory _ entries) => some entries
  | _ => none

def parent (t : FileTree) (id : NodeId) : NodeId :=
  match t.get? id with
  | some (.directory parent _) => parent
  | _ => root

/-- Enters a node into a directory. -/
def enter (t : FileTree) (dir : NodeId) (name : Bytes) (id : NodeId) : FileTree :=
  match t.get? dir with
  | some (.directory parent entries) => t.set dir (.directory parent (entries.insert name id))
  | _ => t

/-- Takes a name out of a directory. -/
def leave (t : FileTree) (dir : NodeId) (name : Bytes) : FileTree :=
  match t.get? dir with
  | some (.directory parent entries) => t.set dir (.directory parent (entries.erase name))
  | _ => t

/-- Adds a node under a name in a directory. -/
def create (t : FileTree) (dir : NodeId) (name : Bytes) (n : Node) : NodeId × FileTree :=
  let (id, t) := t.push n
  (id, t.enter dir name id)

/-- The name of a directory in its parent, if it is still there. -/
def nameOf? (t : FileTree) (id : NodeId) : Option Bytes :=
  (t.entries? (t.parent id)).bind fun entries =>
    (entries.entries.find? (·.2 = id)).map (·.1)

/-- The names on the way from the root to a directory, at most `depth` of them. -/
def trail? (t : FileTree) : Nat → NodeId → List Bytes → Option (List Bytes)
  | 0, _, _ => none
  | depth + 1, id, below =>
    if id = root then some below
    else (t.nameOf? id).bind fun name => t.trail? depth (t.parent id) (name :: below)

/-- The absolute path of a directory. There is none once it has been removed. -/
def pathOf? (t : FileTree) (id : NodeId) : Option Bytes :=
  (t.trail? (t.nodes.size + 1) id []).map Path.absolute

/-- Whether a directory can still be reached from the root. -/
def isLinked (t : FileTree) (id : NodeId) : Bool := (t.trail? (t.nodes.size + 1) id []).isSome

/-! ### Walking a path -/

/-- Where a path leads. -/
inductive Location where
  | found (id : NodeId)
  /-- The last name is not in the directory that the others lead to. -/
  | missing (dir : NodeId) (name : Bytes)
  /-- A slash follows what is no directory. -/
  | noDirectory (cause : Errno)
  deriving DecidableEq, Repr

/-- The end of a walk, or a link on the way with the components that follow it. -/
inductive Stop where
  | arrived (place : Location)
  | link (dir : NodeId) (target : Bytes) (rest : List Bytes)
  deriving DecidableEq, Repr

/-- Walks down from a directory to the end of a path or to the first link to be followed. -/
def descend (t : FileTree) (followLast : Bool) : NodeId → List Bytes → Except Errno Stop
  | dir, [] => .ok (.arrived (.found dir))
  | dir, name :: rest =>
    if name.isEmpty || name = Bytes.ofString "." then t.descend followLast dir rest
    else if name = Bytes.ofString ".." then t.descend followLast (t.parent dir) rest
    else if Path.maxComponentBytes < name.length then .error .nameTooLong
    else match (t.entries? dir).bind (·.get? name) with
      | none =>
        if rest.isEmpty then .ok (.arrived (.missing dir name))
        else if rest = [[]] then .ok (.arrived (.noDirectory .noEntry))
        else .error .noEntry
      | some id =>
        match t.get? id with
        | some (.link target) =>
          if rest.isEmpty && !followLast then .ok (.arrived (.found id))
          else .ok (.link dir target rest)
        | some (.directory ..) => t.descend followLast id rest
        | _ =>
          if rest.isEmpty then .ok (.arrived (.found id))
          else if rest = [[]] then .ok (.arrived (.noDirectory .notDirectory))
          else .error .notDirectory

/-- How many links one walk may follow. -/
def maxLinks : Nat := 40

/-- Walks a path, following `budget` links at most. -/
def follow (t : FileTree) (followLast : Bool) : Nat → NodeId → List Bytes → Except Errno Location
  | budget, dir, names =>
    match t.descend followLast dir names with
    | .error e => .error e
    | .ok (.arrived place) => .ok place
    | .ok (.link dir target rest) =>
      match budget with
      | 0 => .error .linkLoop
      | budget + 1 =>
        let start := if Path.isAbsolute target then root else dir
        t.follow followLast budget start (Path.components target ++ rest)

/-- Where the bytes of a path lead, seen from a directory. -/
def locateBytes (t : FileTree) (followLast : Bool) (dir : NodeId) (path : Bytes) :
    Except FileError Location :=
  if path.contains 0 then .error .nullInPath
  else if path.isEmpty then .error (.system .noEntry)
  else if Path.maxBytes < path.length then .error (.system .nameTooLong)
  else
    let start := if Path.isAbsolute path then root else dir
    match t.follow followLast maxLinks start (Path.components path) with
    | .ok place => .ok place
    | .error e => .error (.system e)

/-- Where a path leads, seen from a directory. -/
def locate (t : FileTree) (followLast : Bool) (dir : NodeId) (path : String) :
    Except FileError Location := t.locateBytes followLast dir (Bytes.ofString path)

/-- The node that the bytes of a path lead to. -/
def lookupBytes (t : FileTree) (followLast : Bool) (dir : NodeId) (path : Bytes) :
    Except FileError NodeId :=
  match t.locateBytes followLast dir path with
  | .error e => .error e
  | .ok (.found id) => .ok id
  | .ok (.missing ..) => .error (.system .noEntry)
  | .ok (.noDirectory e) => .error (.system e)

/-- The node that a path leads to. -/
def lookup (t : FileTree) (followLast : Bool) (dir : NodeId) (path : String) :
    Except FileError NodeId := t.lookupBytes followLast dir (Bytes.ofString path)

/-- The directory that the bytes of a path lead to. -/
def directoryAt (t : FileTree) (dir : NodeId) (path : Bytes) : Except FileError NodeId :=
  match t.lookupBytes true dir path with
  | .error e => .error e
  | .ok id => if t.isDirectory id then .ok id else .error (.system .notDirectory)

/-- The directory that a path leads to. -/
def lookupDirectory (t : FileTree) (dir : NodeId) (path : String) : Except FileError NodeId :=
  t.directoryAt dir (Bytes.ofString path)

def isFile (t : FileTree) (id : NodeId) : Bool :=
  match t.get? id with
  | some (.file ..) | some (.program _) => true
  | _ => false

/-- What comes of reading a file to its end. -/
inductive Reading where
  | text (s : String)
  | failed (e : FileError)
  /-- The end of the file does not come. -/
  | endless (file : NodeId)
  deriving DecidableEq, Repr

/-- The text that has been read, if any has. -/
def Reading.toOption : Reading → Option String
  | text s => some s
  | failed _ | endless _ => none

/-- The text of a file. -/
def readText (t : FileTree) (dir : NodeId) (path : String) : Reading :=
  match t.lookup true dir path with
  | .error e => .failed e
  | .ok id =>
    match t.get? id with
    | some (.file content _) =>
      match Bytes.toString? content with
      | some text => .text text
      | none => .failed .notText
    | some (.directory ..) => .failed (.system .isDirectory)
    | some (.program _) => .failed .notText
    | some .fifo | some .full | some (.terminal _) => .endless id
    | _ => .text ""

/-! ### Making and removing -/

/-- The file to write to under a path; one that is not there yet is made. -/
def openForWriting (t : FileTree) (dir : NodeId) (path : String) :
    Except FileError (NodeId × FileTree) :=
  match t.locate true dir path with
  | .error e => .error e
  | .ok (.noDirectory _) => .error (.system .isDirectory)
  | .ok (.found id) =>
    if t.isDirectory id then .error (.system .isDirectory) else .ok (id, t)
  | .ok (.missing dir name) =>
    if t.isLinked dir then .ok (t.create dir name (.file [] false))
    else .error (.system .noEntry)

/-- Drops the content of a file. -/
def truncate (t : FileTree) (id : NodeId) : FileTree :=
  match t.get? id with
  | some n => t.set id n.emptied
  | none => t

/-- The directory under a name in another one, which is made if nothing has that name. -/
def makeDirectory (t : FileTree) (dir : NodeId) (name : Bytes) : Except Errno (NodeId × FileTree) :=
  match t.follow true maxLinks dir [name], t.follow false maxLinks dir [name] with
  | .ok (.found id), _ => if t.isDirectory id then .ok (id, t) else .error .notDirectory
  | _, .ok (.missing parent name) =>
    if t.isLinked parent then .ok (t.create parent name (.directory parent .empty))
    else .error .noEntry
  | .error e, _ => .error e
  | _, _ => .error .alreadyExists

/-- Makes a directory with all that lead to it, along a path of plain names, as far as that is
possible. -/
def makeDirectories (t : FileTree) (dir : NodeId) : List Bytes → Except Errno NodeId × FileTree
  | [] => (.ok dir, t)
  | name :: rest =>
    match t.makeDirectory dir name with
    | .error e => (.error e, t)
    | .ok (id, t) => t.makeDirectories id rest

/-- Makes the directory that a path names. -/
def makePath (t : FileTree) (dir : NodeId) (path : String) : Except Errno NodeId × FileTree :=
  let path := Bytes.ofString path
  t.makeDirectories (if Path.isAbsolute path then root else dir)
    ((Path.components path).filter (!·.isEmpty))

/-- Empties a directory and all below it, down to `depth` levels. -/
def clear (t : FileTree) : Nat → NodeId → FileTree
  | 0, _ => t
  | depth + 1, id =>
    match t.get? id with
    | some (.directory parent entries) =>
      let t := entries.entries.foldl (fun t e => t.clear depth e.2) t
      t.set id (.directory parent .empty)
    | _ => t

/-- Removes a file or a directory with all that is in it. What a dot names is only emptied. -/
def remove (t : FileTree) (dir : NodeId) (path : String) : FileTree :=
  let dots := [Bytes.ofString ".", Bytes.ofString ".."]
  let path := Bytes.ofString path
  let names := (Path.components path).filter (!·.isEmpty)
  let start := if Path.isAbsolute path then root else dir
  match names.getLast? with
  | none => t
  | some last =>
    if dots.contains last then
      match t.follow true maxLinks start names with
      | .ok (.found id) => t.clear (t.nodes.size + 1) id
      | _ => t
    else
      match t.follow true maxLinks start (names.dropLast ++ [[]]) with
      | .ok (.found parent) =>
        match (t.entries? parent).bind (·.get? last) with
        | some id => (t.clear (t.nodes.size + 1) id).leave parent last
        | none => t
      | _ => t

/-- All that lies below a directory, down to `depth` levels, with the names on the way. -/
def below (t : FileTree) : Nat → NodeId → List (List Bytes × NodeId)
  | 0, _ => []
  | depth + 1, id =>
    match t.entries? id with
    | none => []
    | some entries =>
      entries.entries.flatMap fun e =>
        ([e.1], e.2) :: (t.below depth e.2).map fun p => (e.1 :: p.1, p.2)

end FileTree
end JobShell
