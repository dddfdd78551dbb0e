import JobShell.Host.FileTree
import JobShell.Host.Toolbox

/-!
Trees of files to run sessions on: a base directory with a working directory, a home directory and
a directory of programs, beside the usual devices.
-/
namespace JobShell

structure World where
  tree : FileTree
  work : NodeId
  home : NodeId

/-- What can be put into a tree. -/
inductive Planting where
  | file (content : Bytes) (executable : Bool)
  | directory
  | link (target : String)
  | fifo

namespace FileTree

/-- Makes a directory under a path, and gives the one it starts from if that is not possible. -/
def ensureDirectory (t : FileTree) (dir : NodeId) (path : String) : NodeId × FileTree :=
  match t.makeDirectories dir ((Path.components (Bytes.ofString path)).filter (!·.isEmpty)) with
  | (.ok made, t) => (made, t)
  | (.error _, t) => (dir, t)

/-- Puts something under a name into a directory. -/
def plantIn (t : FileTree) (dir : NodeId) (name : Bytes) : Planting → FileTree
  | .file content executable => (t.create dir name (.file content executable)).2
  | .link target => (t.create dir name (.link (Bytes.ofString target))).2
  | .fifo => (t.create dir name .fifo).2
  | .directory => (t.makeDirectories dir [name]).2

/-- Puts something under a path into a tree, with all directories that lead to it. -/
def plant (t : FileTree) (dir : NodeId) (path : String) (p : Planting) : FileTree :=
  let names := (Path.components (Bytes.ofString path)).filter (!·.isEmpty)
  match names.getLast?, t.makeDirectories dir names.dropLast with
  | some name, (.ok dir, t) => t.plantIn dir name p
  | _, (_, t) => t

end FileTree

namespace World

/-- Where the executable behind all programs lies. -/
def toolPath : String := "/usr/lib/toolbox"

def withDevices : FileTree :=
  let (dev, t) := FileTree.empty.ensureDirectory FileTree.root "dev"
  let t := (t.create dev (Bytes.ofString "null") .null).2
  let t := (t.create dev (Bytes.ofString "full") .full).2
  let (lib, t) := t.ensureDirectory FileTree.root "usr/lib"
  (t.create lib (Bytes.ofString "toolbox") (.program Toolbox.program)).2

/-- A world below a base directory. -/
def make (base : String) : World :=
  let (_, t) := withDevices.ensureDirectory FileTree.root "tmp"
  let (root, t) := t.ensureDirectory FileTree.root base
  let (work, t) := t.ensureDirectory root "w"
  let (home, t) := t.ensureDirectory root "home"
  let t := Toolbox.programs.foldl
    (fun t p => t.plant root ("bin/" ++ p.1) (.link toolPath)) t
  ⟨t, work, home⟩

/-- What a tree holds below one of its directories, by paths that begin with a given name. Names
that are no text are left out, and one name at the top can be, too. -/
def survey (t : FileTree) (label : String) (dir : NodeId) (hidden : Option String) :
    List (String × Node) :=
  (t.below (t.nodes.size + 1) dir).filterMap fun p => do
    if p.1.head? = hidden.map Bytes.ofString then none
    else
      let names ← p.1.mapM Bytes.toString?
      let node ← t.get? p.2
      return ("/".intercalate (label :: names), node)

end World
end JobShell
