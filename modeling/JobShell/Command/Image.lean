import JobShell.Error
import JobShell.Host.FileTree
import JobShell.Text.Lines

/-!
Finding the program that a command names, and all that it takes to start it.
-/
namespace JobShell

/-- Whether a path leads to a plain file that may be executed. -/
def FileTree.isExecutable (t : FileTree) (dir : NodeId) (path : String) : Bool :=
  match t.lookup true dir path with
  | .error _ => false
  | .ok id =>
    match t.get? id with
    | some (.file _ executable) => executable
    | some (.program _) => true
    | _ => false

def FileTree.exists (t : FileTree) (dir : NodeId) (path : String) : Bool :=
  (t.lookup true dir path).toBool

namespace Image

/-- The directories of a search path, of which an empty one is the current directory. -/
def searchDirectories (searchPath : String) : List String :=
  (Text.splitAt (· = ':') searchPath.toList).map fun d =>
    if d.isEmpty then "." else String.ofList d

/-- The path of a program. A name with a slash is a path already; any other is looked for in the
directories of the search path. -/
def resolve? (t : FileTree) (dir : NodeId) (searchPath : Option String) (name : String) :
    Option String :=
  if name.isEmpty then none
  else if name.toList.contains '/' then some name
  else searchPath.bind fun path =>
    ((searchDirectories path).map (Path.join · name)).find? (t.isExecutable dir)

end Image

/-- A program ready to be started. -/
structure Image where
  name : String
  path : Option String
  argv : List String
  environment : List (String × String)
  deriving DecidableEq, Repr

namespace Image

/-- Prepares the start of a program, which is not possible if one of the texts holds a null
character. -/
def prepare (t : FileTree) (dir : NodeId) (argv : List String)
    (environment : List (String × String)) (searchPath : Option String) :
    Except ShellError Image :=
  let name := argv.headD ""
  let path := resolve? t dir searchPath name
  let texts := path.toList ++ argv ++ environment.flatMap fun p => [p.1, p.2]
  if texts.any (·.toList.contains '\x00') then .error (.execute name .invalid)
  else .ok ⟨name, path, argv, environment⟩

/-- The program behind the path of an image. -/
def load (t : FileTree) (dir : NodeId) (image : Image) : Except Errno Program :=
  match image.path with
  | none => .error .noEntry
  | some path =>
    match t.lookup true dir path with
    | .error (.system e) => .error e
    | .error _ => .error .invalid
    | .ok id =>
      match t.get? id with
      | some (.program run) => .ok run
      | some (.file _ true) => .error .badExecutable
      | _ => .error .accessDenied

end Image
end JobShell
