import JobShell.Pattern
import JobShell.Host.FileTree

/-!
File names in words: a leading tilde for the home directory, and patterns for the names in a
directory.
-/
namespace JobShell

/-- What the meaning of a file name depends on, beside the tree of files. -/
structure Surroundings where
  directory : NodeId
  home : String
  deriving DecidableEq, Repr

/-- Puts the home directory in place of a tilde that stands alone or before a slash. -/
def Surroundings.expandTilde (here : Surroundings) (word : String) : String :=
  match word.toList with
  | ['~'] => here.home
  | '~' :: '/' :: r => here.home ++ String.ofList ('/' :: r)
  | _ => word

namespace Pattern

/-- The directory of a pattern, the text before the names in it, and the pattern for these names:
all that stands before the last slash is taken as it is. -/
def splitDirectory (pattern : String) : String × String × String :=
  let back := pattern.toList.reverse
  let file := String.ofList (back.takeWhile (· ≠ '/')).reverse
  match (back.dropWhile (· ≠ '/')).reverse with
  | [] => (".", "", file)
  | ['/'] => ("/", "/", file)
  | upToSlash => (String.ofList upToSlash.dropLast, String.ofList upToSlash, file)

/-- Those of some names that a pattern matches. A name that begins with a dot is matched only by a
pattern that does. -/
def select (file : String) (names : List String) : List String :=
  let hidden := file.toList.head? = some '.'
  names.filter fun name =>
    (hidden || name.toList.head? ≠ some '.') && matchesName file name

/-- The paths that a pattern stands for, in the order of their bytes; the pattern itself if there
are none. -/
def expand (tree : FileTree) (dir : NodeId) (pattern : String) : List String :=
  let (directory, lead, file) := splitDirectory pattern
  match tree.lookupDirectory dir directory with
  | .error _ => [pattern]
  | .ok id =>
    let names := ((tree.entries? id).map Listing.keys).getD []
    match (select file (names.filterMap Bytes.toString?)).map (lead ++ ·) with
    | [] => [pattern]
    | found => found.mergeSort fun a b => Bytes.ofString a ≤ Bytes.ofString b

end Pattern
end JobShell
