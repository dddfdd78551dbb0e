import JobShell.Text.Bytes

/-!
Paths: bytes with slashes. A path is walked by its components; one that ends in a slash has an
empty last component, which stands for the directory reached so far.
-/
namespace JobShell.Path

def maxBytes : Nat := 4095

def maxComponentBytes : Nat := 255

def isAbsolute (path : Bytes) : Bool := path.head? = some Bytes.slash

/-- The pieces between the slashes of a path. -/
def pieces (path : Bytes) : List Bytes := path.splitOnP (· = Bytes.slash)

/-- The components of a path: empty ones are left out, but for one at the end of a longer path. -/
def components (path : Bytes) : List Bytes :=
  let names := (pieces path).filter (!·.isEmpty)
  let closed := !names.isEmpty && ((pieces path).getLastD []).isEmpty
  names ++ (if closed then [[]] else [])

/-- The absolute path that some names make up. -/
def absolute (names : List Bytes) : Bytes :=
  if names.isEmpty then [Bytes.slash] else names.flatMap (Bytes.slash :: ·)

/-- A relative path seen from a directory. -/
def join (directory path : String) : String :=
  if isAbsolute (Bytes.ofString path) || directory.isEmpty then path
  else if directory.toList.getLast? = some '/' then directory ++ path
  else directory ++ "/" ++ path

/-- The components by which two spellings of a path are compared: single dots count only at the
beginning of a relative path. -/
def normalParts (path : Bytes) : List Bytes :=
  let dot := Bytes.ofString "."
  let parts := (pieces path).filter (!·.isEmpty)
  if isAbsolute path then parts.filter (· ≠ dot)
  else match parts with
    | [] => []
    | p :: r => p :: r.filter (· ≠ dot)

example : components (Bytes.ofString "a//b/") = ["a", "b", ""].map Bytes.ofString := by decide
example : components (Bytes.ofString "/") = [] ∧ components [] = [] := by decide

end JobShell.Path
