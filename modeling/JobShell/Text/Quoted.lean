/-!
Quoting a word so that a command line reads it back. A word is cut greedily into chunks, and a
chunk is written bare, in single quotes or in double quotes, the first of these that can hold it.
-/
namespace JobShell.Text

/-- Where a character of a line stands with respect to the quotes before it. -/
inductive Place where
  | bare
  | single
  | double
  deriving DecidableEq, Repr

/-- The ways in which a chunk may still be written. -/
structure Styles where
  bare : Bool
  single : Bool
  double : Bool
  deriving DecidableEq, Repr

namespace Styles

/-- The characters other than letters and digits that a bare chunk may hold. -/
def bareChars : List Char := "+-./:@]_".toList

/-- The characters that single quotes cannot hold. -/
def notSingle : List Char := ['\'', '^', '\\']

/-- The characters that double quotes cannot hold. -/
def notDouble : List Char := ['\x60', '$', '!', '^']

def any : Styles := ⟨true, true, true⟩

def isNone (s : Styles) : Bool := !(s.bare || s.single || s.double)

/-- What remains once the chunk holds `c` too. -/
def allow (s : Styles) (c : Char) : Styles where
  bare := s.bare && (c.isAlphanum || bareChars.contains c)
  single := s.single && !notSingle.contains c
  double := s.double && !notDouble.contains c

/-- What a chunk that begins with `c` allows. A circumflex can only begin a chunk. -/
def start (c : Char) : Styles := if c = '^' then ⟨false, true, false⟩ else any.allow c

end Styles

def escapeDouble (cs : List Char) : List Char :=
  cs.flatMap fun c => if c = '"' || c = '\\' then ['\\', c] else [c]

/-- Writes a chunk in the first style left to it. -/
def writeChunk (s : Styles) (cs : List Char) : List Char :=
  if s.bare then cs
  else if s.single then '\'' :: cs ++ ['\'']
  else '"' :: escapeDouble cs ++ ['"']

/-- Continues a chunk, given in reverse, over the characters that follow. -/
def quoteChunks (s : Styles) (chunk : List Char) : List Char → List Char
  | [] => writeChunk s chunk.reverse
  | c :: r =>
    if (s.allow c).isNone then writeChunk s chunk.reverse ++ quoteChunks (.start c) [c] r
    else quoteChunks (s.allow c) (c :: chunk) r

def quoteChars : List Char → List Char
  | [] => ['\'', '\'']
  | c :: r => quoteChunks (.start c) [c] r

/-- The quoted form of a word; there is none when the word holds a null character. -/
def quote? (s : String) : Option String :=
  if s.toList.contains '\x00' then none else some (String.ofList (quoteChars s.toList))

/-- The quoted form of a word, or the word itself where it has none. -/
def quote (s : String) : String := (quote? s).getD s

/-- Words quoted and set apart by spaces; as they stand if one of them has no quoted form. -/
def quoteWords (ws : List String) : String :=
  " ".intercalate ((ws.mapM quote?).getD ws)

example : quote "a b" = "'a b'" ∧ quote "" = "''" ∧ quote "it's" = "\"it's\"" := by decide
example : quote "a^b" = "a'^b'" ∧ quote "'$" = "\"'\"'$'" := by decide

end JobShell.Text
