import JobShell.Toml.Reader

/-!
Writing TOML: the plainest spelling that a string or a key allows.
-/
namespace JobShell.Toml

/-- The spellings of strings. -/
inductive Style where
  | basic
  | literal
  | longBasic
  | longLiteral
  deriving DecidableEq, Repr

def isControl (c : Char) : Bool := !isPrintable c && c ≠ '\n'

/-- Whether a character stands three times in a row somewhere. -/
def hasTriple (q : Char) : List Char → Bool
  | a :: b :: c :: r => (a = q && b = q && c = q) || hasTriple q (b :: c :: r)
  | _ => false

/-- The spelling of a string: in double quotes if nothing needs an escape, else in single quotes,
else in one of the long forms; if none of these will do, with escapes. -/
def Style.of (cs : List Char) : Style :=
  let control := cs.any isControl
  let broken := cs.contains '\n'
  let double := cs.contains '"'
  let backslash := cs.contains '\\'
  let single := cs.contains '\''
  if !control && !broken && !double && !backslash then .basic
  else if !control && !broken && !single then .literal
  else if !control && !backslash && !hasTriple '"' cs then .longBasic
  else if !control && !hasTriple '\'' cs then .longLiteral
  else if broken then .longBasic
  else .basic

def hexChar (n : Nat) : Char := "0123456789ABCDEF".toList.getD n '0'

/-- The escape for a character in double quotes, if it needs one. -/
def escape? : Char → Option (List Char)
  | '\x08' => some ['\\', 'b']
  | '\t' => some ['\\', 't']
  | '\n' => some ['\\', 'n']
  | '\x0c' => some ['\\', 'f']
  | '\r' => some ['\\', 'r']
  | '\\' => some ['\\', '\\']
  | c =>
    if isControl c then some ['\\', 'u', '0', '0', hexChar (c.toNat / 16), hexChar (c.toNat % 16)]
    else none

/-- Writes characters between double quotes, with the number of quotes just before them. Of these, a
long form may have two in a row. -/
def writeBasic (long : Bool) : Nat → List Char → List Char
  | _, [] => []
  | quotes, c :: r =>
    let room := if long then 2 else 0
    if c = '"' then
      if quotes < room then '"' :: writeBasic long (quotes + 1) r
      else '\\' :: '"' :: writeBasic long 0 r
    else if c = '\n' && long then '\n' :: writeBasic long 0 r
    else (escape? c).getD [c] ++ writeBasic long 0 r

/-- A string as it is written. A long form with several lines begins on a line of its own. -/
def writeString (s : String) : String :=
  let cs := s.toList
  let lead := if cs.contains '\n' then "\n" else ""
  match Style.of cs with
  | .basic => "\"" ++ String.ofList (writeBasic false 0 cs) ++ "\""
  | .literal => "'" ++ s ++ "'"
  | .longBasic => "\"\"\"" ++ lead ++ String.ofList (writeBasic true 0 cs) ++ "\"\"\""
  | .longLiteral => "'''" ++ lead ++ s ++ "'''"

/-- A key as it is written: bare if it can be, else on one line in quotes. -/
def writeKey (s : String) : String :=
  let cs := s.toList
  if !cs.isEmpty && cs.all isBareKeyChar then s
  else match Style.of cs with
    | .literal => "'" ++ s ++ "'"
    | _ => "\"" ++ String.ofList (writeBasic false 0 cs) ++ "\""

/-- An assignment on a line of its own. -/
def writeEntry (key value : String) : String := writeKey key ++ " = " ++ value ++ "\n"

example : writeString "a" = "\"a\"" ∧ writeString "\"a\"" = "'\"a\"'" := by decide
example : writeKey "a-b" = "a-b" ∧ writeKey "a b" = "\"a b\"" := by decide

end JobShell.Toml
