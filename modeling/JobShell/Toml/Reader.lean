import JobShell.Toml.Scalar

/-!
Reading TOML documents: strings, keys, nested values, and the lines with headers and assignments.
-/
namespace JobShell.Toml

/-! ### Blanks, comments and line ends -/

def isSpace (c : Char) : Bool := c = ' ' || c = '\t'

def skipSpace (cs : List Char) : List Char := cs.dropWhile isSpace

/-- Characters that may stand in comments and strings: no control characters but the tab. -/
def isPrintable (c : Char) : Bool := c = '\t' || (0x20 ≤ c.toNat && c.toNat ≠ 0x7F)

/-- What follows a line break. -/
def newline? : List Char → Option (List Char)
  | '\n' :: r => some r
  | '\r' :: '\n' :: r => some r
  | _ => none

def skipComment : List Char → List Char
  | '#' :: r => r.dropWhile isPrintable
  | cs => cs

/-- What follows the end of a line, before which there may be a comment. -/
def lineEnd? (cs : List Char) : Option (List Char) :=
  match skipComment (skipSpace cs) with
  | [] => some []
  | rest => newline? rest

/-- Skips blanks, line breaks and comments, in at most so many steps. -/
def skipLines : Nat → List Char → List Char
  | 0, cs => cs
  | steps + 1, cs =>
    let cs := skipSpace cs
    match newline? (skipComment cs) with
    | some r => skipLines steps r
    | none => cs

/-! ### Strings -/

/-- A character given by its code in hexadecimal digits. -/
def charOfHex? (digits : List Char) : Option Char :=
  if digits.all (digitIn 16) then
    let n := valueIn 16 digits
    if n.isValidChar then some (Char.ofNat n) else none
  else none

/-- What a backslash and a letter stand for. -/
def escapeLetter? : Char → Option Char
  | 'b' => some '\x08'
  | 't' => some '\t'
  | 'n' => some '\n'
  | 'f' => some '\x0c'
  | 'r' => some '\r'
  | '"' => some '"'
  | '\\' => some '\\'
  | _ => none

/-- Reads on in a string in double quotes. -/
def readBasic (acc : List Char) : List Char → Option (String × List Char)
  | '"' :: r => some (String.ofList acc.reverse, r)
  | '\\' :: 'u' :: a :: b :: c :: d :: r =>
    match charOfHex? [a, b, c, d] with
    | some x => readBasic (x :: acc) r
    | none => none
  | '\\' :: 'U' :: a :: b :: c :: d :: e :: f :: g :: h :: r =>
    match charOfHex? [a, b, c, d, e, f, g, h] with
    | some x => readBasic (x :: acc) r
    | none => none
  | '\\' :: e :: r =>
    match escapeLetter? e with
    | some x => readBasic (x :: acc) r
    | none => none
  | c :: r => if isPrintable c && c ≠ '\\' then readBasic (c :: acc) r else none
  | [] => none

/-- Reads on in a string in single quotes. -/
def readLiteral (acc : List Char) : List Char → Option (String × List Char)
  | '\'' :: r => some (String.ofList acc.reverse, r)
  | c :: r => if isPrintable c then readLiteral (c :: acc) r else none
  | [] => none

/-- Closes a long string: up to two more quotes belong to it. -/
def closeLong (quote : Char) (acc : List Char) (cs : List Char) : String × List Char :=
  let more := (cs.takeWhile (· = quote)).take 2
  (String.ofList (acc.reverse ++ more), cs.drop more.length)

/-- Whether only blanks stand before the end of a line. -/
def endsLine (cs : List Char) : Bool := (newline? (skipSpace cs)).isSome

/-- Reads on in a long string in double quotes. A backslash at the end of a line swallows all blanks
and line breaks after it. -/
def readLongBasic (swallow : Bool) (acc : List Char) : List Char → Option (String × List Char)
  | '\r' :: '\n' :: r => readLongBasic swallow (if swallow then acc else '\n' :: acc) r
  | '\n' :: r => readLongBasic swallow (if swallow then acc else '\n' :: acc) r
  | '"' :: '"' :: '"' :: r => some (closeLong '"' acc r)
  | '\\' :: 'u' :: a :: b :: c :: d :: r =>
    match charOfHex? [a, b, c, d] with
    | some x => readLongBasic false (x :: acc) r
    | none => none
  | '\\' :: 'U' :: a :: b :: c :: d :: e :: f :: g :: h :: r =>
    match charOfHex? [a, b, c, d, e, f, g, h] with
    | some x => readLongBasic false (x :: acc) r
    | none => none
  | '\\' :: e :: r =>
    if endsLine (e :: r) then readLongBasic true acc (e :: r)
    else match escapeLetter? e with
      | some x => readLongBasic false (x :: acc) r
      | none => none
  | c :: r =>
    if swallow && isSpace c then readLongBasic true acc r
    else if isPrintable c && c ≠ '\\' then readLongBasic false (c :: acc) r
    else none
  | [] => none

/-- Reads on in a long string in single quotes. -/
def readLongLiteral (acc : List Char) : List Char → Option (String × List Char)
  | '\r' :: '\n' :: r => readLongLiteral ('\n' :: acc) r
  | '\'' :: '\'' :: '\'' :: r => some (closeLong '\'' acc r)
  | c :: r => if c = '\n' || isPrintable c then readLongLiteral (c :: acc) r else none
  | [] => none

/-- Drops a line break right behind the opening quotes of a long string. -/
def dropNewline (cs : List Char) : List Char := (newline? cs).getD cs

/-! ### Keys -/

def isBareKeyChar (c : Char) : Bool := c.isAlphanum || c = '_' || c = '-'

def readSimpleKey (cs : List Char) : Option (String × List Char) :=
  match cs with
  | '"' :: r => readBasic [] r
  | '\'' :: r => readLiteral [] r
  | _ =>
    let key := cs.takeWhile isBareKeyChar
    if key.isEmpty then none else some (String.ofList key, cs.dropWhile isBareKeyChar)

/-- The deepest nesting of values and keys. -/
def maxDepth : Nat := 79

/-- Reads a key with its dots: the path and the last part, and what follows. -/
def readKey : Nat → List Char → Option (List String × String × List Char)
  | 0, _ => none
  | depth + 1, cs => do
    let (key, r) ← readSimpleKey (skipSpace cs)
    match skipSpace r with
    | '.' :: r =>
      let (path, last, r) ← readKey depth r
      return (key :: path, last, r)
    | r => return ([], key, r)

/-! ### Values -/

/-- Reads the elements of an array behind its opening bracket, in at most so many steps. -/
def readElements (value : List Char → Option (Value × List Char)) :
    Nat → List Char → Option (List Value × List Char)
  | 0, _ => none
  | steps + 1, cs =>
    match skipLines cs.length cs with
    | ']' :: r => some ([], r)
    | cs => do
      let (v, r) ← value cs
      match skipLines r.length r with
      | ']' :: r => return ([v], r)
      | ',' :: r =>
        let (vs, r) ← readElements value steps r
        return (v :: vs, r)
      | _ => none

/-- Reads the entries of a table in braces, in at most so many steps, and adds them to others. -/
def readEntries (value : List Char → Option (Value × List Char)) :
    Nat → Entries → List Char → Option (Entries × List Char)
  | 0, _, _ => none
  | steps + 1, es, cs => do
    let (path, key, r) ← readKey maxDepth cs
    let r ← expect '=' r
    let (v, r) ← value (skipSpace r)
    let es ← es.assign path key v
    match skipSpace r with
    | '}' :: r => return (es, r)
    | ',' :: r => readEntries value steps es r
    | _ => none

/-- The string at the head of a text, in whichever quotes, and what follows it. -/
def readString (cs : List Char) : Option (String × List Char) :=
  match cs with
  | '"' :: '"' :: '"' :: r => readLongBasic false [] (dropNewline r)
  | '\'' :: '\'' :: '\'' :: r => readLongLiteral [] (dropNewline r)
  | '"' :: r => readBasic [] r
  | '\'' :: r => readLiteral [] r
  | _ => none

/-- Reads a value that is nested so deep at most. -/
def readValue : Nat → List Char → Option (Value × List Char)
  | depth, cs =>
    match cs with
    | '"' :: _ | '\'' :: _ => (readString cs).map fun p => (.string p.1, p.2)
    | '[' :: r =>
      match depth with
      | 0 => none
      | depth + 1 =>
        (readElements (readValue depth) (r.length + 1) r).map fun p => (.array p.1, p.2)
    | '{' :: r =>
      match depth with
      | 0 => none
      | depth + 1 =>
        match skipSpace r with
        | '}' :: r => some (.inline [], r)
        | r => (readEntries (readValue depth) (r.length + 1) [] r).map fun p => (.inline p.1, p.2)
    | _ => readScalar cs

/-! ### Documents -/

/-- Reads the header of a table behind its opening bracket. -/
def readHeader (cs : List Char) : Option (Statement × List Char) := do
  match cs with
  | '[' :: r =>
    let (path, key, r) ← readKey maxDepth r
    let r ← expect ']' r
    let r ← expect ']' r
    return (.arrayHeader path key, ← lineEnd? r)
  | r =>
    let (path, key, r) ← readKey maxDepth r
    let r ← expect ']' r
    return (.header path key, ← lineEnd? r)

def readAssignment (cs : List Char) : Option (Statement × List Char) := do
  let (path, key, r) ← readKey maxDepth cs
  let r ← expect '=' r
  let (v, r) ← readValue maxDepth (skipSpace r)
  return (.assign path key v, ← lineEnd? r)

/-- Reads the statements of a document, in at most so many steps. -/
def readStatements : Nat → List Char → Option (List Statement)
  | 0, cs => if cs.isEmpty then some [] else none
  | steps + 1, cs =>
    match skipSpace cs with
    | [] => some []
    | '[' :: r => do
      let (s, r) ← readHeader r
      return s :: (← readStatements steps r)
    | cs =>
      match lineEnd? cs with
      | some r => readStatements steps r
      | none => do
        let (s, r) ← readAssignment cs
        return s :: (← readStatements steps r)

/-- The mark that may stand at the beginning of a text. -/
def dropByteOrderMark : List Char → List Char
  | '\uFEFF' :: r => r
  | cs => cs

/-- The entries of a document, if the text is one. -/
def read? (text : String) : Option Entries := do
  let cs := dropByteOrderMark text.toList
  let statements ← readStatements (cs.length + 1) cs
  let (es, _) ← statements.foldlM Statement.apply ([], [])
  return es

end JobShell.Toml
