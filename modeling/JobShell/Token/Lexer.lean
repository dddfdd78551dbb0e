import JobShell.Error
import JobShell.Text.Blank
import JobShell.Token.Basic

/-!
Cutting a line into tokens. Blanks and comments set tokens apart, the longest operator wins, and
the parts of a word may be quoted each in its own way. A line yields one token less than the limit
at most, and an end mark.
-/
namespace JobShell.Token

/-- The number of UTF-8 bytes that a word may have. -/
def maxWordBytes : Nat := 4096

def isOperatorChar (c : Char) : Bool := ['|', '&', ';', '<', '>', '(', ')'].contains c

/-- Drops blanks and comments, but no line feed. -/
def skip (comment : Bool) : List Char → List Char
  | [] => []
  | c :: r =>
    if c = '\n' then c :: r
    else if comment || Text.isBlank c then skip comment r
    else if c = '#' then skip true r
    else c :: r

/-- The operator at the head of a line, and what follows it. -/
def operator? : List Char → Option (Token × List Char)
  | '\n' :: r => some (operator .newline "\n", r)
  | '<' :: '<' :: '<' :: r => some (operator .herestring "<<<", r)
  | '<' :: '<' :: r => some (operator .heredoc "<<", r)
  | '<' :: r => some (operator .input "<", r)
  | '>' :: '>' :: r => some (operator .append ">>", r)
  | '>' :: r => some (operator .output ">", r)
  | '&' :: '&' :: r => some (operator .and "&&", r)
  | '&' :: r => some (operator .ampersand "&", r)
  | '|' :: '|' :: r => some (operator .or "||", r)
  | '|' :: r => some (operator .pipe "|", r)
  | ';' :: r => some (operator .semicolon ";", r)
  | '(' :: r => some (operator .leftParen "(", r)
  | ')' :: r => some (operator .rightParen ")", r)
  | _ => none

/-- A word while it is being read: its characters, the last one first, and their size. -/
structure Draft where
  chars : List Char
  bytes : Nat
  quoted : Bool

namespace Draft

def empty : Draft := ⟨[], 0, false⟩

def push (d : Draft) (c : Char) : Draft :=
  { d with chars := c :: d.chars, bytes := d.bytes + c.utf8Size }

def markQuoted (d : Draft) : Draft := { d with quoted := true }

def toToken (d : Draft) : Token := ⟨.word, String.ofList d.chars.reverse, d.quoted⟩

/-- What a backslash and a character stand for inside double quotes. -/
def pushEscape (d : Draft) (c : Char) : Draft :=
  match c with
  | 'n' => d.push '\n'
  | 't' => d.push '\t'
  | 'r' => d.push '\r'
  | '\\' | '"' | '$' | '\x60' => d.push c
  | _ => (d.push '\\').push c

end Draft

/-- Reads on in a word up to its end. Its size is checked whenever a part of it is complete. -/
def scanWord (d : Draft) : Text.Place → List Char → Except ShellError (Token × List Char)
  | .bare, [] => .ok (d.toToken, [])
  | .bare, c :: r =>
    if Text.isBlank c || isOperatorChar c then .ok (d.toToken, c :: r)
    else if c = '\'' then scanWord d.markQuoted .single r
    else if c = '"' then scanWord d.markQuoted .double r
    else if c = '\\' then
      match r with
      | [] => complete (d.push c) fun d => .ok (d.toToken, [])
      | e :: r => complete (d.markQuoted.push e) fun d => scanWord d .bare r
    else complete (d.push c) fun d => scanWord d .bare r
  | .single, [] => .error (.unterminatedQuote '\'')
  | .single, c :: r =>
    if c = '\'' then complete d fun d => scanWord d .bare r else scanWord (d.push c) .single r
  | .double, [] => .error (.unterminatedQuote '"')
  | .double, c :: r =>
    if c = '"' then complete d fun d => scanWord d .bare r
    else if c = '\\' then
      match r with
      | [] => .error (.unterminatedQuote '"')
      | e :: r => scanWord (d.pushEscape e) .double r
    else scanWord (d.push c) .double r
where
  complete (d : Draft) (next : Draft → Except ShellError (Token × List Char)) :
      Except ShellError (Token × List Char) :=
    if d.bytes > maxWordBytes then .error (.wordTooLong maxWordBytes) else next d

/-- The first token of a line and what follows it, if the line holds one. -/
def next? (cs : List Char) : Except ShellError (Option (Token × List Char)) :=
  match skip false cs with
  | [] => .ok none
  | c :: r =>
    match operator? (c :: r) with
    | some found => .ok (some found)
    | none => (scanWord .empty .bare (c :: r)).map some

/-- The tokens of a line, `budget` of them at most, and an end mark. -/
def scan : Nat → List Char → Except ShellError (List Token)
  | 0, _ => .ok [eof]
  | budget + 1, cs =>
    match next? cs with
    | .error e => .error e
    | .ok none => .ok [eof]
    | .ok (some (t, r)) => (scan budget r).map (t :: ·)

/-- The tokens of a line under a limit on their number, the end mark included. -/
def tokenize (limit : Nat) (line : String) : Except ShellError (List Token) :=
  scan (limit - 1) line.toList

end JobShell.Token
