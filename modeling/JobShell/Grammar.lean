import JobShell.Token.Basic

/-!
The grammar of a command line, checked before anything runs.

    line      ::= (list separator)* list?
    list      ::= pipeline (("&&" | "||") pipeline)*
    pipeline  ::= command ("|" command)*
    command   ::= word (word | redirection word)*

A check needs to remember only what may come next.
-/
namespace JobShell.Grammar

/-- Why a line is refused. -/
inductive Fault where
  /-- A token that cannot stand where it does, by the text under which it is shown. -/
  | unexpected (shown : String)
  | unexpectedEnd
  | unsupportedRedirection (operator : String)
  | unsupportedGrouping (operator : String)
  deriving DecidableEq, Repr

namespace Fault

def message : Fault → String
  | unexpected shown => "syntax error near unexpected token `" ++ shown ++ "'"
  | unexpectedEnd => "syntax error: unexpected end of input"
  | unsupportedRedirection operator =>
    "syntax error: `" ++ operator ++ "' redirection is not supported"
  | unsupportedGrouping operator =>
    "syntax error: subshell grouping `" ++ operator ++ "' is not supported"

end Fault

/-- The answer of the check. -/
inductive Verdict where
  | accepted
  | refused (fault : Fault)
  | tooManyTokens
  deriving DecidableEq, Repr

/-- What may come next. -/
inductive Expect where
  /-- A command, or the end of the line. -/
  | list
  /-- A word: the first of a command or the file of a redirection. -/
  | word
  /-- More of a command, or what ends it. -/
  | more
  deriving DecidableEq, Repr

/-- A line feed is shown by name. -/
def shown (t : Token) : String := if t.kind = .newline then "newline" else t.text

/-- Goes through the tokens up to the first end mark. -/
def check : Expect → List Token → Except Fault Unit
  | .word, [] => .error .unexpectedEnd
  | .list, [] | .more, [] => .ok ()
  | .list, t :: ts =>
    match t.kind with
    | .eof => .ok ()
    | .word => check .more ts
    | _ => .error (.unexpected (shown t))
  | .word, t :: ts =>
    match t.kind with
    | .eof => .error .unexpectedEnd
    | .word => check .more ts
    | _ => .error (.unexpected (shown t))
  | .more, t :: ts =>
    match t.kind with
    | .eof => .ok ()
    | .word => check .more ts
    | .input | .output | .append | .pipe | .and | .or => check .word ts
    | .semicolon | .ampersand | .newline => check .list ts
    | .heredoc | .herestring => .error (.unsupportedRedirection t.text)
    | .leftParen | .rightParen => .error (.unsupportedGrouping t.text)

/-- Checks a token stream against the grammar and against a limit on its length. -/
def validate (limit : Nat) (ts : List Token) : Verdict :=
  if limit ≤ ts.length then .tooManyTokens
  else match check .list ts with
    | .ok () => .accepted
    | .error fault => .refused fault

end JobShell.Grammar
