import JobShell.Text.Quoted

/-!
Tokens: the words and operators of a command line, and how a run of them is shown again.
-/
namespace JobShell

namespace Token

inductive Kind where
  | word
  | pipe
  | semicolon
  | ampersand
  | and
  | or
  | input
  | output
  | append
  | heredoc
  | herestring
  | leftParen
  | rightParen
  | newline
  | eof
  deriving DecidableEq, Repr

namespace Kind

def all : List Kind :=
  [word, pipe, semicolon, ampersand, and, or, input, output, append, heredoc, herestring,
    leftParen, rightParen, newline, eof]

/-- Operators that join the parts of a list or the stages of a pipeline. -/
def isOperator : Kind → Bool
  | pipe | semicolon | ampersand | and | or | newline => true
  | _ => false

/-- Operators that take the next word as the name of a file. -/
def isRedirection : Kind → Bool
  | input | output | append => true
  | _ => false

/-- Operators that end one segment of a list. -/
def isSeparator : Kind → Bool
  | semicolon | ampersand | newline => true
  | _ => false

/-- Operators that make a pipeline depend on the status of the one before it. -/
def isConnector : Kind → Bool
  | and | or => true
  | _ => false

end Kind
end Token

/-- A token. The text of a word is what its quotes and escapes stand for, and `quoted` tells
whether there were any. -/
structure Token where
  kind : Token.Kind
  text : String
  quoted : Bool
  deriving DecidableEq, Repr

namespace Token

def operator (kind : Kind) (text : String) : Token := ⟨kind, text, false⟩

def eof : Token := operator .eof ""

/-- A token as it is shown in a listing: words quoted, operators as they are spelled. -/
def display (t : Token) : String :=
  if t.kind = .word then Text.quote t.text else t.text

/-- A run of tokens as it is shown in a listing. -/
def render (ts : List Token) : String :=
  " ".intercalate ((ts.filter (·.kind ≠ .eof)).map display)

/-- The tokens of a stream apart from its end marks. -/
def withoutEnds (ts : List Token) : List Token := ts.filter (·.kind ≠ .eof)

end Token
end JobShell
