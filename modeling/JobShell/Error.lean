import JobShell.Host.Errno

/-!
What can go wrong between reading a line and running it: the text shown for each cause and the
exit status that it leaves behind.
-/
namespace JobShell

inductive ShellError where
  | tooManyTokens (limit : Nat)
  | wordTooLong (limit : Nat)
  | badSyntax (text : String)
  | unterminatedQuote (quote : Char)
  | redirectionTarget (path : String) (cause : FileError)
  | emptyCommand
  | wait (cause : Errno)
  | execute (program : String) (cause : Errno)
  deriving DecidableEq, Repr

namespace ShellError

/-- Why a program could not be started. -/
def executeReason (cause : Errno) : String :=
  if cause = .noEntry then "command not found"
  else if cause = .accessDenied then "permission denied"
  else if cause = .badExecutable then "exec format error"
  else "cannot execute"

def message : ShellError → String
  | tooManyTokens limit => "too many tokens (limit is " ++ toString limit ++ ")"
  | wordTooLong limit => "token exceeds " ++ toString limit ++ " characters"
  | badSyntax text => text
  | unterminatedQuote quote =>
    "unexpected end of input while looking for matching `" ++ quote.toString ++ "'"
  | redirectionTarget path cause => path ++ ": " ++ cause.message
  | emptyCommand => "empty command in pipeline"
  | wait cause => "wait failed: " ++ cause.describe
  | execute program cause => program ++ ": " ++ executeReason cause

/-- The exit status left behind: 2 for a line that cannot be read, 127 for a program that cannot
be started, 1 otherwise. -/
def status : ShellError → Int
  | tooManyTokens _ | wordTooLong _ | badSyntax _ | unterminatedQuote _ => 2
  | execute _ _ => 127
  | _ => 1

end ShellError
end JobShell
