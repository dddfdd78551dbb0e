import JobShell.Expansion.Alias

/-!
Configuration: a few settings, and the aliases that a session starts with.
-/
namespace JobShell

structure Settings where
  /-- The number of tokens that one line may have. -/
  maxTokens : Nat
  /-- Whether a pipeline fails when one of its stages does. -/
  pipefail : Bool
  /-- The file that is read before anything else. -/
  rcFile : String
  prompt : String
  logLevel : String
  deriving DecidableEq, Repr

structure Config where
  settings : Settings
  aliases : Aliases
  deriving DecidableEq, Repr

namespace Config

def defaultSettings : Settings where
  maxTokens := 1024
  pipefail := true
  rcFile := "~/.jobshrc"
  prompt := "jobsh:\x7bcwd\x7d$ "
  logLevel := "warn"

/-- What holds unless something else is asked for. -/
def default : Config where
  settings := defaultSettings
  aliases := .ofList
    [("ll", "ls -l"), ("la", "ls -A"), ("hop", "cd"), ("reveal", "ls"), ("activities", "jobs")]

end Config
end JobShell
