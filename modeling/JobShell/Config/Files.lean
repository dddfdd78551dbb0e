import JobShell.Config.Overlay
import JobShell.Expansion.FileName

/-!
The files of a configuration: the overlay in the home directory, the file to run first, and the log.
-/
namespace JobShell

/-- How much goes to the log. -/
inductive LogLevel where
  | off
  | error
  | warn
  | info
  | debug
  | trace
  deriving DecidableEq, Repr

namespace LogLevel

def all : List LogLevel := [off, error, warn, info, debug, trace]

def name : LogLevel → String
  | off => "OFF"
  | error => "ERROR"
  | warn => "WARN"
  | info => "INFO"
  | debug => "DEBUG"
  | trace => "TRACE"

/-- Whether warnings go to the log. -/
def warns : LogLevel → Bool
  | off | error => false
  | warn | info | debug | trace => true

/-- The level of a name in letters of either case. -/
def ofName? (s : String) : Option LogLevel :=
  all.find? fun l => l.name.toList = s.toList.map Char.toUpper

end LogLevel

/-- The home directory that an environment names. -/
def homeIn? (environment : List (String × String)) : Option String :=
  (environment.find? (·.1 = "HOME")).map (·.2)

namespace Config

/-- The file that is run first. -/
def rcPath (c : Config) (here : Surroundings) : String := here.expandTilde c.settings.rcFile

def logLevel (c : Config) : LogLevel := (LogLevel.ofName? c.settings.logLevel).getD .warn

/-- The file with the overlay. -/
def overlayPath (home : String) : String := Path.join home ".config/jobsh/config.toml"

/-- The default configuration with the overlay of the home directory, and whether there is one that
is refused, given how overlays are read. -/
def loadWith (read : String → Option Overlay) (tree : FileTree) (dir : NodeId)
    (environment : List (String × String)) : Config × Bool :=
  let text := (homeIn? environment).bind fun home =>
    (tree.readText dir (overlayPath home)).toOption
  match text.map read with
  | none => (default, false)
  | some none => (default, true)
  | some (some overlay) => (overlay.apply default, false)

def load (tree : FileTree) (dir : NodeId) (environment : List (String × String)) : Config × Bool :=
  loadWith Overlay.ofText? tree dir environment

/-- The file that the overlay is read from without an end, if there is one. -/
def endlessOverlay? (tree : FileTree) (dir : NodeId) (environment : List (String × String)) :
    Option NodeId :=
  (homeIn? environment).bind fun home =>
    match tree.readText dir (overlayPath home) with
    | .endless file => some file
    | _ => none

end Config

namespace LogFile

def directory? (environment : List (String × String)) : Option String :=
  (homeIn? environment).map (Path.join · ".local/share/jobsh")

def path? (environment : List (String × String)) : Option String :=
  (directory? environment).map (Path.join · "jobsh.log")

/-- Makes the log and its directory, if anything is to be logged and if that is possible. The log can
be written to just if there is a node for it. -/
def make (level : LogLevel) (environment : List (String × String)) (dir : NodeId)
    (tree : FileTree) : Option NodeId × FileTree :=
  match directory? environment, path? environment with
  | some directory, some path =>
    if level = .off then (none, tree)
    else
      let tree := (tree.makePath dir directory).2
      match tree.openForWriting dir path with
      | .ok (node, tree) => (some node, tree)
      | .error _ => (none, tree)
  | _, _ => (none, tree)

end LogFile
end JobShell
