import JobShell.Config.Basic
import JobShell.Toml.Printer

/-!
Configurations in documents. A document can give a configuration of its own, or an overlay that
changes another one: its settings replace those underneath, and its aliases are added, after some
have been removed or all of them.
-/
namespace JobShell

/-- Settings of which some may be left open. -/
structure Settings.Patch where
  maxTokens : Option Nat
  pipefail : Option Bool
  rcFile : Option String
  prompt : Option String
  logLevel : Option String
  deriving DecidableEq, Repr

namespace Settings.Patch

def none : Patch := ⟨.none, .none, .none, .none, .none⟩

/-- Fills in what is open from other settings. -/
def apply (p : Patch) (s : Settings) : Settings where
  maxTokens := p.maxTokens.getD s.maxTokens
  pipefail := p.pipefail.getD s.pipefail
  rcFile := p.rcFile.getD s.rcFile
  prompt := p.prompt.getD s.prompt
  logLevel := p.logLevel.getD s.logLevel

/-- Reads a value that may be missing, but not be of another kind. -/
def optional {α : Type} (read : Toml.Value → Option α) : Option Toml.Value → Option (Option α)
  | .none => some .none
  | some v => (read v).map some

def read (maxTokens pipefail rcFile prompt logLevel : Option Toml.Value) : Option Patch := do
  return {
    maxTokens := ← optional Toml.Value.natural? maxTokens
    pipefail := ← optional Toml.Value.boolean? pipefail
    rcFile := ← optional Toml.Value.string? rcFile
    prompt := ← optional Toml.Value.string? prompt
    logLevel := ← optional Toml.Value.string? logLevel }

/-- How many settings there are. -/
def count : Nat := 5

/-- Settings by name, or by position in an array of at least so many. -/
def ofValue? (least : Nat) (v : Toml.Value) : Option Patch :=
  match v.entries?, v.elements? with
  | some es, _ =>
    read (es.get? "max_tokens") (es.get? "pipefail") (es.get? "rc_file") (es.get? "prompt")
      (es.get? "log_level")
  | .none, some vs => if vs.length < least then .none else read vs[0]? vs[1]? vs[2]? vs[3]? vs[4]?
  | .none, .none => .none

end Settings.Patch

namespace Config

/-- Entries all of which are strings. -/
def strings? (es : Toml.Entries) : Option (List (String × String)) :=
  es.mapM fun e => e.2.string?.map (e.1, ·)

/-- The changes that a document asks for. -/
structure Overlay where
  settings : Settings.Patch
  /-- Whether the aliases underneath are dropped. -/
  replace : Bool
  /-- The names of aliases that are dropped. -/
  remove : List String
  add : List (String × String)
  deriving DecidableEq, Repr

namespace Overlay

def apply (o : Overlay) (c : Config) : Config where
  settings := o.settings.apply c.settings
  aliases :=
    if o.replace then .ofList o.add
    else (o.remove.foldl Table.erase c.aliases).insertAll o.add

/-- The aliases of an overlay, among which two names are directives. -/
def readAliases (v : Toml.Value) : Option (Bool × List String × List (String × String)) := do
  let es ← v.entries?
  let replace ← match es.get? "replace" with
    | some v => v.boolean?
    | none => some false
  let remove ← match es.get? "remove" with
    | some v => v.elements?.bind (·.mapM Toml.Value.string?)
    | none => some []
  return (replace, remove, ← strings? (es.filter fun e => e.1 ≠ "replace" && e.1 ≠ "remove"))

def ofText? (text : String) : Option Overlay := do
  let es ← Toml.read? text
  let settings ← match es.get? "settings" with
    | some v => Settings.Patch.ofValue? Settings.Patch.count v
    | none => some .none
  let (replace, remove, add) ← match es.get? "aliases" with
    | some v => readAliases v
    | none => some (false, [], [])
  return { settings, replace, remove, add }

end Overlay

/-- The configuration that a document gives by itself. -/
def ofText? (text : String) : Option Config := do
  let es ← Toml.read? text
  let settings ← match es.get? "settings" with
    | some v => Settings.Patch.ofValue? 0 v
    | none => some .none
  let aliases ← match es.get? "aliases" with
    | some v => v.entries?.bind strings?
    | none => some []
  return { settings := settings.apply defaultSettings, aliases := .ofList aliases }

/-- A configuration as a document. -/
def toText (c : Config) : String :=
  "[settings]\n"
    ++ Toml.writeEntry "max_tokens" (toString c.settings.maxTokens)
    ++ Toml.writeEntry "pipefail" (toString c.settings.pipefail)
    ++ Toml.writeEntry "rc_file" (Toml.writeString c.settings.rcFile)
    ++ Toml.writeEntry "prompt" (Toml.writeString c.settings.prompt)
    ++ Toml.writeEntry "log_level" (Toml.writeString c.settings.logLevel)
    ++ "\n[aliases]\n"
    ++ String.join (c.aliases.entries.map fun e => Toml.writeEntry e.1 (Toml.writeString e.2))

end Config
end JobShell
