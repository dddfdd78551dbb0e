import JobShell.Store.Table
import JobShell.Text.Blank

/-!
Aliases: the leading word of a line gives way to the text it stands for, once.
-/
namespace JobShell

abbrev Aliases := Table String String

namespace Aliases

/-- Puts the value of an alias in place of the leading word of a line. -/
def expand (aliases : Aliases) (line : String) : String :=
  let cs := line.toList
  let lead := cs.takeWhile Text.isBlank
  let word := (Text.trimStart cs).takeWhile fun c => !Text.isBlank c
  let rest := (Text.trimStart cs).dropWhile fun c => !Text.isBlank c
  if word.isEmpty then line
  else match aliases.get? (String.ofList word) with
    | some value => String.ofList (lead ++ value.toList ++ rest)
    | none => line

end Aliases
end JobShell
