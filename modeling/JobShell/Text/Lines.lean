/-!
Cutting a text into lines.
-/
namespace JobShell.Text

/-- Cuts at every occurrence of a separator. -/
def splitAt (p : Char → Bool) : List Char → List (List Char)
  | [] => [[]]
  | c :: r =>
    if p c then [] :: splitAt p r
    else match splitAt p r with
      | [] => [[c]]
      | l :: ls => (c :: l) :: ls

def dropCarriage (l : List Char) : List Char :=
  match l.reverse with
  | '\r' :: r => r.reverse
  | _ => l

/-- The lines of a text: a line feed ends a line, together with a carriage return before it. An
unended last line keeps its carriage return, and there is none after a final line feed. -/
def lines (cs : List Char) : List (List Char) :=
  let parts := splitAt (· = '\n') cs
  let last := parts.getLastD []
  parts.dropLast.map dropCarriage ++ (if last.isEmpty then [] else [last])

example : lines "a\r\n\nb\r".toList = ["a".toList, [], "b\r".toList] := by decide

end JobShell.Text
