/-!
Names of variables, and words of the form `name=value`.
-/
namespace JobShell.Text

def isNameStart (c : Char) : Bool := c.isAlpha || c = '_'

def isNameChar (c : Char) : Bool := c.isAlphanum || c = '_'

/-- A letter or an underscore, then letters, digits and underscores, all of them ASCII. -/
def isIdentifier (cs : List Char) : Bool :=
  match cs with
  | [] => false
  | c :: r => isNameStart c && r.all isNameChar

/-- Cuts a word at its first equals sign. -/
def splitEquals? (s : String) : Option (String × String) :=
  match s.toList.dropWhile (· ≠ '=') with
  | [] => none
  | _ :: value =>
    some (String.ofList (s.toList.takeWhile (· ≠ '=')), String.ofList value)

/-- The name and the value of a word that assigns to a variable. -/
def splitAssignment? (s : String) : Option (String × String) :=
  (splitEquals? s).filter fun p => isIdentifier p.1.toList

theorem isIdentifier_of_splitAssignment? {s name value : String}
    (h : splitAssignment? s = some (name, value)) : isIdentifier name.toList = true := by
  simp only [splitAssignment?, Option.filter_eq_some_iff] at h
  exact h.2

end JobShell.Text
