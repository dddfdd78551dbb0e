import JobShell.Store.Table
import JobShell.Text.Number

/-!
Variables: named values with an export mark, beside the special parameters that follow from the
state of the session.
-/
namespace JobShell

/-- What the expansion of references needs to know about a collection of values. -/
class Bindings (σ : Type) where
  get? : σ → String → Option String
  set : σ → String → String → σ

instance : Bindings (Table String String) where
  get? := Table.get?
  set := Table.insert

structure Variable where
  value : String
  exported : Bool
  deriving DecidableEq, Repr

structure Variables where
  named : Table String Variable
  /-- The status of what ran last. -/
  status : Int
  /-- The number of the session's own process. -/
  self : Int
  /-- The number of the process that was last put into the background. -/
  background : Option Int
  program : String
  arguments : List String
  deriving DecidableEq, Repr

namespace Variables

def initial (self : Int) : Variables where
  named := .empty
  status := 0
  self := self
  background := none
  program := "jobsh"
  arguments := []

/-- The parameter at an index, of which the one at 0 is the name of the program. -/
def argument (v : Variables) : Nat → String
  | 0 => v.program
  | i + 1 => v.arguments.getD i ""

/-- The value of a special parameter. Every name that reads as a number is one. -/
def special? (v : Variables) (name : String) : Option String :=
  match name with
  | "?" => some (toString v.status)
  | "$" => some (toString v.self)
  | "!" => some ((v.background.map toString).getD "")
  | "#" => some (toString v.arguments.length)
  | "@" | "*" => some (" ".intercalate v.arguments)
  | _ => (Text.readIndex? name).map v.argument

def get? (v : Variables) (name : String) : Option String :=
  (v.special? name).or ((v.named.get? name).map Variable.value)

def isExported (v : Variables) (name : String) : Bool :=
  ((v.named.get? name).map Variable.exported).getD false

/-- Sets a value and keeps the export mark. -/
def set (v : Variables) (name value : String) : Variables :=
  { v with named := v.named.insert name ⟨value, v.isExported name⟩ }

def setExported (v : Variables) (name value : String) : Variables :=
  { v with named := v.named.insert name ⟨value, true⟩ }

/-- Marks a variable for export; one that is not there yet comes to be, with no value. -/
def markExported (v : Variables) (name : String) : Variables :=
  v.setExported name (((v.named.get? name).map Variable.value).getD "")

def unset (v : Variables) (name : String) : Variables :=
  { v with named := v.named.erase name }

/-- Replaces the parameters, the name of the program among them; of none at all, that name stays. -/
def setArguments (v : Variables) : List String → Variables
  | [] => { v with arguments := [] }
  | program :: arguments => { v with program, arguments }

/-- A table of exported variables. -/
def ofEnvironment (self : Int) (environment : List (String × String)) : Variables :=
  environment.foldl (fun v p => v.setExported p.1 p.2) (initial self)

/-- All named variables, in the order of their names. -/
def list (v : Variables) : List (String × Variable) := v.named.entries

/-- What child processes see: the exported variables, in the order of their names. -/
def environment (v : Variables) : List (String × String) :=
  (v.list.filter (·.2.exported)).map fun p => (p.1, p.2.value)

instance : Bindings Variables where
  get? := get?
  set := set

end Variables
end JobShell
