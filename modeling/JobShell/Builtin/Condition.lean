import JobShell.Command.Image
import JobShell.Text.Blank
import JobShell.Text.Number

/-!
Conditions: the expressions of `test`, on texts, numbers and files.
-/
namespace JobShell.Condition

inductive Fault where
  | noUnary (operator : String)
  | noBinary (operator : String)
  | noInteger (operand : String)
  | tooMany (first : String)
  deriving DecidableEq, Repr

def Fault.message : Fault → String
  | noUnary operator => operator ++ ": unary operator expected"
  | noBinary operator => operator ++ ": binary operator expected"
  | noInteger operand => operand ++ ": integer expression expected"
  | tooMany first => first ++ ": too many arguments"

/-- The node that a path leads to. -/
def node? (t : FileTree) (followLast : Bool) (dir : NodeId) (path : String) : Option Node :=
  match t.lookup followLast dir path with
  | .ok id => t.get? id
  | .error _ => none

def isPlain : Node → Bool
  | .file .. | .program _ => true
  | _ => false

def isDirectory : Node → Bool
  | .directory .. => true
  | _ => false

def isFifo : Node → Bool
  | .fifo => true
  | _ => false

def isLink : Node → Bool
  | .link _ => true
  | _ => false

/-- Whether a file has a size other than 0. Directories do. -/
def hasSize : Node → Bool
  | .file content _ => !content.isEmpty
  | .directory .. | .program _ => true
  | _ => false

/-- Whether a file may be executed, or a directory entered. -/
def isExecutable : Node → Bool
  | .file _ executable => executable
  | .directory .. | .program _ => true
  | _ => false

/-- Tests of one operand. Every file that is there may be read and written. -/
def unary (t : FileTree) (dir : NodeId) (operator operand : String) : Except Fault Bool :=
  let target := node? t true dir operand
  match operator with
  | "-z" => .ok operand.isEmpty
  | "-n" => .ok !operand.isEmpty
  | "-e" | "-r" | "-w" => .ok target.isSome
  | "-f" => .ok (target.any isPlain)
  | "-d" => .ok (target.any isDirectory)
  | "-p" => .ok (target.any isFifo)
  | "-s" => .ok (target.any hasSize)
  | "-L" | "-h" => .ok ((node? t false dir operand).any isLink)
  | "-x" => .ok (target.any isExecutable)
  | _ => .error (.noUnary operator)

/-- An operand as a number, with or without blanks around it. -/
def integer (s : String) : Except Fault Int :=
  match Text.readLong? (String.ofList (Text.trim s.toList)) with
  | some n => .ok n
  | none => .error (.noInteger s)

/-- The comparison of numbers that an operator stands for. -/
def comparison? : String → Option (Int → Int → Bool)
  | "-eq" => some fun a b => a = b
  | "-ne" => some fun a b => a ≠ b
  | "-lt" => some fun a b => a < b
  | "-le" => some fun a b => a ≤ b
  | "-gt" => some fun a b => b < a
  | "-ge" => some fun a b => b ≤ a
  | _ => none

/-- Tests of two operands, of which a fault of the left one comes first. -/
def binary (left operator right : String) : Except Fault Bool :=
  match operator with
  | "=" | "==" => .ok (left = right)
  | "!=" => .ok (left ≠ right)
  | _ =>
    match comparison? operator with
    | none => .error (.noBinary operator)
    | some compare => do return compare (← integer left) (← integer right)

/-- The value of an expression. -/
def evaluate (t : FileTree) (dir : NodeId) : List String → Except Fault Bool
  | [] => .ok false
  | [word] => .ok !word.isEmpty
  | first :: second :: rest =>
    if first = "!" then (evaluate t dir (second :: rest)).map (!·)
    else match rest with
      | [] => unary t dir first second
      | [third] => binary first second third
      | _ => .error (.tooMany first)

end JobShell.Condition
