import JobShell.Host.Signal
import JobShell.Text.Bytes

/-!
Programs: what a file that can be executed does. A program reads all of its standard input, then
writes, removes files, and goes on in one of a few ways.
-/
namespace JobShell

/-- What a program is started with. -/
structure Invocation where
  argv : List String
  environment : List (String × String)
  input : Bytes

inductive Channel where
  | output
  | error
  deriving DecidableEq, Repr

/-- How a program goes on once it has done its work. -/
inductive Sequel where
  | exits (status : Nat)
  | dies (signal : Signal)
  /-- It dies of a signal that has no name. -/
  | perishes (number : Nat)
  /-- It stops itself, and exits once it is resumed. -/
  | stops (status : Nat)
  /-- It waits for a signal that ends it. -/
  | waits
  /-- It sends a signal to its parent, then waits. -/
  | pokes (signal : Signal)
  deriving DecidableEq, Repr

structure Behaviour where
  writes : List (Channel × Bytes)
  removes : List String
  sequel : Sequel
  deriving DecidableEq, Repr

abbrev Program := Invocation → Behaviour

namespace Behaviour

def succeed : Behaviour := ⟨[], [], .exits 0⟩

def print (b : Bytes) : Behaviour := ⟨[(.output, b)], [], .exits 0⟩

def warn (b : Bytes) : Behaviour := ⟨[(.error, b)], [], .exits 0⟩

def goOn (s : Sequel) : Behaviour := ⟨[], [], s⟩

end Behaviour
end JobShell
