import JobShell.Host.Program

/-!
A box of small programs behind one executable, told apart by the name they are called under.
-/
namespace JobShell.Toolbox

/-- A number argument; what does not read as one is 0. -/
def number (args : List String) : Int := (args.head?.bind Text.readShort?).getD 0

/-- The status a process can report: the lowest eight bits. -/
def lowByte (n : Int) : Nat := (n % 256).toNat

def line (s : String) : Bytes := Bytes.ofString (s ++ "\n")

/-- The numbers of signals go up to here; those beyond the last one that has a name end a
process. -/
def maxSignal : Int := 64

/-- Ends by a signal as far as it ends a process. -/
def raise (n : Int) : Sequel :=
  match Signal.ofNumber? n with
  | none => if 31 < n && n ≤ maxSignal then .perishes n.toNat else .exits 0
  | some s =>
    match s.effect with
    | .ends => .dies s
    | .stops => .stops 0
    | .resumes | .nothing => .exits 0

/-- The environment, one line for a variable, in the order of the bytes of the lines. -/
def environmentLines (environment : List (String × String)) : Bytes :=
  let lines := environment.map fun p => line (p.1 ++ "=" ++ p.2)
  (lines.mergeSort fun a b => !(b < a : Bool)).flatten

/-- The programs of the box. -/
def programs : List (String × Program) :=
  [("args", fun i => .print (i.argv.tail.flatMap fun a => line ("<" ++ a ++ ">"))),
    ("cat", fun i => .print i.input),
    ("upper", fun i => .print i.input.toUpper),
    ("count", fun i => .print (line (toString i.input.length))),
    ("envs", fun i => .print (environmentLines i.environment)),
    ("warn", fun i => .warn (line (" ".intercalate i.argv.tail))),
    ("exitwith", fun i => .goOn (.exits (lowByte (number i.argv.tail)))),
    ("rm", fun i => { Behaviour.succeed with removes := i.argv.tail }),
    ("die", fun i => .goOn (raise (number i.argv.tail))),
    ("stopself", fun i => .goOn (.stops (lowByte (number i.argv.tail)))),
    ("poke", fun i =>
      match Signal.ofNumber? (number i.argv.tail) with
      | some s => .goOn (.pokes s)
      | none => .goOn .waits),
    ("hold", fun _ => .goOn .waits)]

/-- The part of a path behind its last slash. -/
def baseName (path : String) : String :=
  String.ofList (path.toList.reverse.takeWhile (· ≠ '/')).reverse

/-- The executable behind all names. -/
def program : Program := fun i =>
  match programs.find? (·.1 = baseName (i.argv.headD "")) with
  | some p => p.2 i
  | none => .succeed

end JobShell.Toolbox
