import JobShell.Builtin.Escape
import JobShell.Session.Output

/-!
`echo`: prints its arguments.
-/
namespace JobShell.Echo

structure Options where
  newline : Bool
  escapes : Bool
  deriving DecidableEq, Repr

def Options.default : Options := ⟨true, false⟩

def Options.apply (o : Options) : Char → Options
  | 'n' => { o with newline := false }
  | 'e' => { o with escapes := true }
  | _ => { o with escapes := false }

/-- The letters of an argument that holds options and nothing else. -/
def flags? (arg : String) : Option (List Char) :=
  match arg.toList with
  | '-' :: c :: r => if (c :: r).all (['n', 'e', 'E'].contains ·) then some (c :: r) else none
  | _ => none

/-- Takes the leading options off the arguments. -/
def readOptions (o : Options) : List String → Options × List String
  | [] => (o, [])
  | arg :: rest =>
    match flags? arg with
    | some flags => readOptions (flags.foldl Options.apply o) rest
    | none => (o, arg :: rest)

/-- The arguments with spaces between them, up to an escape that stops the output; tells whether
there was one. -/
def body (escapes : Bool) : List String → Bytes × Bool
  | [] => ([], false)
  | arg :: rest =>
    let raw := Bytes.ofString arg
    let (b, stop) := if escapes then Escape.decode raw else (raw, false)
    if stop then (b, true)
    else if rest.isEmpty then (b, false)
    else
      let (more, stop) := body escapes rest
      (b ++ Bytes.ofString " " ++ more, stop)

/-- All that is printed for some arguments. -/
def text (args : List String) : Bytes :=
  let (o, args) := readOptions .default args
  let (b, stop) := body o.escapes args
  if o.newline && !stop then b ++ [Bytes.newline] else b

open SessionM

def run (argv : List String) : SessionM Int := do
  match ← print (text argv.tail) with
  | .ok () => return 0
  | .error e => fail "echo" e.fileText 1

end JobShell.Echo
