/-!
Values of a TOML document, and how its statements build them up.
-/
namespace JobShell.Toml

inductive Value where
  | string (s : String)
  | integer (n : Int)
  | float
  | boolean (b : Bool)
  /-- A date, a time or both. -/
  | moment (text : String)
  | array (elements : List Value)
  /-- A table in braces, which nothing can be added to. -/
  | inline (entries : List (String × Value))
  /-- A table under a header or along a dotted key. It is implicit as long as it has no header of
  its own. -/
  | table (implicit dotted : Bool) (entries : List (String × Value))
  /-- The tables under the headers of one array. -/
  | tables (elements : List (List (String × Value)))

abbrev Entries := List (String × Value)

namespace Entries

def get? (es : Entries) (key : String) : Option Value := (es.find? (·.1 = key)).map (·.2)

/-- Gives a key that is there another value. -/
def replace (es : Entries) (key : String) (v : Value) : Entries :=
  es.map fun e => if e.1 = key then (key, v) else e

/-- Adds a key that must not be there yet. -/
def add (es : Entries) (key : String) (v : Value) : Option Entries :=
  if (es.get? key).isSome then none else some (es ++ [(key, v)])

/-- Changes the table that a path of keys leads to; tables on the way come to be as needed. A path
of dotted keys cannot lead into a table with a header of its own, nor any path into other values.
The change is told whether it reaches a table of dotted keys. -/
def update (dotted : Bool) (change : Bool → Entries → Option Entries) (here : Bool) :
    List String → Entries → Option Entries
  | [], es => change here es
  | key :: path, es =>
    match es.get? key with
    | none =>
      (update dotted change dotted path []).map fun sub => es ++ [(key, .table true dotted sub)]
    | some (.table implicit d sub) =>
      if dotted && !implicit then none
      else (update dotted change d path sub).map fun sub => es.replace key (.table implicit d sub)
    | some (.tables elements) =>
      match elements.getLast? with
      | none => none
      | some last =>
        (update dotted change false path last).map fun last =>
          es.replace key (.tables (elements.dropLast ++ [last]))
    | some _ => none

/-- Sets a dotted key to a value. -/
def assign (es : Entries) (path : List String) (key : String) (v : Value) : Option Entries :=
  update true (fun here es => if here = path.isEmpty then none else es.add key v) false path es

end Entries

/-- A statement of a document. -/
inductive Statement where
  | assign (path : List String) (key : String) (v : Value)
  | header (path : List String) (key : String)
  | arrayHeader (path : List String) (key : String)

namespace Statement

/-- Opens a table under a header, which can be done once. -/
def openTable (key : String) (_here : Bool) (es : Entries) : Option Entries :=
  match es.get? key with
  | none => some (es ++ [(key, .table false false [])])
  | some (.table true false sub) => some (es.replace key (.table false false sub))
  | some _ => none

/-- Opens the next table of an array. -/
def openElement (key : String) (_here : Bool) (es : Entries) : Option Entries :=
  match es.get? key with
  | none => some (es ++ [(key, .tables [[]])])
  | some (.tables elements) => some (es.replace key (.tables (elements ++ [[]])))
  | some _ => none

/-- Carries out a statement on a document and on the path of the table that is open in it. -/
def apply (doc : Entries × List String) : Statement → Option (Entries × List String)
  | assign path key v =>
    (doc.1.update false (fun _ es => es.assign path key v) false doc.2).map (·, doc.2)
  | header path key =>
    (doc.1.update false (openTable key) false path).map (·, path ++ [key])
  | arrayHeader path key =>
    (doc.1.update false (openElement key) false path).map (·, path ++ [key])

end Statement

namespace Value

/-- The key under which a date is shown as a table. -/
def momentKey : String := "$__toml_private_datetime"

/-- The entries of a value that can be read as a table. A date counts as one with its text as the
only entry. -/
def entries? : Value → Option Entries
  | inline es | table _ _ es => some es
  | moment text => some [(momentKey, .string text)]
  | _ => none

/-- The elements of a value that can be read as an array. -/
def elements? : Value → Option (List Value)
  | array vs => some vs
  | tables ts => some (ts.map (.table false false))
  | _ => none

def string? : Value → Option String
  | string s => some s
  | _ => none

def boolean? : Value → Option Bool
  | boolean b => some b
  | _ => none

/-- A number that is not negative. -/
def natural? : Value → Option Nat
  | integer n => if 0 ≤ n then some n.toNat else none
  | _ => none

end Value
end JobShell.Toml
