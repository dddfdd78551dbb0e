/-!
Reading decimal numbers: an optional sign, then ASCII digits only, and a value inside the bounds
of the kind of number asked for.
-/
namespace JobShell.Text

def digitValue (c : Char) : Nat := c.toNat - '0'.toNat

/-- The value of a non-empty run of ASCII digits. -/
def readDigits? (cs : List Char) : Option Nat :=
  if cs.isEmpty || !cs.all Char.isDigit then none
  else some (cs.foldl (fun n c => 10 * n + digitValue c) 0)

/-- A natural number of at most `bound`, with or without a plus sign. -/
def readNat? (bound : Nat) (s : String) : Option Nat :=
  let digits := match s.toList with
    | '+' :: r => r
    | cs => cs
  (readDigits? digits).filter (· ≤ bound)

/-- An integer between `low` and `high`, with or without a sign. -/
def readInt? (low high : Int) (s : String) : Option Int :=
  let value := match s.toList with
    | '-' :: r => (readDigits? r).map fun n => -(n : Int)
    | '+' :: r => (readDigits? r).map fun n => (n : Int)
    | cs => (readDigits? cs).map fun n => (n : Int)
  value.filter fun n => low ≤ n && n ≤ high

/-- Indices and job numbers have 64 bits. -/
def readIndex? : String → Option Nat := readNat? 0xffffffffffffffff

/-- Process and signal numbers have 32 bits. -/
def readShort? : String → Option Int := readInt? (-0x80000000) 0x7fffffff

/-- Operands of comparisons and exit statuses have 64 bits. -/
def readLong? : String → Option Int := readInt? (-0x8000000000000000) 0x7fffffffffffffff

example : readIndex? "+7" = some 7 ∧ readIndex? "-7" = none ∧ readIndex? "" = none := by decide
example : readLong? "9223372036854775808" = none ∧ readLong? "-9223372036854775808" ≠ none := by
  decide

end JobShell.Text
