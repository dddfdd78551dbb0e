import JobShell.Text.Lines
import JobShell.Text.Number
import JobShell.Toml.Value

/-!
Numbers, dates and truth values of TOML documents: what is written without quotes or brackets.
-/
namespace JobShell.Toml

/-- The digits of a number with underscores between some of them. -/
def ungroup? (isDigit : Char → Bool) (cs : List Char) : Option (List Char) :=
  let groups := Text.splitAt (· = '_') cs
  if groups.all fun g => !g.isEmpty && g.all isDigit then some groups.flatten else none

def hexDigit? (c : Char) : Option Nat :=
  if c.isDigit then some (Text.digitValue c)
  else if 'a' ≤ c ∧ c ≤ 'f' then some (c.toNat - 'a'.toNat + 10)
  else if 'A' ≤ c ∧ c ≤ 'F' then some (c.toNat - 'A'.toNat + 10)
  else none

def digitIn (base : Nat) (c : Char) : Bool := (hexDigit? c).any (· < base)

def valueIn (base : Nat) (digits : List Char) : Nat :=
  digits.foldl (fun n c => base * n + (hexDigit? c).getD 0) 0

/-- Takes a sign off a number, and tells whether it is a minus. -/
def splitSign : List Char → Bool × List Char
  | '-' :: r => (true, r)
  | '+' :: r => (false, r)
  | cs => (false, cs)

/-- The digits of a decimal number without needless zeros before it. -/
def decimal? (cs : List Char) : Option (List Char) :=
  (ungroup? Char.isDigit cs).filter fun ds => ds.length = 1 || ds.head? ≠ some '0'

def integer? (cs : List Char) : Option Int :=
  let value : Option Int := match cs with
    | '0' :: 'x' :: r => (ungroup? (digitIn 16) r).map fun ds => (valueIn 16 ds : Int)
    | '0' :: 'o' :: r => (ungroup? (digitIn 8) r).map fun ds => (valueIn 8 ds : Int)
    | '0' :: 'b' :: r => (ungroup? (digitIn 2) r).map fun ds => (valueIn 2 ds : Int)
    | _ =>
      let (minus, r) := splitSign cs
      (decimal? r).map fun ds =>
        let n : Int := valueIn 10 ds
        if minus then -n else n
  value.filter fun n => -0x8000000000000000 ≤ n && n ≤ 0x7fffffffffffffff

/-- Whether a decimal number of some digits and an exponent is too large for 64 bits of floating
point, that is, rounds to infinity. -/
def overflows (digits : List Char) (exponent : Int) : Bool :=
  let digits := digits.dropWhile (· = '0')
  let size : Int := digits.length + exponent
  let bound := Nat.pow 2 1024 - Nat.pow 2 970
  if digits.isEmpty || size < 300 then false
  else if 310 < size then true
  else if 0 ≤ exponent then bound ≤ valueIn 10 digits * Nat.pow 10 exponent.toNat
  else bound * Nat.pow 10 (-exponent).toNat ≤ valueIn 10 digits

/-- Whether a text spells a floating-point number, of which none may be too large. -/
def isFloat (cs : List Char) : Bool :=
  let (minus, r) := splitSign cs
  if r = "inf".toList || r = "nan".toList then true
  else
    let mantissa := r.takeWhile fun c => c ≠ 'e' && c ≠ 'E'
    let afterMantissa := r.dropWhile fun c => c ≠ 'e' && c ≠ 'E'
    let whole := mantissa.takeWhile (· ≠ '.')
    let afterWhole := mantissa.dropWhile (· ≠ '.')
    let fraction : Option (List Char) := match afterWhole with
      | [] => some []
      | _ :: f => ungroup? Char.isDigit f
    let exponent : Option Int := match afterMantissa with
      | [] => some 0
      | _ :: e =>
        let (minus, e) := splitSign e
        (ungroup? Char.isDigit e).map fun ds =>
          let n : Int := valueIn 10 ds
          if minus then -n else n
    match decimal? whole, fraction, exponent with
    | some w, some f, some e =>
      (!afterWhole.isEmpty || !afterMantissa.isEmpty)
        && (minus || !overflows (w ++ f) (e - f.length))
    | _, _, _ => false

/-! ### Dates and times -/

/-- Takes a number of two digits, not above a bound, off a text. -/
def twoDigits? (low high : Nat) : List Char → Option (Nat × List Char)
  | a :: b :: r =>
    if a.isDigit && b.isDigit then
      let n := 10 * Text.digitValue a + Text.digitValue b
      if low ≤ n && n ≤ high then some (n, r) else none
    else none
  | _ => none

def expect (c : Char) : List Char → Option (List Char)
  | d :: r => if c = d then some r else none
  | [] => none

def isLeap (year : Nat) : Bool := year % 4 = 0 && (year % 100 ≠ 0 || year % 400 = 0)

def daysIn (year month : Nat) : Nat :=
  match month with
  | 2 => if isLeap year then 29 else 28
  | 4 | 6 | 9 | 11 => 30
  | _ => 31

def twoWide (n : Nat) : String := if n < 10 then "0" ++ toString n else toString n

/-- A date at the head of a text, as it is shown, and what follows it. -/
def date? (cs : List Char) : Option (String × List Char) := do
  let (century, r) ← twoDigits? 0 99 cs
  let (rest, r) ← twoDigits? 0 99 r
  let r ← expect '-' r
  let (month, r) ← twoDigits? 1 12 r
  let r ← expect '-' r
  let (day, r) ← twoDigits? 1 (daysIn (100 * century + rest) month) r
  return (twoWide century ++ twoWide rest ++ "-" ++ twoWide month ++ "-" ++ twoWide day, r)

/-- The shown part of a fraction of a second: nine digits at most, without zeros at the end. -/
def shownFraction (digits : List Char) : String :=
  match ((digits.take 9).reverse.dropWhile (· = '0')).reverse with
  | [] => ""
  | ds => "." ++ String.ofList ds

/-- A time of day at the head of a text, as it is shown, and what follows it. -/
def time? (cs : List Char) : Option (String × List Char) := do
  let (hour, r) ← twoDigits? 0 23 cs
  let r ← expect ':' r
  let (minute, r) ← twoDigits? 0 59 r
  let r ← expect ':' r
  let (second, r) ← twoDigits? 0 60 r
  let shown := twoWide hour ++ ":" ++ twoWide minute ++ ":" ++ twoWide second
  match r with
  | '.' :: f =>
    let digits := f.takeWhile Char.isDigit
    if digits.isEmpty then none
    else return (shown ++ shownFraction digits, f.dropWhile Char.isDigit)
  | _ => return (shown, r)

/-- The difference to universal time at the head of a text, and what follows it. -/
def offset? (cs : List Char) : Option (String × List Char) :=
  match cs with
  | 'Z' :: r | 'z' :: r => some ("Z", r)
  | s :: r =>
    if s = '+' || s = '-' then do
      let (hour, r) ← twoDigits? 0 23 r
      let r ← expect ':' r
      let (minute, r) ← twoDigits? 0 59 r
      let sign := if s = '-' && (hour ≠ 0 || minute ≠ 0) then "-" else "+"
      return (sign ++ twoWide hour ++ ":" ++ twoWide minute, r)
    else none
  | [] => none

/-- The text of a date, a time or both, as it is shown. -/
def moment? (cs : List Char) : Option String :=
  match date? cs with
  | some (date, []) => some date
  | some (date, sep :: r) =>
    if sep = 'T' || sep = 't' || sep = ' ' then
      match time? r with
      | some (time, []) => some (date ++ "T" ++ time)
      | some (time, r) =>
        match offset? r with
        | some (offset, []) => some (date ++ "T" ++ time ++ offset)
        | _ => none
      | none => none
    else none
  | none =>
    match time? cs with
    | some (time, []) => some time
    | _ => none

def isScalarChar (c : Char) : Bool := c.isAlphanum || ['_', '+', '-', '.', ':'].contains c

/-- The value that a text without quotes and brackets spells. -/
def scalar? (cs : List Char) : Option Value :=
  if cs = "true".toList then some (.boolean true)
  else if cs = "false".toList then some (.boolean false)
  else match moment? cs, integer? cs with
    | some text, _ => some (.moment text)
    | none, some n => some (.integer n)
    | none, none => if isFloat cs then some .float else none

/-- The scalar at the head of a text, and what follows it. A date and a time may have a space
between them. -/
def readScalar (cs : List Char) : Option (Value × List Char) :=
  let word := cs.takeWhile isScalarChar
  let rest := cs.dropWhile isScalarChar
  let single := (scalar? word).map fun v => (v, rest)
  match rest with
  | ' ' :: r =>
    if (date? word).any (·.2.isEmpty) then
      match moment? (word ++ ' ' :: r.takeWhile isScalarChar) with
      | some text => some (.moment text, r.dropWhile isScalarChar)
      | none => single
    else single
  | _ => single

end JobShell.Toml
