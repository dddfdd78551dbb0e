import JobShell.Text.Bytes

/-!
Backslash escapes in the arguments of `echo`.
-/
namespace JobShell.Escape

def ascii (c : Char) : UInt8 := c.toNat.toUInt8

/-- The letters that stand for one byte each. -/
def letters : List (Char × UInt8) :=
  [('n', 10), ('t', 9), ('r', 13), ('a', 7), ('b', 8), ('f', 12), ('v', 11), ('e', 27),
    ('\\', 92)]

def isOctal (b : UInt8) : Bool := Bytes.within (ascii '0') (ascii '7') b

def hexValue? (b : UInt8) : Option Nat :=
  if Bytes.within (ascii '0') (ascii '9') b then some (b - ascii '0').toNat
  else if Bytes.within (ascii 'a') (ascii 'f') b then some ((b - ascii 'a').toNat + 10)
  else if Bytes.within (ascii 'A') (ascii 'F') b then some ((b - ascii 'A').toNat + 10)
  else none

/-- The value of some digits, of which a byte keeps the lowest eight bits. -/
def number (base : Nat) (digits : List Nat) : UInt8 :=
  (digits.foldl (fun n d => base * n + d) 0).toUInt8

/-- Replaces escapes by the bytes that they stand for, and tells whether output is to stop. An
octal escape has a zero and up to three digits, a hexadecimal one has one or two; what is no
escape stays. -/
def decode (bs : Bytes) : Bytes × Bool :=
  match bs with
  | [] => ([], false)
  | [b] => ([b], false)
  | b :: e :: r =>
    if b ≠ ascii '\\' then put [b] (decode (e :: r))
    else if e = ascii 'c' then ([], true)
    else if e = ascii '0' then
      let digits := (r.take 3).takeWhile isOctal
      put [number 8 (digits.map fun d => (d - ascii '0').toNat)] (decode (r.drop digits.length))
    else if e = ascii 'x' then
      let digits := ((r.take 2).takeWhile fun d => (hexValue? d).isSome).filterMap hexValue?
      if digits.isEmpty then put [b, e] (decode r)
      else put [number 16 digits] (decode (r.drop digits.length))
    else match letters.find? fun l => ascii l.1 = e with
      | some l => put [l.2] (decode r)
      | none => put [b, e] (decode r)
termination_by bs.length
decreasing_by all_goals simp only [List.length_cons, List.length_drop]; omega
where
  put (before : Bytes) (rest : Bytes × Bool) : Bytes × Bool := (before ++ rest.1, rest.2)

end JobShell.Escape
