import JobShell.Store.Variables
import JobShell.Text.Identifier
import JobShell.Text.Quoted

/-!
References to variables: `$name`, `${name}`, `${name:-text}`, `${name:=text}`, `${#name}`. A line
is first cut into plain characters and references; then the references give way to their values,
from left to right. A value is escaped so that the reader of the line takes it as data.
-/
namespace JobShell

inductive Reference where
  /-- A dollar sign that refers to nothing, and what belongs to it. -/
  | literal (text : List Char)
  | value (name : String)
  /-- The number of characters of a value. -/
  | length (name : String)
  /-- A value, or a text in place of an empty one. -/
  | orElse (name : String) (text : String)
  /-- The same, and an identifier is set to that text. -/
  | orAssign (name : String) (text : String)
  deriving DecidableEq, Repr

namespace Reference

def isSpecial (c : Char) : Bool := ['?', '$', '!', '#', '@', '*'].contains c

/-- The reference with the given text between its braces. -/
def ofBraces (body : List Char) : Reference :=
  match body with
  | '#' :: c :: r => .length (String.ofList (c :: r))
  | _ =>
    let size := match body with
      | c :: _ => if isSpecial c then 1 else (body.takeWhile Text.isNameChar).length
      | [] => 0
    let name := String.ofList (body.take size)
    if size = 0 then .literal ("$\x7b".toList ++ body ++ ['}'])
    else match body.drop size with
      | ':' :: '-' :: text => .orElse name (String.ofList text)
      | ':' :: '=' :: text => .orAssign name (String.ofList text)
      | _ => .value name

/-- Reads the reference behind a dollar sign, and gives what follows it. -/
def read (cs : List Char) : Reference × List Char :=
  match cs with
  | [] => (.literal ['$'], [])
  | '{' :: r =>
    match r.dropWhile (· ≠ '}') with
    | [] => (.literal ['$'], cs)
    | _ :: rest => (ofBraces (r.takeWhile (· ≠ '}')), rest)
  | c :: r =>
    if isSpecial c || c.isDigit then (.value c.toString, r)
    else if Text.isNameChar c then
      (.value (String.ofList (cs.takeWhile Text.isNameChar)), cs.dropWhile Text.isNameChar)
    else (.literal ['$'], cs)

theorem length_dropWhile_le (p : Char → Bool) (cs : List Char) :
    (cs.dropWhile p).length ≤ cs.length :=
  (List.dropWhile_sublist p).length_le

theorem length_read_le (cs : List Char) : (read cs).2.length ≤ cs.length := by
  unfold read
  split
  · simp
  · next r =>
    have h := length_dropWhile_le (· ≠ '}') r
    split
    · simp
    · next heq => rw [heq] at h; simp at h ⊢; omega
  · next c r _ =>
    split
    · simp
    · split
      · exact length_dropWhile_le _ _
      · simp

/-- The value of a reference, and the values after it. -/
def evaluate {σ : Type} [Bindings σ] (s : σ) : Reference → List Char × σ
  | literal text => (text, s)
  | value name => (((Bindings.get? s name).getD "").toList, s)
  | length name => ((toString ((Bindings.get? s name).getD "").length).toList, s)
  | orElse name text =>
    match (Bindings.get? s name).filter (· ≠ "") with
    | some v => (v.toList, s)
    | none => (text.toList, s)
  | orAssign name text =>
    match (Bindings.get? s name).filter (· ≠ "") with
    | some v => (v.toList, s)
    | none =>
      (text.toList, if Text.isIdentifier name.toList then Bindings.set s name text else s)

/-- The characters that need a backslash to stand for themselves, outside quotes and in double
quotes. -/
def needsEscape (doubleQuoted : Bool) (c : Char) : Bool :=
  if doubleQuoted then ['"', '\\', '$', '\x60'].contains c
  else ['\'', '"', '\\', ';', '|', '&', '<', '>', '(', ')', '#'].contains c

/-- A value as it is put into a line. -/
def escape (doubleQuoted : Bool) (cs : List Char) : List Char :=
  cs.flatMap fun c => if needsEscape doubleQuoted c then ['\\', c] else [c]

end Reference

/-- A part of a line before its references are replaced. -/
inductive Piece where
  | plain (c : Char)
  | reference (doubleQuoted : Bool) (reference : Reference)
  deriving DecidableEq, Repr

namespace Piece

/-- Cuts a line into pieces. A backslash protects the next character, and nothing is a reference
inside single quotes. -/
def ofLine (place : Text.Place) (cs : List Char) : List Piece :=
  match cs with
  | [] => []
  | c :: r =>
    if c = '\\' && place ≠ .single then
      match r with
      | [] => [plain c]
      | e :: r => plain c :: plain e :: ofLine place r
    else if c = '\'' && place ≠ .double then
      plain c :: ofLine (if place = .single then .bare else .single) r
    else if c = '"' && place ≠ .single then
      plain c :: ofLine (if place = .double then .bare else .double) r
    else if c = '$' && place ≠ .single then
      reference (place = .double) (Reference.read r).1 :: ofLine place (Reference.read r).2
    else plain c :: ofLine place r
termination_by cs.length
decreasing_by
  · simp only [List.length_cons]
    omega
  · simp
  · simp
  · have := Reference.length_read_le r
    simp only [List.length_cons]
    omega
  · simp

/-- Replaces the references among some pieces from left to right. -/
def expand {σ : Type} [Bindings σ] (s : σ) : List Piece → List Char × σ
  | [] => ([], s)
  | plain c :: ps =>
    let (cs, s) := expand s ps
    (c :: cs, s)
  | reference q r :: ps =>
    let (v, s) := r.evaluate s
    let (cs, s) := expand s ps
    (Reference.escape q v ++ cs, s)

end Piece

/-- Replaces the references in a line, and gives the values afterwards. -/
def expandReferences {σ : Type} [Bindings σ] (s : σ) (line : String) : String × σ :=
  let (cs, s) := Piece.expand s (Piece.ofLine .bare line.toList)
  (String.ofList cs, s)

end JobShell
