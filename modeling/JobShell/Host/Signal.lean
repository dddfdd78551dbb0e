import JobShell.Text.Number

/-!
Signals: numbers from 1 to 31, their names, and what they do to a process that does not handle
them.
-/
namespace JobShell

/-- A signal, by its number. -/
structure Signal where
  number : Nat
  valid : 1 ≤ number ∧ number ≤ 31
  deriving DecidableEq, Repr

namespace Signal

/-- The names of the signals from 1 on, without their common beginning. -/
def names : List String :=
  ["HUP", "INT", "QUIT", "ILL", "TRAP", "ABRT", "BUS", "FPE", "KILL", "USR1", "SEGV", "USR2",
    "PIPE", "ALRM", "TERM", "STKFLT", "CHLD", "CONT", "STOP", "TSTP", "TTIN", "TTOU", "URG",
    "XCPU", "XFSZ", "VTALRM", "PROF", "WINCH", "IO", "PWR", "SYS"]

def interrupt : Signal := ⟨2, by decide⟩
def quit : Signal := ⟨3, by decide⟩
def kill : Signal := ⟨9, by decide⟩
def pipe : Signal := ⟨13, by decide⟩
def terminate : Signal := ⟨15, by decide⟩
def resume : Signal := ⟨18, by decide⟩
def stop : Signal := ⟨19, by decide⟩
def terminalStop : Signal := ⟨20, by decide⟩

def ofNumber? (n : Int) : Option Signal :=
  if h : 1 ≤ n.toNat ∧ n.toNat ≤ 31 then some ⟨n.toNat, h⟩ else none

/-- The signal with a given name, in capitals and with or without the leading letters. -/
def ofName? (name : String) : Option Signal :=
  let upper := name.toList.map Char.toUpper
  let short := match upper with
    | 'S' :: 'I' :: 'G' :: r => r
    | cs => cs
  match names.findIdx? (·.toList = short) with
  | some i => ofNumber? (i + 1 : Nat)
  | none => none

/-- A signal given by number or by name. -/
def ofSpec? (s : String) : Option Signal :=
  match Text.readShort? s with
  | some n => ofNumber? n
  | none => ofName? s

/-- What a signal does to a process that has not asked for anything else. -/
inductive Effect where
  | ends
  | stops
  | resumes
  | nothing
  deriving DecidableEq, Repr

/-- The default effects: four signals stop, one resumes, the rest end the process, apart from the
ones that are ignored unless they are asked for. -/
def effect (s : Signal) : Effect :=
  match s.number with
  | 18 => .resumes
  | 19 | 20 | 21 | 22 => .stops
  | 17 | 23 | 28 => .nothing
  | _ => .ends

/-- Faults of the process itself, which are delivered before all other signals. -/
def isFault (s : Signal) : Bool := [4, 5, 7, 8, 11, 31].contains s.number

/-- The one of several waiting signals that is delivered first. -/
def first? (waiting : List Signal) : Option Signal :=
  let faults := waiting.filter isFault
  let pool := if faults.isEmpty then waiting else faults
  pool.foldl (fun best s =>
    match best with
    | none => some s
    | some b => if s.number < b.number then some s else some b) none

example : ofSpec? "sigKill" = some kill ∧ ofSpec? "9" = some kill ∧ ofSpec? "0" = none := by decide

end Signal
end JobShell
