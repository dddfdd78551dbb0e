import JobShell.Host.Errno
import JobShell.Host.Program

/-!
Processes: what has become of a program that was started, what signals do to it, and what its
parent can still learn about it.
-/
namespace JobShell

/-- How a process ended. -/
inductive Ending where
  | exited (status : Nat)
  | killed (signal : Signal)
  /-- By a signal that has no name. -/
  | obscure (number : Nat)
  deriving DecidableEq, Repr

namespace Ending

/-- Whether a parent can make sense of it. -/
def isTold : Ending → Bool
  | exited _ | killed _ => true
  | obscure _ => false

end Ending

/-- What a process is doing. -/
inductive Phase where
  /-- Alive, until a signal ends it. -/
  | waiting
  /-- Stopped by a signal. Resumed, it exits with the status given, if one is, or dies of a signal
  that has come in the meantime. -/
  | stopped (signal : Signal) (exit : Option Nat) (pending : List Signal)
  | ended (how : Ending)
  deriving DecidableEq, Repr

structure Process where
  pid : Int
  parent : Int
  group : Int
  phase : Phase
  /-- Whether its parent has not been told of the phase yet. -/
  fresh : Bool
  /-- What it wrote to files that it shares with its parent and that has not arrived there yet. -/
  held : List (Nat × Bytes)
  deriving DecidableEq, Repr

namespace Process

def isEnded (p : Process) : Bool :=
  match p.phase with
  | .ended _ => true
  | _ => false

def isStopped (p : Process) : Bool :=
  match p.phase with
  | .stopped .. => true
  | _ => false

def finish (p : Process) (how : Ending) : Process := { p with phase := .ended how, fresh := true }

/-- Once its parent has been told of its phase. -/
def told (p : Process) : Process := { p with fresh := false }

/-- Goes on after a stop. -/
def resume (p : Process) : Process :=
  match p.phase with
  | .stopped _ exit pending =>
    match Signal.first? pending, exit with
    | some s, _ => p.finish (.killed s)
    | none, some status => p.finish (.exited status)
    | none, none => { p with phase := .waiting, fresh := true }
  | _ => p

/-- What a signal does to a process. A stopped one is ended at once by `kill` alone; other signals
that would end it wait until it is resumed. -/
def receive (p : Process) (s : Signal) : Process :=
  if p.isEnded then p
  else if s = .kill then p.finish (.killed s)
  else if s = .pipe then p
  else match s.effect, p.phase with
    | .resumes, _ => p.resume
    | .stops, .waiting => { p with phase := .stopped s none [], fresh := true }
    | .ends, .waiting => p.finish (.killed s)
    | .ends, .stopped cause exit pending =>
      { p with phase := .stopped cause exit (pending ++ [s]) }
    | _, _ => p

/-- What a request to send a signal does to a process; without one it only asks for it. -/
def receive? (p : Process) : Option Signal → Process
  | some s => p.receive s
  | none => p

/-- What a program's sequel makes of a process. -/
def goOn (p : Process) : Sequel → Process
  | .exits status => p.finish (.exited status)
  | .dies s => p.finish (.killed s)
  | .perishes number => p.finish (.obscure number)
  | .stops status => { p with phase := .stopped .stop (some status) [], fresh := true }
  | .waits | .pokes _ => p

end Process

/-- What a parent learns by waiting for a process. Of the status that it exited with these are the
lowest eight bits. -/
inductive Outcome where
  | exited (status : UInt8)
  | killed (signal : Signal)
  | stopped (signal : Signal)
  deriving DecidableEq, Repr

namespace Outcome

/-- What a wait for a process that has ended gives. -/
def ofEnding : Ending → Except Errno Outcome
  | .exited status => .ok (.exited status.toUInt8)
  | .killed s => .ok (.killed s)
  | .obscure _ => .error .invalid

/-- The exit status of a command: its own, or 128 and the number of the signal. -/
def status : Outcome → Int
  | exited status => status.toNat
  | killed s | stopped s => 128 + s.number

end Outcome

/-- What a parent learns by asking, without waiting, for what has changed. -/
inductive Change where
  | ended (how : Ending)
  | stopped
  | resumed
  deriving DecidableEq, Repr

/-- What befalls a process from outside. -/
inductive Event where
  | signal (pid : Int) (signal : Signal)
  /-- It ends of its own accord. -/
  | ends (pid : Int) (how : Ending)
  /-- It is ended, and its end is told to someone else. -/
  | taken (pid : Int)
  deriving DecidableEq, Repr

end JobShell
