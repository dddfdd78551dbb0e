import JobShell.Token.Basic

/-!
The parts of a line: segments between separators, and in a segment pipelines joined by connectors.
-/
namespace JobShell

/-- A part of a line up to a separator, and whether that sends it into the background. -/
structure Segment where
  tokens : List Token
  background : Bool
  deriving DecidableEq, Repr

namespace Segment

/-- Cuts a line at its separators. -/
def ofTokens : List Token → List Segment
  | [] => [⟨[], false⟩]
  | t :: ts =>
    if t.kind.isSeparator then ⟨[], t.kind = .ampersand⟩ :: ofTokens ts
    else match ofTokens ts with
      | [] => [⟨[t], false⟩]
      | s :: ss => { s with tokens := t :: s.tokens } :: ss

/-- The segments of a line that hold anything. -/
def ofLine (ts : List Token) : List Segment := (ofTokens ts).filter (!·.tokens.isEmpty)

end Segment

/-- What makes a pipeline depend on the status before it. -/
inductive Connector where
  | and
  | or
  deriving DecidableEq, Repr

namespace Connector

def ofKind? : Token.Kind → Option Connector
  | .and => some .and
  | .or => some .or
  | _ => none

/-- Whether the next pipeline runs after a status. -/
def proceeds (status : Int) : Connector → Bool
  | and => status = 0
  | or => status ≠ 0

end Connector

/-- A pipeline, and those that follow it with their connectors. -/
structure Chain where
  first : List Token
  rest : List (Connector × List Token)
  deriving DecidableEq, Repr

namespace Chain

/-- Cuts a segment at its connectors. -/
def ofTokens : List Token → Chain
  | [] => ⟨[], []⟩
  | t :: ts =>
    match Connector.ofKind? t.kind with
    | some k => ⟨[], (k, (ofTokens ts).first) :: (ofTokens ts).rest⟩
    | none => { ofTokens ts with first := t :: (ofTokens ts).first }

end Chain
end JobShell
