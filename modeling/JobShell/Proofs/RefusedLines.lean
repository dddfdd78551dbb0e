import JobShell.CommandLine
import JobShell.Proofs.Chronicle
import JobShell.Proofs.ForkedCommands
import JobShell.Proofs.LineAssignments
import JobShell.Proofs.OpenFiles
import JobShell.Proofs.TokenLimits

/-! A line that cannot be read as a whole is not run in part: all that becomes of it is a message, a
status, and what its expansion has given to variables. -/
namespace JobShell

open Token Grammar Carrier

/-! ### Faults of a line -/

namespace Token

end Token

/-- A host after a warning has been added to the log of a session. -/
def Machine.recorded (m : Machine) (text : String) : Host :=
  match m.shell.log with
  | some h => m.host.attempt h (Bytes.ofString ("[WARN] " ++ text ++ "\n"))
  | none => m.host

namespace Machine

theorem toProcessTable_recorded (m : Machine) (text : String) :
    (m.recorded text).toProcessTable = m.host.toProcessTable := by
  unfold recorded
  split
  · exact Host.toProcessTable_attempt ..
  · rfl

theorem isFull_recorded (m : Machine) (text : String) (h : Handle) :
    (m.recorded text).isFull h = m.host.isFull h := by
  unfold recorded
  split
  · exact Host.isFull_attempt ..
  · rfl

/-- A host after a failure has been recorded and told of. -/
def told (m : Machine) (text : String) : Host :=
  (m.recorded text).attempt m.shell.stdio.error (Bytes.ofString ("jobsh: " ++ text ++ "\n"))

theorem toProcessTable_told (m : Machine) (text : String) :
    (m.told text).toProcessTable = m.host.toProcessTable :=
  (Host.toProcessTable_attempt ..).trans (m.toProcessTable_recorded text)

end Machine

namespace SessionM

theorem record_apply (text : String) (m : Machine) :
    record text m = ((), { m with host := m.recorded text }) := by
  have asked : shell m = (m.shell, m) := rfl
  rw [record, Engine.bind_apply, asked]
  unfold Machine.recorded
  dsimp only
  cases m.shell.log <;> rfl

theorem report_apply (e : ShellError) (m : Machine) :
    report e m = (e.status, { m with
      host := if m.host.isFull m.shell.stdio.error
        then (m.recorded e.message).halt m.shell.pid .crashed else m.told e.message }) := by
  have some : Bytes.ofString ("jobsh: " ++ e.message ++ "\n") ≠ [] := by
    rw [Bytes.ofString_append]
    exact List.append_ne_nil_of_right_ne_nil _ (by decide)
  rw [report, Engine.bind_apply, record_apply]
  change (e.status, ({ m with host := (m.recorded e.message).complain _ _ _ } : Machine)) = _
  rw [Host.complain_eq, m.isFull_recorded]
  simp only [some, not_false_eq_true, and_true, ne_eq]
  rfl

end SessionM

/-! ### Running a line or not -/

/-- A line with aliases and values in place, and the variables after that. -/
def Machine.expanded (m : Machine) (line : String) : String × Variables :=
  expandReferences m.shell.vars (m.shell.aliases.expand line)

namespace Chronicle

theorem runLine_eq (line : String) (m : Machine) :
    SessionM.runLine line m =
      (match Grammar.read m.shell.settings.maxTokens (m.expanded line).1 with
      | .error e => SessionM.reject e
      | .ok ts => (Engine.session SessionM.sourceFile).runTokens ts : SessionM Int)
      { m with shell := { m.shell with vars := (m.expanded line).2 } } := by
  rw [SessionM.runLine, SessionM.runLineWith, Engine.runLine_eq]
  rfl

theorem runLine_of_read {line : String} {m : Machine} {ts : List Token}
    (read : Grammar.read m.shell.settings.maxTokens (m.expanded line).1 = .ok ts) :
    SessionM.runLine line m = (Engine.session SessionM.sourceFile).runTokens ts
      { m with shell := { m.shell with vars := (m.expanded line).2 } } := by
  rw [runLine_eq, read]

end Chronicle
end JobShell
