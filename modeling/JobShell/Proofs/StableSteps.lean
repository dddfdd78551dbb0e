import JobShell.Proofs.ProcessChanges
import JobShell.Proofs.SessionRules

/-! Steps in which processes run and receive signals, but the session neither starts nor reaps a
child of its own. What a copy of the shell does is of this kind as well. -/
namespace JobShell

open Host (firstPid)
open ProcessTable (Evolves)

/-- A property that no change of the processes breaks in which the session has no hand. -/
structure Stable (gone : Int → Prop) (I : Affairs → Prop) : Prop where
  sound : ∀ a, I a → a.processes.Sound gone
  evolves : ∀ a t, I a → Evolves gone a.processes t → I { a with processes := t }

/-- The state of a copy of the shell that has been started at a certain state of the processes. -/
structure Apart (gone : Int → Prop) (s : ProcessTable) (a : Affairs) : Prop where
  copy : a.pid ≠ firstPid
  evolves : Evolves gone s a.processes

theorem Apart.stable {gone : Int → Prop} {s : ProcessTable} : Stable gone (Apart gone s) where
  sound _ h := h.evolves.sound
  evolves _ _ h e := ⟨h.copy, h.evolves.trans e⟩

/-- The processes once the output of some of them has been delivered. -/
def ProcessTable.released (s : ProcessTable) (which : Process → Bool) : ProcessTable :=
  { s with processes := s.processes.map fun p => if which p then { p with held := [] } else p }

/-- What is written while output is delivered is of no concern to processes. -/
theorem Host.toProcessTable_deliver (s : Host) (which : Process → Bool) :
    (s.deliver which).toProcessTable = s.toProcessTable.released which := by
  refine List.foldlRecOn _ _
    (motive := fun t : Host => t.toProcessTable = s.toProcessTable.released which)
    rfl fun t same c _ => ?_
  exact (t.toProcessTable_attempt c.1 c.2).trans same

theorem ProcessTable.evolves_released {gone : Int → Prop} {s : ProcessTable} (h : s.Sound gone)
    (which : Process → Bool) : Evolves gone s (s.released which) := by
  refine evolves_map_of_becomes h fun p => ?_
  split
  · exact p.becomes_held []
  · exact .refl p

namespace SessionM

variable {α : Type} {gone : Int → Prop} {I : Affairs → Prop}

theorem keeps_writeTo (h : Handle) (b : Bytes) : Keeps I (writeTo h b) :=
  ((ofFiles_keeps I).writeTo h b).keeps

theorem keeps_perform (stdio : Stdio) (dir : NodeId) (image : Image) (program : Program) :
    Keeps I (perform stdio dir image program) :=
  ((ofFiles_keeps I).perform stdio dir image program).keeps

/-- What is done in the foreground. -/
theorem Ensures.withForeground {P : Affairs → Prop} {Q : α → Affairs → Prop} {act : SessionM α}
    (h : Ensures P act Q) (pid : Int) : Ensures P (withForeground pid act) Q := by
  refine .bind (Q := fun _ => P) (keeps_modifyShell fun _ => ⟨rfl, rfl⟩) fun _ => h.bind fun a => ?_
  exact .bind (Q := fun _ => Q a) (keeps_modifyShell fun _ => ⟨rfl, rfl⟩) fun _ => .pure fun _ h => h

end SessionM

namespace Stable

open SessionM

variable {α : Type} {gone : Int → Prop} {I : Affairs → Prop} (h : Stable gone I)
include h

theorem keeps_modifyHost {f : Host → Host}
    (evolves : ∀ s : Host, s.Sound gone → Evolves gone s.toProcessTable (f s).toProcessTable) :
    Keeps I (modifyHost f) :=
  fun m hm => h.evolves m.affairs _ hm (evolves m.host (h.sound _ hm))

theorem keeps_modifyProcesses {f : ProcessTable → ProcessTable}
    (evolves : ∀ s : ProcessTable, s.Sound gone → Evolves gone s (f s)) :
    Keeps I (modifyProcesses f) :=
  h.keeps_modifyHost fun s => evolves s.toProcessTable

theorem keeps_onProcesses {f : ProcessTable → α × ProcessTable}
    (evolves : ∀ s : ProcessTable, s.Sound gone → Evolves gone s (f s).2) :
    Keeps I (onProcesses f) :=
  fun m hm => h.evolves m.affairs _ hm (evolves m.host.toProcessTable (h.sound _ hm))

theorem ofSignals : OfSignals (fun {α} (Q : α → Prop) (x : SessionM α) =>
    Ensures I x fun a s => I s ∧ Q a) fun m => I m.affairs where
  toOfQuiet := ofQuiet_keeps I
  kill self target signal := (h.keeps_onProcesses fun _ sound =>
    ProcessTable.evolves_kill sound self target signal).anyhow
  struck _ := (ofFiles_keeps I).halt _

theorem keeps_kill (self target : Int) (signal : Option Signal) :
    Keeps I (onProcesses (·.kill self target signal)) := (h.ofSignals.kill self target signal).keeps

theorem keeps_deliver (which : Process → Bool) : Keeps I (modifyHost (·.deliver which)) :=
  h.keeps_modifyHost fun s sound =>
    s.toProcessTable_deliver which ▸ ProcessTable.evolves_released sound which

theorem keeps_receiveSignal (sig : Signal) : Keeps I (receiveSignal sig) :=
  (h.ofSignals.receiveSignal sig).keeps

theorem keeps_runImage (pid : Int) (stdio : Stdio) (unwritten : Bytes) (image : Image) :
    Keeps I (runImage pid stdio unwritten image) := by
  refine keeps_shell.bind fun sh => keeps_host.bind fun s => .ite (.pure _) ?_
  refine keeps_host.bind fun s => ?_
  split
  · refine (keeps_writeTo _ _).bind fun _ => (keeps_writeTo _ _).bind fun _ => ?_
    exact h.keeps_modifyProcesses fun s sound =>
      ProcessTable.evolves_update sound pid fun p => p.becomes_finish _
  · refine (keeps_perform _ _ _ _).bind fun next => .bind ?_ fun _ => ?_
    · exact h.keeps_modifyProcesses fun s sound =>
        ProcessTable.evolves_update sound pid fun p => p.becomes_goOn next
    · split
      · exact h.keeps_receiveSignal _
      · exact .pure _

/-- Behind a copy of the shell there is the shell again, with the processes as the copy has left
them. -/
theorem ensures_endCopy {pid : Int} (other : pid ≠ firstPid) {parent : Shell} {s : ProcessTable}
    (back : ∀ t, Evolves gone s t → I ⟨parent.pid, parent.jobs, t⟩) (status : Int) :
    Ensures (Apart gone s) (endCopy pid parent status) fun _ => I := by
  have restored : Ensures (Apart gone s) (modifyShell fun _ => parent) fun _ => I :=
    fun m hm => back _ hm.evolves
  refine ((ofFiles_keeps _).copyEnding pid status).keeps.andThen fun left => ?_
  refine restored.bind fun _ => ?_
  cases left with
  | none => exact .pure fun _ h => h
  | some status =>
    refine (h.keeps_deliver _).bind fun _ => h.keeps_modifyProcesses fun s sound => ?_
    have orphaned := ProcessTable.evolves_orphan sound other
    exact orphaned.trans (ProcessTable.evolves_leave orphaned.sound pid _)

/-- A copy of the shell leaves the children of the session to it. -/
theorem keeps_runCopy (pid : Int) (copy : Shell) {body : SessionM Int}
    (apart : ∀ s, Keeps (Apart gone s) body) : Keeps I (runCopy pid copy body) := by
  intro m hm
  rw [runCopy_apply]
  split
  · exact hm
  · next alive =>
    -- The process is there, so that its number is not that of the session.
    have other : pid ≠ firstPid := by
      cases found : m.host.process? pid with
      | none => simp [found] at alive
      | some p =>
        have same : p.pid = pid := by simpa using List.find?_some found
        exact same ▸ ((h.sound _ hm).own p (List.mem_of_find?_eq_some found)).2
    have ran := apart m.host.toProcessTable
      ⟨{ copy with pid, forwards := false, foreground := none }, m.host.setOut pid⟩
      ⟨other, .refl (h.sound _ hm)⟩
    exact h.ensures_endCopy other (fun t => h.evolves m.affairs t hm) _ _ ran

theorem keeps_runApart (pid : Int) (input : Handle) (output : Option Handle) (copy : Shell)
    {run : Stdio → SessionM Unit} (hr : ∀ stdio, Keeps I (run stdio)) :
    Keeps I (runApart pid input output copy run) := by
  refine .bind (keeps_onHost fun _ => rfl) fun out => .bind (keeps_onHost fun _ => rfl) fun err => ?_
  refine (hr _).bind fun _ => h.keeps_modifyHost fun s sound => ?_
  exact ProcessTable.evolves_update sound pid fun p => p.becomes_held _

end Stable
end JobShell
