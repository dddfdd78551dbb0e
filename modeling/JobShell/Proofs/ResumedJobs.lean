import JobShell.Proofs.JobAgreement

/-! Stopped jobs that are brought back or let go. They are sent the signal to go on if the table
lists them as stopped, and it does so only once the session has been told of the stop. -/
namespace JobShell

open Host (firstPid)

/-- An event stops a process unless it has ended. -/
def Event.Stops (e : Event) (pid : Int) : Prop :=
  ∃ sig : Signal, e = .signal pid sig ∧ sig.effect = .stops

theorem Process.status?_receive_ne {p : Process} {sig : Signal} (going : p.status? ≠ some .stopped)
    (other : sig.effect ≠ .stops) : (p.receive sig).status? ≠ some .stopped := by
  unfold receive
  split
  · exact going
  split
  · simp [finish, status?]
  split
  · exact going
  split
  · exact p.status?_resume_ne
  · next stops _ => exact absurd stops other
  · simp [finish, status?]
  · next phase => simp [status?, phase] at going
  · exact going

namespace ProcessTable

variable {gone : Int → Prop} {s : ProcessTable} {self pid : Int}

/-- No process of a number is stopped. -/
def Going (s : ProcessTable) (pid : Int) : Prop :=
  ∀ p ∈ s.processes, p.pid = pid → p.status? ≠ some .stopped

/-- Nothing to come stops a process. -/
def Calm (batches : List (List Event)) (pid : Int) : Prop :=
  ∀ batch ∈ batches, ∀ e ∈ batch, ¬ e.Stops pid

theorem Going.drop (h : s.Going pid) (other : Int) : (s.drop other).Going pid :=
  fun p hp => h p (List.mem_of_mem_filter hp)

theorem Going.released (h : s.Going pid) (which : Process → Bool) : (s.released which).Going pid := by
  intro q hq same
  obtain ⟨p, hp, rfl⟩ := List.mem_map.1 hq
  split at same
  · next w =>
    rw [if_pos w]
    exact h p hp same
  · next w =>
    rw [if_neg w]
    exact h p hp same

/-- A process that is going stays so until an event stops it. -/
theorem Going.applyEvent (h : s.Going pid) {e : Event} (calm : ¬ e.Stops pid) :
    (s.applyEvent e).Going pid := by
  intro q hq same
  cases e with
  | signal target sig =>
    obtain ⟨p, hp, ⟨reached, rfl⟩ | ⟨-, rfl⟩⟩ := mem_update hq
    · have here : p.pid = pid := (p.becomes_receive sig).pid.symm.trans same
      refine Process.status?_receive_ne (h p hp here) fun stops => calm ⟨sig, ?_, stops⟩
      rw [← here, reached]
    · exact h q hp same
  | ends target how =>
    obtain ⟨p, hp, ⟨-, rfl⟩ | ⟨-, rfl⟩⟩ := mem_update hq
    · split at same
      · next ended =>
        rw [if_pos ended]
        exact h p hp same
      · next alive =>
        rw [if_neg alive]
        simp [Process.finish, Process.status?]
    · exact h q hp same
  | taken target => exact h.drop target q hq same

theorem outside_applyEvent (s : ProcessTable) (e : Event) : (s.applyEvent e).outside = s.outside := by
  cases e <;> rfl

theorem Going.events (h : s.Going pid) {batch : List Event} (calm : ∀ e ∈ batch, ¬ e.Stops pid) :
    (batch.foldl ProcessTable.applyEvent s).Going pid := by
  induction batch generalizing s with
  | nil => exact h
  | cons e batch ih =>
    have first := h.applyEvent (calm e List.mem_cons_self)
    exact ih first fun e he => calm e (List.mem_cons_of_mem _ he)

theorem outside_events (s : ProcessTable) (batch : List Event) :
    (batch.foldl applyEvent s).outside = s.outside := by
  induction batch generalizing s with
  | nil => rfl
  | cons e batch ih => rw [List.foldl_cons, ih, outside_applyEvent]

theorem outside_advance (s : ProcessTable) : s.advance.outside = s.outside.tail := by
  unfold advance
  split
  · next none => rw [none]; rfl
  · next batch later outside => rw [outside_events, outside]; rfl

theorem Going.advance (h : s.Going pid) (calm : Calm s.outside pid) : s.advance.Going pid := by
  unfold ProcessTable.advance
  split
  · exact h
  · next batch later outside =>
    have first : ({ s with outside := later } : ProcessTable).Going pid := h
    exact first.events (calm batch (by simp [outside]))

theorem Going.collected (h : s.Going pid) {r : Except Errno Outcome × ProcessTable}
    (collected : Collected self pid s r) : r.2.Going pid := by
  cases collected with
  | missing => exact h
  | ended => exact h.drop pid
  | stopped found stop =>
    obtain ⟨hp, same, -⟩ := child?_eq_some found
    exact absurd stop (h _ hp same)

/-- Waiting for a process that is going does not leave it stopped, unless something stops it in the
meantime. The induction is on the batches that are still to come. -/
theorem Going.waitThrough (h : s.Going pid) {batches : List (List Event)}
    (coming : s.outside = batches) (calm : Calm batches pid) (self : Int) :
    (waitThrough self pid batches s).2.Going pid := by
  induction batches generalizing s with
  | nil =>
    unfold ProcessTable.waitThrough
    cases found : s.collect? self pid with
    | none => exact h.drop pid
    | some r => exact h.collected (collected_of_collect? found)
  | cons batch batches ih =>
    unfold ProcessTable.waitThrough
    have advanced := h.advance (coming ▸ calm)
    have later : s.advance.outside = batches := by rw [outside_advance, coming]; rfl
    dsimp only
    split
    · next found => exact advanced.collected (collected_of_collect? found)
    · exact ih advanced later fun b hb => calm b (List.mem_cons_of_mem _ hb)

theorem Going.wait (h : s.Going pid) (calm : Calm s.outside pid) (self : Int) :
    (s.wait self pid).2.Going pid := h.waitThrough rfl calm self

theorem Sound.child?_eq (h : s.Sound gone) {p : Process} (hp : p ∈ s.processes)
    (own : p.parent = self) (same : p.pid = pid) : s.child? self pid = some p := by
  cases found : s.child? self pid with
  | none => exact absurd own (child?_eq_none found p hp same)
  | some q =>
    obtain ⟨hq, pid', -⟩ := child?_eq_some found
    rw [h.eq_of_pid hp hq (same.trans pid'.symm)]

end ProcessTable

namespace SessionM

open JobControl ProcessTable

variable {gone : Int → Prop} {job : Job} {m : Machine}

end SessionM

namespace Machine

open JobControl

variable {others : Bool} {start m : Machine} {c : Circumstances}

end Machine
end JobShell
