import JobShell.Host.ProcessTable
import JobShell.Job.Table
import Mathlib.Tactic.Common
import Mathlib.Data.List.Nodup

/-! What can become of the children of a session while it has no hand in it. -/
namespace JobShell

namespace Process

/-- How a process would be listed, unless it has ended. -/
def status? (p : Process) : Option Job.Status :=
  match p.phase with
  | .waiting => some .running
  | .stopped .. => some .stopped
  | .ended _ => none

/-- A status that has been noted of a process is the present one, unless its parent is still to be
told of a change or of its end. -/
def Suits (p : Process) (noted : Job.Status) : Prop :=
  p.status? = none ∨ p.fresh = true ∨ p.status? = some noted

/-- A process goes over into another state. No change escapes its parent for good. -/
structure Becomes (p q : Process) : Prop where
  pid : q.pid = p.pid
  parent : q.parent = p.parent
  suits : ∀ noted, p.Suits noted → q.Suits noted

namespace Becomes

theorem refl (p : Process) : p.Becomes p := ⟨rfl, rfl, fun _ h => h⟩

theorem trans {p q r : Process} (h : p.Becomes q) (h' : q.Becomes r) : p.Becomes r :=
  ⟨h'.pid.trans h.pid, h'.parent.trans h.parent, fun noted hp => h'.suits noted (h.suits noted hp)⟩

/-- A change that the parent is told of can be to any state. -/
theorem of_fresh {p q : Process} (pid : q.pid = p.pid) (parent : q.parent = p.parent)
    (fresh : q.fresh = true) : p.Becomes q := ⟨pid, parent, fun _ _ => .inr (.inl fresh)⟩

end Becomes

theorem becomes_finish (p : Process) (how : Ending) : p.Becomes (p.finish how) :=
  .of_fresh rfl rfl rfl

theorem becomes_resume (p : Process) : p.Becomes p.resume := by
  unfold resume
  split
  · split
    · exact p.becomes_finish _
    · exact p.becomes_finish _
    · exact .of_fresh rfl rfl rfl
  · exact .refl p

theorem becomes_receive (p : Process) (s : Signal) : p.Becomes (p.receive s) := by
  unfold receive
  split
  · exact .refl p
  split
  · exact p.becomes_finish _
  split
  · exact .refl p
  split
  · exact p.becomes_resume
  · exact .of_fresh rfl rfl rfl
  · exact p.becomes_finish _
  · next stopped =>
    -- It stays stopped, with one more signal waiting for it.
    refine ⟨rfl, rfl, fun noted => ?_⟩
    simp [Suits, status?, stopped]
  · exact .refl p

theorem becomes_receive? (p : Process) (s : Option Signal) : p.Becomes (p.receive? s) := by
  cases s with
  | none => exact .refl p
  | some s => exact p.becomes_receive s

theorem becomes_goOn (p : Process) (next : Sequel) : p.Becomes (p.goOn next) := by
  cases next with
  | exits | dies | perishes => exact p.becomes_finish _
  | stops => exact .of_fresh rfl rfl rfl
  | waits | pokes => exact .refl p

theorem becomes_held (p : Process) (held : List (Nat × Bytes)) : p.Becomes { p with held } :=
  ⟨rfl, rfl, fun _ h => h⟩

theorem receive_resume (p : Process) : p.receive .resume = p.resume := by
  unfold receive
  split
  · next ended =>
    unfold isEnded at ended
    unfold resume
    split <;> simp_all
  · rfl

theorem status?_resume_ne (p : Process) : p.resume.status? ≠ some .stopped := by
  unfold resume
  split
  · split <;> simp [finish, status?]
  · next running =>
    unfold status?
    split <;> simp_all

end Process

namespace ProcessTable

open Host (firstPid)

/-- What the outside may do, and what holds of the numbers of processes. Only processes that are
`gone` are ever reaped by someone else than their parent. -/
structure Sound (gone : Int → Prop) (s : ProcessTable) : Prop where
  distinct : (s.processes.map Process.pid).Nodup
  below : ∀ p ∈ s.processes, p.pid < s.nextPid
  own : ∀ p ∈ s.processes, 0 < p.pid ∧ p.pid ≠ firstPid
  first : firstPid < s.nextPid
  takes : ∀ batch ∈ s.outside, ∀ pid, Event.taken pid ∈ batch → gone pid

/-- One table goes over into another while the session itself starts and reaps nothing: its
children stay, as far as they are not reaped by someone else, and there are no new ones. -/
structure Evolves (gone : Int → Prop) (s t : ProcessTable) : Prop where
  sound : t.Sound gone
  origin : ∀ q ∈ t.processes, q.parent = firstPid → ∃ p ∈ s.processes, p.Becomes q
  kept : ∀ p ∈ s.processes, p.parent = firstPid → ¬ gone p.pid → ∃ q ∈ t.processes, p.Becomes q
  next : s.nextPid ≤ t.nextPid
  offered : t.offered.Sublist s.offered

variable {gone : Int → Prop} {s t u : ProcessTable}

namespace Evolves

theorem refl (h : s.Sound gone) : Evolves gone s s where
  sound := h
  origin q hq _ := ⟨q, hq, .refl q⟩
  kept p hp _ _ := ⟨p, hp, .refl p⟩
  next := Int.le_refl _
  offered := .refl _

theorem trans (h : Evolves gone s t) (h' : Evolves gone t u) : Evolves gone s u where
  sound := h'.sound
  origin r hr own := by
    obtain ⟨q, hq, becomes'⟩ := h'.origin r hr own
    obtain ⟨p, hp, becomes⟩ := h.origin q hq (becomes'.parent ▸ own)
    exact ⟨p, hp, becomes.trans becomes'⟩
  kept p hp own here := by
    obtain ⟨q, hq, becomes⟩ := h.kept p hp own here
    obtain ⟨r, hr, becomes'⟩ := h'.kept q hq (becomes.parent.trans own) (becomes.pid ▸ here)
    exact ⟨r, hr, becomes.trans becomes'⟩
  next := Int.le_trans h.next h'.next
  offered := h'.offered.trans h.offered

end Evolves

/-! ### Processes that change -/

theorem mem_update {pid : Int} {f : Process → Process} {q : Process}
    (hq : q ∈ (s.update pid f).processes) :
    ∃ p ∈ s.processes, p.pid = pid ∧ q = f p ∨ p.pid ≠ pid ∧ q = p := by
  obtain ⟨p, hp, rfl⟩ := List.mem_map.1 hq
  refine ⟨p, hp, ?_⟩
  split
  · next same => exact .inl ⟨same, rfl⟩
  · next other => exact .inr ⟨other, rfl⟩

theorem Sound.map (h : s.Sound gone) {f : Process → Process}
    (pid : ∀ p ∈ s.processes, (f p).pid = p.pid) :
    Sound gone { s with processes := s.processes.map f } where
  distinct := by
    have same : (s.processes.map f).map Process.pid = s.processes.map Process.pid := by
      simpa using pid
    exact same ▸ h.distinct
  below := by
    intro q hq
    obtain ⟨p, hp, rfl⟩ := List.mem_map.1 hq
    exact pid p hp ▸ h.below p hp
  own := by
    intro q hq
    obtain ⟨p, hp, rfl⟩ := List.mem_map.1 hq
    exact pid p hp ▸ h.own p hp
  first := h.first
  takes := h.takes

/-- Processes may change in any way that their parent learns of, and others than the session's
children in any way at all. -/
theorem evolves_map (h : s.Sound gone) {f : Process → Process}
    (pid : ∀ p ∈ s.processes, (f p).pid = p.pid)
    (becomes : ∀ p ∈ s.processes, p.parent = firstPid → p.Becomes (f p))
    (foreign : ∀ p ∈ s.processes, p.parent ≠ firstPid → (f p).parent ≠ firstPid) :
    Evolves gone s { s with processes := s.processes.map f } where
  sound := h.map pid
  origin := by
    intro q hq own
    obtain ⟨p, hp, rfl⟩ := List.mem_map.1 hq
    exact ⟨p, hp, becomes p hp (by_contra fun ne => foreign p hp ne own)⟩
  kept p hp own _ := ⟨f p, List.mem_map_of_mem hp, becomes p hp own⟩
  next := Int.le_refl _
  offered := .refl _

theorem evolves_map_of_becomes (h : s.Sound gone) {f : Process → Process}
    (becomes : ∀ p : Process, p.Becomes (f p)) :
    Evolves gone s { s with processes := s.processes.map f } :=
  evolves_map h (fun p _ => (becomes p).pid) (fun p _ _ => becomes p)
    fun p _ ne => (becomes p).parent ▸ ne

theorem evolves_update (h : s.Sound gone) (pid : Int) {f : Process → Process}
    (becomes : ∀ p : Process, p.Becomes (f p)) : Evolves gone s (s.update pid f) := by
  refine evolves_map_of_becomes h fun p => ?_
  split
  · exact becomes p
  · exact .refl p

/-! ### Processes that go -/

theorem Sound.filter (h : s.Sound gone) (keep : Process → Bool) :
    Sound gone { s with processes := s.processes.filter keep } where
  distinct := h.distinct.sublist (List.filter_sublist.map _)
  below p hp := h.below p (List.mem_of_mem_filter hp)
  own p hp := h.own p (List.mem_of_mem_filter hp)
  first := h.first
  takes := h.takes

theorem evolves_filter (h : s.Sound gone) {keep : Process → Bool}
    (lost : ∀ p ∈ s.processes, p.parent = firstPid → keep p = false → gone p.pid) :
    Evolves gone s { s with processes := s.processes.filter keep } where
  sound := h.filter keep
  origin q hq _ := ⟨q, List.mem_of_mem_filter hq, .refl q⟩
  kept p hp own here := by
    refine ⟨p, List.mem_filter.2 ⟨hp, ?_⟩, .refl p⟩
    by_contra out
    exact here (lost p hp own (by simpa using out))
  next := Int.le_refl _
  offered := .refl _

theorem evolves_drop (h : s.Sound gone) {pid : Int}
    (lost : ∀ p ∈ s.processes, p.pid = pid → p.parent = firstPid → gone pid) :
    Evolves gone s (s.drop pid) := by
  refine evolves_filter h fun p hp own out => ?_
  have same : p.pid = pid := by simpa using out
  exact same ▸ lost p hp same own

theorem Sound.eq_of_pid (h : s.Sound gone) {p q : Process} (hp : p ∈ s.processes)
    (hq : q ∈ s.processes) (same : p.pid = q.pid) : p = q :=
  List.inj_on_of_nodup_map h.distinct hp hq same

/-- A process whose parent is not the session passes to another one, or is reaped. -/
theorem evolves_orphan (h : s.Sound gone) {parent : Int} (other : parent ≠ firstPid) :
    Evolves gone s (s.orphan parent) := by
  have reaped : Evolves gone s
      { s with processes := s.processes.filter fun p => !(p.parent = parent && p.isEnded) } := by
    refine evolves_filter h fun p _ own out => ?_
    simp only [Bool.not_eq_false', Bool.and_eq_true, decide_eq_true_eq] at out
    exact absurd (out.1.symm.trans own) other
  refine reaped.trans (evolves_map reaped.sound ?_ ?_ ?_)
  · intro p _
    split <;> rfl
  · intro p _ own
    rw [if_neg fun eq => other (eq.symm.trans own)]
    exact .refl p
  · intro p _ ne
    split
    · exact (by decide : (1 : Int) ≠ firstPid)
    · exact ne

/-! ### Events and signals -/

theorem evolves_applyEvent (h : s.Sound gone) {e : Event} (takes : ∀ pid, e = .taken pid → gone pid) :
    Evolves gone s (s.applyEvent e) := by
  cases e with
  | signal pid sig => exact evolves_update h pid fun p => p.becomes_receive sig
  | ends pid how =>
    refine evolves_update h pid fun p => ?_
    split
    · exact .refl p
    · exact p.becomes_finish how
  | taken pid => exact evolves_drop h fun _ _ _ _ => takes pid rfl

theorem evolves_events {batch : List Event} (h : s.Sound gone)
    (takes : ∀ pid, .taken pid ∈ batch → gone pid) :
    Evolves gone s (batch.foldl applyEvent s) := by
  induction batch generalizing s with
  | nil => exact .refl h
  | cons e batch ih =>
    have first := evolves_applyEvent h (e := e) fun pid he => takes pid (by simp [he])
    exact first.trans (ih first.sound fun pid he => takes pid (List.mem_cons_of_mem _ he))

theorem evolves_advance (h : s.Sound gone) : Evolves gone s s.advance := by
  unfold advance
  split
  · exact .refl h
  · next batch later outside =>
    have batches : ∀ b ∈ batch :: later, ∀ pid, Event.taken pid ∈ b → gone pid := outside ▸ h.takes
    have shifted : Evolves gone s { s with outside := later } :=
      { Evolves.refl h with
        sound := { h with takes := fun b hb => batches b (List.mem_cons_of_mem _ hb) } }
    exact shifted.trans (evolves_events shifted.sound (batches batch List.mem_cons_self))

theorem evolves_kill (h : s.Sound gone) (self target : Int) (signal : Option Signal) :
    Evolves gone s (s.kill self target signal).2 := by
  unfold kill
  have advanced := evolves_advance h
  dsimp only
  split
  · refine advanced.trans (evolves_map_of_becomes advanced.sound fun p => ?_)
    split
    · exact p.becomes_receive? signal
    · exact .refl p
  · exact advanced

theorem mem_kill {self target : Int} {signal : Option Signal} {q : Process}
    (hq : q ∈ (s.kill self target signal).2.processes) :
    ∃ p ∈ s.advance.processes,
      s.advance.reaches self target p.pid p.group = true ∧ q = p.receive? signal ∨
      s.advance.reaches self target p.pid p.group = false ∧ q = p := by
  unfold kill at hq
  dsimp only at hq
  split at hq
  · obtain ⟨p, hp, rfl⟩ := List.mem_map.1 hq
    refine ⟨p, hp, ?_⟩
    split
    · next reached => exact .inl ⟨reached, rfl⟩
    · next missed => exact .inr ⟨by simpa using missed, rfl⟩
  · next none =>
    refine ⟨q, hq, .inr ⟨?_, rfl⟩⟩
    simp only [Bool.or_eq_true, List.any_eq_true, not_or, not_exists] at none
    simpa using fun reached => none.1.1.1 q ⟨hq, reached⟩

/-- A signal sent to a process by its number reaches it. -/
theorem reaches_pid {pid : Int} (positive : 0 < pid) (self group : Int) :
    s.reaches self pid pid group = true := by
  simp [reaches, positive]

/-- A signal cannot be sent only if there is no process to receive it. -/
theorem ne_target_of_kill_error (h : s.Sound gone) {self target : Int} {signal : Option Signal}
    {e : Errno} (failed : (s.kill self target signal).1 = .error e) :
    ∀ p ∈ (s.kill self target signal).2.processes, p.pid ≠ target := by
  unfold kill at failed ⊢
  dsimp only at failed ⊢
  split at failed
  · cases failed
  · next none =>
    rw [if_neg none]
    rintro p hp rfl
    have positive := ((evolves_advance h).sound.own p hp).1
    simp only [Bool.or_eq_true, List.any_eq_true, not_or, not_exists] at none
    exact none.1.1.1 p ⟨hp, reaches_pid positive self p.group⟩

/-- A process that has been sent the signal to go on is not stopped. -/
theorem status?_ne_stopped_of_kill (h : s.Sound gone) (self pid : Int) :
    ∀ p ∈ (s.kill self pid (some .resume)).2.processes,
      p.pid = pid → p.status? ≠ some .stopped := by
  rintro q hq rfl
  have positive := ((evolves_kill h self q.pid (some .resume)).sound.own q hq).1
  obtain ⟨p, -, ⟨-, eq⟩ | ⟨missed, rfl⟩⟩ := mem_kill hq
  · rw [eq, Process.receive?, p.receive_resume]
    exact p.status?_resume_ne
  · simp [reaches_pid positive] at missed

theorem evolves_leave (h : s.Sound gone) (pid : Int) (status : Nat) :
    Evolves gone s (s.leave pid status) := by
  have later : Evolves gone s { s with lingering := s.lingering.tail } :=
    { Evolves.refl h with sound := { h with } }
  unfold leave
  dsimp only
  split
  · exact later
  · exact later.trans (evolves_applyEvent later.sound nofun)

/-! ### New processes -/

theorem Sound.freshPid_spec (h : s.Sound gone) :
    (∀ p ∈ s.processes, p.pid ≠ s.freshPid) ∧ 0 < s.freshPid ∧ s.freshPid ≠ firstPid := by
  have beyond : (∀ p ∈ s.processes, p.pid ≠ s.nextPid) ∧ 0 < s.nextPid ∧ s.nextPid ≠ firstPid := by
    refine ⟨fun p hp => Int.ne_of_lt (h.below p hp), ?_, Int.ne_of_gt h.first⟩
    exact Int.lt_trans (by decide) h.first
  obtain ⟨_, -, free⟩ | ⟨-, next⟩ := s.freshPid_cases
  · simp only [isFree, isSteady, Bool.and_eq_true, Bool.not_eq_true', Bool.or_eq_false_iff,
      decide_eq_true_eq, decide_eq_false_iff_not, List.all_eq_true] at free
    exact ⟨free.2, free.1.1, free.1.2.2⟩
  · exact next ▸ beyond

theorem sound_spawn (h : s.Sound gone) (parent : Int) (ownGroup : Bool) :
    (s.spawn parent ownGroup).2.Sound gone where
  distinct := by
    simp only [spawn, List.map_append, List.map_cons, List.map_nil]
    refine List.nodup_append.2 ⟨h.distinct, List.nodup_singleton _, ?_⟩
    intro pid hpid fresh hfresh
    obtain ⟨p, hp, rfl⟩ := List.mem_map.1 hpid
    rw [List.mem_singleton.1 hfresh]
    exact h.freshPid_spec.1 p hp
  below := by
    intro p hp
    rcases List.mem_append.1 hp with hp | hp
    · have := h.below p hp
      simp only [spawn]
      omega
    · rw [List.mem_singleton.1 hp]
      simp only [spawn]
      omega
  own := by
    intro p hp
    rcases List.mem_append.1 hp with hp | hp
    · exact h.own p hp
    · rw [List.mem_singleton.1 hp]
      exact h.freshPid_spec.2
  first := Int.lt_of_lt_of_le h.first (Int.le_max_left _ _)
  takes := h.takes

theorem evolves_spawn (h : s.Sound gone) {parent : Int} (other : parent ≠ firstPid)
    (ownGroup : Bool) : Evolves gone s (s.spawn parent ownGroup).2 where
  sound := sound_spawn h parent ownGroup
  origin := by
    intro q hq own
    rcases List.mem_append.1 hq with hq | hq
    · exact ⟨q, hq, .refl q⟩
    · rw [List.mem_singleton.1 hq] at own
      exact absurd own other
  kept p hp _ _ := ⟨p, List.mem_append_left _ hp, .refl p⟩
  next := Int.le_max_left _ _
  offered := (List.tail_sublist _).trans (List.dropWhile_sublist _)

/-! ### Waiting -/

theorem child?_eq_some {self pid : Int} {p : Process} (found : s.child? self pid = some p) :
    p ∈ s.processes ∧ p.pid = pid ∧ p.parent = self := by
  have holds := List.find?_some found
  simp only [Bool.and_eq_true, decide_eq_true_eq] at holds
  exact ⟨List.mem_of_find?_eq_some found, holds⟩

theorem child?_eq_none {self pid : Int} (none : s.child? self pid = none) :
    ∀ p ∈ s.processes, p.pid = pid → p.parent ≠ self := by
  intro p hp same
  have fails := List.find?_eq_none.1 none p hp
  simpa [same] using fails

/-- What a wait finds when it returns. -/
inductive Collected (self pid : Int) (s : ProcessTable) :
    Except Errno Outcome × ProcessTable → Prop where
  | missing (none : s.child? self pid = none) : Collected self pid s (.error .noChild, s)
  | ended {p : Process} {told : Except Errno Outcome} (found : s.child? self pid = some p)
    (end_ : ∀ sig, told ≠ .ok (.stopped sig)) : Collected self pid s (told, s.drop pid)
  | stopped {p : Process} {sig : Signal} (found : s.child? self pid = some p)
    (stop : p.status? = some .stopped) :
    Collected self pid s (.ok (.stopped sig), s.update pid Process.told)

theorem collected_of_collect? {self pid : Int} {r : Except Errno Outcome × ProcessTable}
    (found : s.collect? self pid = some r) : Collected self pid s r := by
  unfold collect? at found
  split at found
  · next none =>
    cases found
    exact .missing none
  · next p child =>
    split at found
    · next how _ =>
      cases found
      exact .ended child (by cases how <;> simp [Outcome.ofEnding])
    · next phase =>
      split at found
      · cases found
        exact .stopped child (by simp [Process.status?, phase])
      · cases found
    · cases found

theorem exists_child_of_collect?_none {self pid : Int} (none : s.collect? self pid = none) :
    ∃ p, s.child? self pid = some p := by
  unfold collect? at none
  split at none
  · cases none
  · next p child => exact ⟨p, child⟩

/-- A wait lets events happen until there is something to collect. -/
theorem waitThrough_collected (h : s.Sound gone) (self pid : Int) (batches : List (List Event)) :
    ∃ t, Evolves gone s t ∧ Collected self pid t (waitThrough self pid batches s) := by
  induction batches generalizing s with
  | nil =>
    refine ⟨s, .refl h, ?_⟩
    unfold waitThrough
    cases found : s.collect? self pid with
    | some r => exact collected_of_collect? found
    | none =>
      obtain ⟨p, child⟩ := exists_child_of_collect?_none found
      exact .ended child (by simp)
  | cons _ batches ih =>
    have advanced := evolves_advance h
    unfold waitThrough
    dsimp only
    cases found : s.advance.collect? self pid with
    | some r => exact ⟨s.advance, advanced, collected_of_collect? found⟩
    | none =>
      obtain ⟨t, evolves, collected⟩ := ih advanced.sound
      exact ⟨t, advanced.trans evolves, collected⟩

theorem wait_collected (h : s.Sound gone) (self pid : Int) :
    ∃ t, Evolves gone s t ∧ Collected self pid t (s.wait self pid) :=
  waitThrough_collected h self pid s.outside

/-- What someone else than the session collects is no child of the session. -/
theorem evolves_wait (h : s.Sound gone) {self : Int} (other : self ≠ firstPid) (pid : Int) :
    Evolves gone s (s.wait self pid).2 := by
  obtain ⟨t, evolves, collected⟩ := wait_collected h self pid
  have foreign {p q : Process} (found : t.child? self pid = some p) (hq : q ∈ t.processes)
      (same : q.pid = pid) : q.parent ≠ firstPid := by
    obtain ⟨hp, hpid, parent⟩ := child?_eq_some found
    rw [evolves.sound.eq_of_pid hq hp (same.trans hpid.symm), parent]
    exact other
  generalize s.wait self pid = r at collected
  cases collected with
  | missing => exact evolves
  | ended found =>
    refine evolves.trans (evolves_drop evolves.sound fun q hq same own => ?_)
    exact absurd own (foreign found hq same)
  | stopped found =>
    refine evolves.trans (evolves_map evolves.sound ?_ ?_ ?_)
    · intro q _
      split <;> rfl
    · intro q hq own
      rw [if_neg fun same => foreign found hq same own]
      exact .refl q
    · intro q _ ne
      split <;> exact ne

end ProcessTable
end JobShell
