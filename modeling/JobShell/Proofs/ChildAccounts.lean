import JobShell.Proofs.ProcessChanges

/-! A table of jobs that accounts for the children of its session: every child is listed once,
and what is noted of it is right as far as the session has been told. -/
namespace JobShell

open Host (firstPid)

namespace JobTable

/-- The jobs stand in the order of their registration. -/
structure Ordered (t : JobTable) : Prop where
  ascending : t.jobs.Pairwise (·.id < ·.id)
  below : ∀ j ∈ t.jobs, j.id < t.next

theorem ordered_empty : empty.Ordered := ⟨.nil, nofun⟩

namespace Ordered

variable {t : JobTable} (h : t.Ordered)
include h

theorem add (pid : Int) (command : String) (status : Job.Status) :
    (t.add pid command status).Ordered where
  ascending := by
    refine List.pairwise_append.2 ⟨h.ascending, List.pairwise_singleton _ _, ?_⟩
    intro j hj new hnew
    rw [List.mem_singleton.1 hnew]
    exact h.below j hj
  below := by
    intro j hj
    rcases List.mem_append.1 hj with hj | hj
    · exact Nat.lt_succ_of_lt (h.below j hj)
    · rw [List.mem_singleton.1 hj]
      exact Nat.lt_succ_self _

/-- Taking out jobs and changing what is noted of them leaves the order alone. -/
theorem of_sublist {jobs : List Job} (sublist : (jobs.map Job.id).Sublist (t.jobs.map Job.id)) :
    Ordered { t with jobs } where
  ascending := by
    have ids : (t.jobs.map Job.id).Pairwise (· < ·) := List.pairwise_map.2 h.ascending
    exact List.pairwise_map.1 (ids.sublist sublist)
  below := by
    intro j hj
    obtain ⟨k, hk, same⟩ := List.mem_map.1 (sublist.subset (List.mem_map_of_mem hj))
    exact same ▸ h.below k hk

end Ordered

/-- If no two jobs have the same process, the first one of a process is all of them. -/
theorem setStatus_go {jobs : List Job} (distinct : (jobs.map Job.pid).Nodup) (pid : Int)
    (status : Job.Status) :
    setStatus.go pid status jobs =
      jobs.map fun j => if j.pid = pid then { j with status } else j := by
  induction jobs with
  | nil => rfl
  | cons j jobs ih =>
    obtain ⟨apart, distinct⟩ := List.nodup_cons.1 distinct
    rw [setStatus.go, List.map_cons, ← ih distinct]
    split
    · next same =>
      have others : ∀ k ∈ jobs, (if k.pid = pid then { k with status } else k) = k := by
        intro k hk
        rw [if_neg]
        rintro rfl
        exact apart (same ▸ List.mem_map_of_mem hk)
      rw [ih distinct, List.map_congr_left others, List.map_id']
    · rfl

theorem map_id_setStatus_go (pid : Int) (status : Job.Status) (jobs : List Job) :
    (setStatus.go pid status jobs).map Job.id = jobs.map Job.id := by
  induction jobs with
  | nil => rfl
  | cons j jobs ih =>
    rw [setStatus.go]
    split
    · rfl
    · rw [List.map_cons, ih, List.map_cons]

theorem Ordered.setStatus {t : JobTable} (h : t.Ordered) (pid : Int) (status : Job.Status) :
    (t.setStatus pid status).Ordered :=
  h.of_sublist (map_id_setStatus_go pid status t.jobs ▸ List.Sublist.refl _)

end JobTable

namespace ProcessTable

/-- Some numbers are those of the children of the session, and of children that are gone. The number
of a process that is gone is not registered and on offer at once, nor on offer more than once. -/
structure Registers (gone : Int → Prop) (pids : List Int) (s : ProcessTable) : Prop where
  sound : s.Sound gone
  distinct : pids.Nodup
  listed : ∀ p ∈ s.processes, p.parent = firstPid → p.pid ∈ pids
  present : ∀ pid ∈ pids, ¬ gone pid → ∃ p ∈ s.processes, p.parent = firstPid ∧ p.pid = pid
  past : ∀ pid ∈ pids, pid < s.nextPid
  once : ∀ pid, gone pid → (pids ++ s.offered).count pid ≤ 1

namespace Registers

variable {gone : Int → Prop} {pids : List Int} {s t : ProcessTable}

theorem initial (sound : s.Sound gone) (none : s.processes = []) (closed : s.offered = []) :
    Registers gone [] s where
  sound := sound
  distinct := .nil
  listed p hp := by simp [none] at hp
  present := nofun
  past := nofun
  once pid _ := by simp [closed]

theorem perm {pids' : List Int} (h : Registers gone pids s) (perm : pids.Perm pids') :
    Registers gone pids' s where
  sound := h.sound
  distinct := perm.nodup_iff.1 h.distinct
  listed p hp own := perm.mem_iff.1 (h.listed p hp own)
  present pid hpid := h.present pid (perm.mem_iff.2 hpid)
  past pid hpid := h.past pid (perm.mem_iff.2 hpid)
  once pid lost := (perm.append_right _).count_eq pid ▸ h.once pid lost

theorem evolves (h : Registers gone pids s) (e : Evolves gone s t) : Registers gone pids t where
  sound := e.sound
  distinct := h.distinct
  listed q hq own := by
    obtain ⟨p, hp, becomes⟩ := e.origin q hq own
    exact becomes.pid ▸ h.listed p hp (becomes.parent ▸ own)
  present pid hpid here := by
    obtain ⟨p, hp, own, rfl⟩ := h.present pid hpid here
    obtain ⟨q, hq, becomes⟩ := e.kept p hp own here
    exact ⟨q, hq, becomes.parent.trans own, becomes.pid⟩
  past pid hpid := Int.lt_of_lt_of_le (h.past pid hpid) e.next
  once pid lost := Nat.le_trans ((e.offered.append_left pids).count_le pid) (h.once pid lost)

/-- A new process gets a number that is not registered, be its process there still or not. -/
theorem freshPid_not_mem (h : Registers gone pids s) : s.freshPid ∉ pids := by
  intro listed
  by_cases lost : gone s.freshPid
  · obtain ⟨rest, offers, -⟩ | ⟨-, beyond⟩ := s.freshPid_cases
    · -- The number would stand among those listed and among those on offer.
      have offered : s.freshPid ∈ s.offered := by
        refine (List.dropWhile_sublist (!s.isFree ·)).mem ?_
        rw [← freeOffers, offers]
        exact List.mem_cons_self
      have twice := h.once _ lost
      rw [List.count_append] at twice
      have := List.count_pos_iff.2 listed
      have := List.count_pos_iff.2 offered
      omega
    · have := h.past _ listed
      omega
  · obtain ⟨p, hp, -, same⟩ := h.present _ listed lost
    exact h.sound.freshPid_spec.1 p hp same

theorem nodup_freshPid (h : Registers gone pids s) : (pids ++ [s.freshPid]).Nodup := by
  refine List.nodup_append.2 ⟨h.distinct, List.nodup_singleton _, ?_⟩
  intro pid hpid new hnew eq
  rw [List.mem_singleton.1 hnew] at eq
  exact h.freshPid_not_mem (eq ▸ hpid)

theorem spawn (h : Registers gone pids s) (ownGroup : Bool) :
    Registers gone (pids ++ [s.freshPid]) (s.spawn firstPid ownGroup).2 where
  sound := sound_spawn h.sound firstPid ownGroup
  distinct := h.nodup_freshPid
  listed p hp own := by
    rcases List.mem_append.1 hp with hp | hp
    · exact List.mem_append_left _ (h.listed p hp own)
    · rw [List.mem_singleton.1 hp]
      exact List.mem_append_right _ (List.mem_singleton_self _)
  present pid hpid here := by
    rcases List.mem_append.1 hpid with hpid | hpid
    · obtain ⟨p, hp, child⟩ := h.present pid hpid here
      exact ⟨p, List.mem_append_left _ hp, child⟩
    · rw [List.mem_singleton.1 hpid]
      exact ⟨_, List.mem_append_right _ (List.mem_singleton_self _), rfl, rfl⟩
  past pid hpid := by
    rcases List.mem_append.1 hpid with hpid | hpid
    · exact Int.lt_of_lt_of_le (h.past pid hpid) (Int.le_max_left _ _)
    · rw [List.mem_singleton.1 hpid]
      exact Int.lt_of_lt_of_le (Int.lt_succ _) (Int.le_max_right _ _)
  once pid lost := by
    change (pids ++ [s.freshPid] ++ s.freeOffers.tail).count pid ≤ 1
    obtain ⟨rest, offers, -⟩ | ⟨offers, -⟩ := s.freshPid_cases
    · -- The number passes from those on offer to those that are registered.
      have fewer : (s.freshPid :: rest).Sublist s.offered := offers ▸ List.dropWhile_sublist _
      rw [offers, List.tail_cons, List.append_assoc, List.singleton_append]
      exact Nat.le_trans ((fewer.append_left pids).count_le pid) (h.once pid lost)
    · rw [offers, List.tail_nil, List.append_nil]
      exact List.nodup_iff_count_le_one.1 h.nodup_freshPid pid

/-- A number without a child is registered to no end. -/
theorem forget {pid : Int} (h : Registers gone (pid :: pids) s)
    (none : ∀ p ∈ s.processes, p.pid = pid → p.parent ≠ firstPid) : Registers gone pids s where
  sound := h.sound
  distinct := (List.nodup_cons.1 h.distinct).2
  listed p hp own := by
    rcases List.mem_cons.1 (h.listed p hp own) with same | listed
    · exact absurd own (none p hp same)
    · exact listed
  present pid hpid := h.present pid (List.mem_cons_of_mem _ hpid)
  past pid hpid := h.past pid (List.mem_cons_of_mem _ hpid)
  once q lost := Nat.le_trans List.count_le_count_cons (h.once q lost)

/-- A child that is reaped has been registered for the last time. -/
theorem drop {pid : Int} (h : Registers gone (pid :: pids) s) : Registers gone pids (s.drop pid) where
  sound := h.sound.filter _
  distinct := (List.nodup_cons.1 h.distinct).2
  listed p hp own := by
    obtain ⟨hp, other⟩ := List.mem_filter.1 hp
    rcases List.mem_cons.1 (h.listed p hp own) with same | listed
    · simp [same] at other
    · exact listed
  present q hq here := by
    obtain ⟨p, hp, own, rfl⟩ := h.present q (List.mem_cons_of_mem _ hq) here
    refine ⟨p, List.mem_filter.2 ⟨hp, ?_⟩, own, rfl⟩
    have other : p.pid ≠ pid := fun eq => (List.nodup_cons.1 h.distinct).1 (eq ▸ hq)
    simpa using other
  past q hq := h.past q (List.mem_cons_of_mem _ hq)
  once q lost := Nat.le_trans List.count_le_count_cons (h.once q lost)

/-- Telling a parent of a child changes no numbers. -/
theorem told (h : Registers gone pids s) (pid : Int) :
    Registers gone pids (s.update pid Process.told) where
  sound := h.sound.map fun p _ => by split <;> rfl
  distinct := h.distinct
  listed q hq own := by
    obtain ⟨p, hp, ⟨-, rfl⟩ | ⟨-, rfl⟩⟩ := mem_update hq
    · exact h.listed p hp own
    · exact h.listed q hp own
  present q hq here := by
    obtain ⟨p, hp, own, rfl⟩ := h.present q hq here
    refine ⟨_, List.mem_map_of_mem hp, ?_, ?_⟩
    · split
      · exact own
      · exact own
    · split <;> rfl
  past := h.past
  once := h.once

end Registers
end ProcessTable

/-- A table accounts for the children of its session other than those that are waited for. -/
structure Accounts (gone : Int → Prop) (t : JobTable) (pending : List Int) (s : ProcessTable) :
    Prop where
  registers : s.Registers gone (t.jobs.map Job.pid ++ pending)
  noted : ∀ j ∈ t.jobs, ∀ p ∈ s.processes, p.parent = firstPid → p.pid = j.pid → p.Suits j.status
  ordered : t.Ordered

namespace Accounts

open ProcessTable

variable {gone : Int → Prop} {t : JobTable} {pending : List Int} {pid : Int} {s u : ProcessTable}

theorem sound (h : Accounts gone t pending s) : s.Sound gone := h.registers.sound

theorem distinct (h : Accounts gone t pending s) : (t.jobs.map Job.pid).Nodup :=
  h.registers.distinct.of_append_left

theorem evolves (h : Accounts gone t pending s) (e : Evolves gone s u) :
    Accounts gone t pending u where
  registers := h.registers.evolves e
  noted j hj q hq own same := by
    obtain ⟨p, hp, becomes⟩ := e.origin q hq own
    exact becomes.suits _ (h.noted j hj p hp (becomes.parent ▸ own) (becomes.pid ▸ same))
  ordered := h.ordered

theorem spawn (h : Accounts gone t pending s) (ownGroup : Bool) :
    Accounts gone t (pending ++ [s.freshPid]) (s.spawn firstPid ownGroup).2 where
  registers := by
    rw [← List.append_assoc]
    exact h.registers.spawn ownGroup
  noted j hj p hp own same := by
    rcases List.mem_append.1 hp with hp | hp
    · exact h.noted j hj p hp own same
    · rw [List.mem_singleton.1 hp] at same
      have listed : s.freshPid ∈ t.jobs.map Job.pid := List.mem_map.2 ⟨j, hj, same.symm⟩
      exact absurd (List.mem_append_left _ listed) h.registers.freshPid_not_mem
  ordered := h.ordered

/-- A pending process becomes a job under a status that suits it. -/
theorem add (h : Accounts gone t (pid :: pending) s) (command : String) {status : Job.Status}
    (suits : ∀ p ∈ s.processes, p.parent = firstPid → p.pid = pid → p.Suits status) :
    Accounts gone (t.add pid command status) pending s where
  registers := by
    have same : (t.add pid command status).jobs.map Job.pid ++ pending =
        t.jobs.map Job.pid ++ pid :: pending := by simp [JobTable.add]
    exact same ▸ h.registers
  noted j hj := by
    rcases List.mem_append.1 hj with hj | hj
    · exact h.noted j hj
    · rw [List.mem_singleton.1 hj]
      exact suits
  ordered := h.ordered.add pid command status

/-- A job that is taken out of the table leaves a process to be waited for. -/
theorem withdraw {before after : List Job} {j : Job}
    (h : Accounts gone { t with jobs := before ++ j :: after } pending s) :
    Accounts gone { t with jobs := before ++ after } (j.pid :: pending) s where
  registers := by
    refine h.registers.perm ?_
    simp only [List.map_append, List.map_cons, List.append_assoc, List.cons_append]
    exact List.Perm.append_left _ List.perm_middle.symm
  noted i hi := by
    refine h.noted i ?_
    rcases List.mem_append.1 hi with hi | hi
    · exact List.mem_append_left _ hi
    · exact List.mem_append_right _ (List.mem_cons_of_mem _ hi)
  ordered := by
    have fewer : (before ++ after).Sublist (before ++ j :: after) :=
      (List.Sublist.refl before).append (List.sublist_cons_self j after)
    exact h.ordered.of_sublist (fewer.map _)

theorem removeByPid (h : Accounts gone t pending s) {j : Job} (hj : j ∈ t.jobs) :
    Accounts gone (t.removeByPid j.pid) (j.pid :: pending) s := by
  obtain ⟨k, before, after, -, same, split, erased⟩ :=
    List.exists_of_eraseP (p := fun k : Job => k.pid = j.pid) hj (by simp)
  have same : k.pid = j.pid := by simpa using same
  have jobs : t.removeByPid j.pid = { t with jobs := before ++ after } := by
    rw [JobTable.removeByPid, erased]
  rw [jobs, ← same]
  exact withdraw (split ▸ h)

/-- A job is noted under another status that suits its process. -/
theorem renote {before after : List Job} {j : Job} {status : Job.Status}
    (h : Accounts gone { t with jobs := before ++ j :: after } pending s)
    (suits : ∀ p ∈ s.processes, p.parent = firstPid → p.pid = j.pid → p.Suits status) :
    Accounts gone { t with jobs := before ++ { j with status } :: after } pending s where
  registers := by simpa using h.registers
  noted i hi := by
    rcases List.mem_append.1 hi with hi | hi
    · exact h.noted i (List.mem_append_left _ hi)
    rcases List.mem_cons.1 hi with rfl | hi
    · exact suits
    · exact h.noted i (List.mem_append_right _ (List.mem_cons_of_mem _ hi))
  ordered := by
    have same : ((before ++ { j with status } :: after).map Job.id).Sublist
        ((before ++ j :: after).map Job.id) := by simp
    exact h.ordered.of_sublist same

theorem setStatus (h : Accounts gone t pending s) (pid : Int) {status : Job.Status}
    (suits : ∀ p ∈ s.processes, p.parent = firstPid → p.pid = pid → p.Suits status) :
    Accounts gone (t.setStatus pid status) pending s := by
  have jobs : (t.setStatus pid status).jobs =
      t.jobs.map fun j => if j.pid = pid then { j with status } else j :=
    JobTable.setStatus_go h.distinct pid status
  refine ⟨?_, ?_, h.ordered.setStatus pid status⟩
  · have pids : (t.setStatus pid status).jobs.map Job.pid = t.jobs.map Job.pid := by
      rw [jobs, List.map_map]
      refine List.map_congr_left fun j _ => ?_
      simp only [Function.comp]
      split <;> rfl
    exact pids ▸ h.registers
  · intro j hj
    rw [jobs] at hj
    obtain ⟨k, hk, rfl⟩ := List.mem_map.1 hj
    split
    · next same => exact same ▸ suits
    · exact h.noted k hk

theorem registers_pending (h : Accounts gone t (pid :: pending) s) :
    s.Registers gone (pid :: (t.jobs.map Job.pid ++ pending)) :=
  h.registers.perm List.perm_middle

theorem forget (h : Accounts gone t (pid :: pending) s)
    (none : ∀ p ∈ s.processes, p.pid = pid → p.parent ≠ firstPid) : Accounts gone t pending s :=
  { h with registers := h.registers_pending.forget none }

theorem drop (h : Accounts gone t (pid :: pending) s) : Accounts gone t pending (s.drop pid) where
  registers := h.registers_pending.drop
  noted j hj p hp := h.noted j hj p (List.mem_of_mem_filter hp)
  ordered := h.ordered

/-- Telling the session of a process that is noted as what it is changes nothing. -/
theorem told (h : Accounts gone t pending s) (pid : Int)
    (right : ∀ j ∈ t.jobs, j.pid = pid → ∀ p ∈ s.processes, p.parent = firstPid → p.pid = pid →
      p.status? = some j.status) :
    Accounts gone t pending (s.update pid Process.told) where
  registers := h.registers.told pid
  noted j hj q hq own same := by
    obtain ⟨p, hp, ⟨told, rfl⟩ | ⟨-, rfl⟩⟩ := mem_update hq
    · exact .inr (.inr (right j hj (same.symm.trans told) p hp own told))
    · exact h.noted j hj q hp own same
  ordered := h.ordered

/-- A process that is waited for has no job. -/
theorem ne_pending (h : Accounts gone t (pid :: pending) s) {j : Job} (hj : j ∈ t.jobs) :
    j.pid ≠ pid := by
  rintro rfl
  have listed : j.pid ∈ t.jobs.map Job.pid ++ pending :=
    List.mem_append_left _ (List.mem_map_of_mem hj)
  exact (List.nodup_cons.1 h.registers_pending.distinct).1 listed

/-- What has come of waiting for a process: it is reaped or has never been there, or it has stopped
and can be registered as a job. -/
theorem wait (h : Accounts gone t (pid :: pending) s) :
    match (s.wait firstPid pid).1 with
    | .ok (.stopped _) =>
      ∀ command, Accounts gone (t.add pid command .stopped) pending (s.wait firstPid pid).2
    | _ => Accounts gone t pending (s.wait firstPid pid).2 := by
  obtain ⟨u, evolves, collected⟩ := wait_collected h.sound firstPid pid
  have h := h.evolves evolves
  generalize s.wait firstPid pid = r at collected
  cases collected with
  | missing none => exact h.forget (child?_eq_none none)
  | @ended _ told _ end_ =>
    rcases told with e | outcome
    · exact h.drop
    · cases outcome with
      | stopped sig => exact absurd rfl (end_ sig)
      | exited | killed => exact h.drop
  | stopped found stop =>
    intro command
    refine (h.told pid fun j hj same => absurd same (h.ne_pending hj)).add command ?_
    intro q hq own same
    obtain ⟨p, hp, ⟨waited, rfl⟩ | ⟨other, rfl⟩⟩ := mem_update hq
    · obtain ⟨hc, pid', -⟩ := child?_eq_some found
      rw [← h.sound.eq_of_pid hp hc (waited.trans pid'.symm)] at stop
      exact .inr (.inr stop)
    · exact absurd same other

end Accounts
end JobShell
