import JobShell.Proofs.ReapPass
import JobShell.Proofs.TextBytes
import Mathlib.Data.List.Induction
import Mathlib.Data.List.Nodup

/-! A table of jobs after anything that may be done to it, with any processes. Numbers are given out
one after the other, and a job is found under its number until it is taken out. -/
namespace JobShell.JobTable

/-- What can be done to a table. A pass over all jobs may find the processes in any state. -/
inductive Act where
  | add (pid : Int) (command : String) (status : Job.Status)
  | remove (pid : Int)
  | setStatus (pid : Int) (status : Job.Status)
  | reap (self : Int) (host : Host)

def act (t : JobTable) : Act → JobTable
  | .add pid command status => t.add pid command status
  | .remove pid => t.removeByPid pid
  | .setStatus pid status => t.setStatus pid status
  | .reap self host => (t.reap self host).2.1

/-- The table after some acts, one after the other. -/
def acts (t : JobTable) (as : List Act) : JobTable := as.foldl act t

variable {t : JobTable}

/-! ### Numbers -/

/-- The number that an act gives out. -/
def Act.number? (t : JobTable) : Act → Option Nat
  | .add .. => some t.next
  | _ => none

theorem Act.number?_eq_some {a : Act} {n : Nat} (number : a.number? t = some n) : n = t.next := by
  cases a with
  | add => exact (Option.some.inj number).symm
  | remove | setStatus | reap => cases number

/-- The numbers that some acts give out in turn. -/
def numbers (t : JobTable) : List Act → List Nat
  | [] => []
  | a :: as => (a.number? t).toList ++ numbers (t.act a) as

def Act.registers : Act → Bool
  | .add .. => true
  | _ => false

theorem numbers_eq (t : JobTable) (as : List Act) :
    t.numbers as = List.range' t.next (as.countP Act.registers) ∧
      (t.acts as).next = t.next + as.countP Act.registers := by
  induction as generalizing t with
  | nil => exact ⟨rfl, rfl⟩
  | cons a as ih =>
    obtain ⟨numbers, next⟩ := ih (t.act a)
    rw [JobTable.numbers, numbers, acts, List.foldl_cons]
    change _ ∧ ((t.act a).acts as).next = _
    rw [next]
    cases a with
    | add pid command status =>
      rw [List.countP_cons_of_pos rfl, List.range'_succ]
      exact ⟨rfl, by simp only [act, add]; omega⟩
    | remove | setStatus | reap =>
      rw [List.countP_cons_of_neg (by simp [Act.registers])]
      exact ⟨rfl, rfl⟩

/-! ### The first job of a process -/

/-- The job of a process that was registered first of those still there. -/
structure IsFirst (t : JobTable) (pid : Int) (j : Job) : Prop where
  mem : j ∈ t.jobs
  pid_eq : j.pid = pid
  first : ∀ k ∈ t.jobs, k.pid = pid → j.id ≤ k.id

/-- The place of the first job of a process. -/
theorem exists_place {pid : Int} {j : Job} (found : t.findByPid pid = some j) :
    j.pid = pid ∧ ∃ front back, t.jobs = front ++ j :: back ∧ ∀ k ∈ front, k.pid ≠ pid := by
  obtain ⟨same, front, back, place, others⟩ := List.find?_eq_some_iff_append.1 found
  exact ⟨of_decide_eq_true same, front, back, place, fun k hk => by simpa using others k hk⟩

theorem setStatus_go_append {front : List Job} {pid : Int} (others : ∀ k ∈ front, k.pid ≠ pid)
    {j : Job} (same : j.pid = pid) (back : List Job) (status : Job.Status) :
    setStatus.go pid status (front ++ j :: back) = front ++ { j with status } :: back := by
  induction front with
  | nil => rw [List.nil_append, setStatus.go, if_pos same, List.nil_append]
  | cons k front ih =>
    rw [List.forall_mem_cons] at others
    rw [List.cons_append, setStatus.go, if_neg others.1, ih others.2, List.cons_append]

theorem setStatus_go_of_forall {jobs : List Job} {pid : Int} (others : ∀ k ∈ jobs, k.pid ≠ pid)
    (status : Job.Status) : setStatus.go pid status jobs = jobs := by
  induction jobs with
  | nil => rfl
  | cons k jobs ih =>
    rw [List.forall_mem_cons] at others
    rw [setStatus.go, if_neg others.1, ih others.2]

/-- Where no job is of a process there is nothing to take out or to change. -/
theorem findByPid_eq_none {pid : Int} (none : t.findByPid pid = none) (status : Job.Status) :
    t.removeByPid pid = t ∧ t.setStatus pid status = t := by
  have others : ∀ k ∈ t.jobs, k.pid ≠ pid := by simpa [findByPid] using none
  constructor
  · rw [removeByPid, List.eraseP_of_forall_not (by simpa using others)]
  · rw [setStatus, setStatus_go_of_forall others]

namespace Ordered

variable (h : t.Ordered)
include h

/-- Jobs in front of another one have lower numbers, those behind it higher ones. -/
theorem apart {front back : List Job} {j : Job} (place : t.jobs = front ++ j :: back) :
    (∀ k ∈ front, k.id < j.id) ∧ ∀ k ∈ back, j.id < k.id := by
  have ascending := place ▸ h.ascending
  rw [List.pairwise_append, List.pairwise_cons] at ascending
  exact ⟨fun k hk => ascending.2.2 k hk j List.mem_cons_self, ascending.2.1.1⟩

theorem nodup : (t.jobs.map Job.id).Nodup := (List.pairwise_map.2 h.ascending).imp Nat.ne_of_lt

theorem eq_of_id {j k : Job} (hj : j ∈ t.jobs) (hk : k ∈ t.jobs) (same : j.id = k.id) : j = k :=
  List.inj_on_of_nodup_map h.nodup hj hk same

theorem findById_eq_some_iff {id : Nat} {j : Job} :
    t.findById id = some j ↔ j ∈ t.jobs ∧ j.id = id := by
  constructor
  · intro found
    exact ⟨List.mem_of_find?_eq_some found, by simpa using List.find?_some found⟩
  · rintro ⟨hj, rfl⟩
    obtain ⟨k, found⟩ := Option.isSome_iff_exists.1
      (List.find?_isSome.2 ⟨j, hj, decide_eq_true rfl⟩ : (t.findById j.id).isSome = true)
    have same : k.id = j.id := by simpa using List.find?_some found
    rwa [h.eq_of_id (List.mem_of_find?_eq_some found) hj same] at found

theorem findByPid_eq_some_iff {pid : Int} {j : Job} :
    t.findByPid pid = some j ↔ t.IsFirst pid j := by
  have first {k : Job} (found : t.findByPid pid = some k) : t.IsFirst pid k := by
    obtain ⟨same, front, back, place, others⟩ := exists_place found
    refine ⟨List.mem_of_find?_eq_some found, same, fun i hi of => ?_⟩
    rw [place, List.mem_append, List.mem_cons] at hi
    obtain hi | rfl | hi := hi
    · exact absurd of (others i hi)
    · exact Nat.le_refl _
    · exact Nat.le_of_lt ((h.apart place).2 i hi)
  refine ⟨first, fun ⟨hj, same, least⟩ => ?_⟩
  obtain ⟨k, found⟩ := Option.isSome_iff_exists.1
    (List.find?_isSome.2 ⟨j, hj, decide_eq_true same⟩ : (t.findByPid pid).isSome = true)
  obtain ⟨hk, own, least'⟩ := first found
  rwa [h.eq_of_id hk hj (Nat.le_antisymm (least' j hj same) (least k hk own))] at found

/-- Of the jobs of a process the first one alone is taken out or changed. -/
theorem first_only {pid : Int} {j : Job} (found : t.findByPid pid = some j) (status : Job.Status) :
    t.removeByPid pid = { t with jobs := t.jobs.filter (·.id ≠ j.id) } ∧
    t.setStatus pid status =
      { t with jobs := t.jobs.map fun k => if k.id = j.id then { k with status } else k } := by
  obtain ⟨same, front, back, place, others⟩ := exists_place found
  obtain ⟨lower, higher⟩ := h.apart place
  have front_ne : ∀ k ∈ front, k.id ≠ j.id := fun k hk => Nat.ne_of_lt (lower k hk)
  have back_ne : ∀ k ∈ back, k.id ≠ j.id := fun k hk => Nat.ne_of_gt (higher k hk)
  constructor
  · have erased : t.jobs.eraseP (·.pid = pid) = front ++ back := by
      rw [place, List.eraseP_append_right _ (by simpa using others),
        List.eraseP_cons_of_pos (by simpa using same)]
    rw [removeByPid, erased, place, List.filter_append, List.filter_cons_of_neg (by simp),
      List.filter_eq_self.2 (by simpa using front_ne),
      List.filter_eq_self.2 (by simpa using back_ne)]
  · have unchanged {jobs : List Job} (apart : ∀ k ∈ jobs, k.id ≠ j.id) :
        (jobs.map fun k => if k.id = j.id then { k with status } else k) = jobs := by
      rw [List.map_congr_left fun k hk => if_neg (apart k hk), List.map_id']
    rw [JobTable.setStatus, place, setStatus_go_append others same, List.map_append, List.map_cons,
      if_pos rfl, unchanged front_ne, unchanged back_ne]

end Ordered

/-! ### The answers of a pass -/

/-- The jobs of a pass, each with the answer about its process. -/
def answers (self : Int) : List Job → ProcessTable → List (Job × Except Errno (Option Change))
  | [], _ => []
  | j :: js, s => (j, (s.poll self j.pid).1) :: answers self js (s.poll self j.pid).2

theorem map_fst_answers (self : Int) (jobs : List Job) (s : ProcessTable) :
    (answers self jobs s).map Prod.fst = jobs := by
  induction jobs generalizing s with
  | nil => rfl
  | cons j jobs ih => rw [answers, List.map_cons, ih]

theorem mem_of_mem_answers {self : Int} {jobs : List Job} {s : ProcessTable}
    {a : Job × Except Errno (Option Change)} (ha : a ∈ answers self jobs s) : a.1 ∈ jobs :=
  map_fst_answers self jobs s ▸ List.mem_map_of_mem ha

theorem reapJobs_jobs (self : Int) (jobs : List Job) (s : ProcessTable) :
    (reapJobs self jobs s).2.1 = (answers self jobs s).filterMap fun a => remaining a.1 a.2 := by
  induction jobs generalizing s with
  | nil => rfl
  | cons j jobs ih =>
    rw [reapJobs_cons, answers, List.filterMap_cons, ih]
    cases remaining j (s.poll self j.pid).1 <;> rfl

/-- An answer about a process that is over: it has ended, or it cannot be asked for. -/
def IsOver (answer : Except Errno (Option Change)) : Prop :=
  (∃ e, answer = .error e) ∨ ∃ how, answer = .ok (some (.ended how))

theorem remaining_cases (j : Job) (answer : Except Errno (Option Change)) :
    (IsOver answer ∧ remaining j answer = none) ∨
      ∃ status, ¬ IsOver answer ∧ remaining j answer = some { j with status } := by
  rcases answer with e | _ | how | _ | _
  · exact .inl ⟨.inl ⟨e, rfl⟩, rfl⟩
  · exact .inr ⟨j.status, by simp [IsOver], rfl⟩
  · exact .inl ⟨.inr ⟨how, rfl⟩, rfl⟩
  · exact .inr ⟨.stopped, by simp [IsOver], rfl⟩
  · exact .inr ⟨.running, by simp [IsOver], rfl⟩

theorem sublist_reapJobs (self : Int) (jobs : List Job) (s : ProcessTable) :
    ((reapJobs self jobs s).2.1.map Job.id).Sublist (jobs.map Job.id) := by
  induction jobs generalizing s with
  | nil => exact .slnil
  | cons j jobs ih =>
    rw [reapJobs_cons]
    obtain ⟨-, none⟩ | ⟨status, -, some⟩ := remaining_cases j (s.poll self j.pid).1
    · rw [none]
      exact (ih _).cons _
    · rw [some]
      exact (ih _).cons_cons _

/-! ### Jobs that are taken out -/

/-- An act takes out the job of a number: it is the first one of a process that is removed, or its
process turns out to be over in a pass. -/
def Act.TakesOut (t : JobTable) (id : Nat) : Act → Prop
  | .add .. | .setStatus .. => False
  | .remove pid => ∃ j, t.IsFirst pid j ∧ j.id = id
  | .reap self host => ∃ a ∈ answers self t.jobs host.toProcessTable, a.1.id = id ∧ IsOver a.2

/-- One of some acts takes out the job of a number. -/
def TakenOut (id : Nat) : JobTable → List Act → Prop
  | _, [] => False
  | t, a :: as => a.TakesOut t id ∨ TakenOut id (t.act a) as

namespace Ordered

variable (h : t.Ordered)
include h

theorem lt_of_takesOut {id : Nat} {a : Act} (out : a.TakesOut t id) : id < t.next := by
  cases a with
  | add | setStatus => exact out.elim
  | remove pid =>
    obtain ⟨j, first, rfl⟩ := out
    exact h.below j first.mem
  | reap self host =>
    obtain ⟨a, ha, rfl, -⟩ := out
    exact h.below a.1 (mem_of_mem_answers ha)

/-- A pass asks once for every number. -/
theorem eq_of_mem_answers {self : Int} {s : ProcessTable} {a b : Job × Except Errno (Option Change)}
    (ha : a ∈ answers self t.jobs s) (hb : b ∈ answers self t.jobs s) (same : a.1.id = b.1.id) :
    a = b := by
  have nodup := h.nodup
  rw [← map_fst_answers self t.jobs s, List.map_map] at nodup
  exact List.inj_on_of_nodup_map nodup ha hb same

/-- What an act leaves in the table is a new job with a new number, or an old one that is not taken
out, with at most another status. -/
theorem mem_act {k : Job} {a : Act} (hk : k ∈ (t.act a).jobs) :
    a.number? t = some k.id ∨
      ¬ a.TakesOut t k.id ∧ ∃ j ∈ t.jobs, k = { j with status := k.status } := by
  cases a with
  | add pid command status =>
    rcases List.mem_append.1 hk with hk | hk
    · exact .inr ⟨id, k, hk, rfl⟩
    · rw [List.mem_singleton.1 hk]
      exact .inl rfl
  | remove pid =>
    right
    cases found : t.findByPid pid with
    | none =>
      refine ⟨fun ⟨j, first, _⟩ => ?_, k, ?_, rfl⟩
      · cases found.symm.trans (h.findByPid_eq_some_iff.2 first)
      · rwa [act, (findByPid_eq_none found .running).1] at hk
    | some j =>
      rw [act, (h.first_only found .running).1, List.mem_filter] at hk
      refine ⟨fun ⟨i, first, same⟩ => ?_, k, hk.1, rfl⟩
      cases found.symm.trans (h.findByPid_eq_some_iff.2 first)
      simp [same] at hk
  | setStatus pid status =>
    refine .inr ⟨id, ?_⟩
    cases found : t.findByPid pid with
    | none =>
      rw [act, (findByPid_eq_none found status).2] at hk
      exact ⟨k, hk, rfl⟩
    | some j =>
      rw [act, (h.first_only found status).2] at hk
      obtain ⟨i, hi, rfl⟩ := List.mem_map.1 hk
      exact ⟨i, hi, by split <;> rfl⟩
  | reap self host =>
    right
    change k ∈ (reapJobs self t.jobs host.toProcessTable).2.1 at hk
    rw [reapJobs_jobs] at hk
    obtain ⟨⟨j, answer⟩, ha, left⟩ := List.mem_filterMap.1 hk
    obtain ⟨-, none⟩ | ⟨status, goes, some⟩ := remaining_cases j answer
    · cases none.symm.trans left
    · cases some.symm.trans left
      refine ⟨fun ⟨b, hb, same, ended⟩ => ?_, j, mem_of_mem_answers ha, rfl⟩
      cases h.eq_of_mem_answers hb ha same
      exact goes ended

theorem exists_mem_act {j : Job} (hj : j ∈ t.jobs) {a : Act} (stays : ¬ a.TakesOut t j.id) :
    ∃ status, { j with status } ∈ (t.act a).jobs := by
  cases a with
  | add pid command status => exact ⟨j.status, List.mem_append_left _ hj⟩
  | remove pid =>
    refine ⟨j.status, ?_⟩
    cases found : t.findByPid pid with
    | none => rwa [act, (findByPid_eq_none found .running).1]
    | some i =>
      rw [act, (h.first_only found .running).1, List.mem_filter]
      refine ⟨hj, decide_eq_true fun same => stays ⟨i, h.findByPid_eq_some_iff.1 found, same.symm⟩⟩
  | setStatus pid status =>
    cases found : t.findByPid pid with
    | none => exact ⟨j.status, by rwa [act, (findByPid_eq_none found status).2]⟩
    | some i =>
      rw [act, (h.first_only found status).2]
      refine ⟨if j.id = i.id then status else j.status, List.mem_map.2 ⟨j, hj, ?_⟩⟩
      split <;> rfl
  | reap self host =>
    rw [← map_fst_answers self t.jobs host.toProcessTable] at hj
    obtain ⟨⟨j, answer⟩, ha, rfl⟩ := List.mem_map.1 hj
    obtain ⟨ended, -⟩ | ⟨status, -, some⟩ := remaining_cases j answer
    · exact absurd ⟨_, ha, rfl, ended⟩ stays
    · refine ⟨status, ?_⟩
      change _ ∈ (reapJobs self t.jobs host.toProcessTable).2.1
      rw [reapJobs_jobs]
      exact List.mem_filterMap.2 ⟨_, ha, some⟩

theorem act (a : Act) : (t.act a).Ordered := by
  cases a with
  | add pid command status => exact h.add pid command status
  | remove pid => exact h.of_sublist (List.eraseP_sublist.map _)
  | setStatus pid status => exact h.setStatus pid status
  | reap self host => exact h.of_sublist (sublist_reapJobs self t.jobs host.toProcessTable)

theorem acts (as : List Act) : (t.acts as).Ordered := by
  induction as generalizing t with
  | nil => exact h
  | cons a as ih => exact ih (h.act a)

end Ordered

/-! ### Jobs under their numbers -/

theorem next_le_act (t : JobTable) (a : Act) : t.next ≤ (t.act a).next := by
  cases a with
  | add => exact Nat.le_succ _
  | remove | setStatus | reap => exact Nat.le_refl _

theorem findById_eq_none_iff {id : Nat} : t.findById id = none ↔ ∀ j ∈ t.jobs, j.id ≠ id := by
  simp [findById]

namespace Ordered

variable (h : t.Ordered) {id : Nat}
include h

/-- A number that has been given out and under which there is no job stays without one. -/
theorem findById_acts_eq_none (given : id < t.next) (none : t.findById id = none) (as : List Act) :
    (t.acts as).findById id = .none := by
  induction as generalizing t with
  | nil => exact none
  | cons a as ih =>
    refine ih (h.act a) (Nat.lt_of_lt_of_le given (t.next_le_act a)) ?_
    rw [findById_eq_none_iff] at none ⊢
    rintro k hk rfl
    obtain new | ⟨-, j, hj, same⟩ := h.mem_act hk
    · exact Nat.ne_of_lt given (Act.number?_eq_some new)
    · exact none j hj (congrArg Job.id same).symm

theorem findById_acts_of_takenOut {as : List Act} (out : TakenOut id t as) :
    (t.acts as).findById id = none := by
  induction as generalizing t with
  | nil => exact out.elim
  | cons a as ih =>
    obtain out | out := out
    · have given := h.lt_of_takesOut out
      refine (h.act a).findById_acts_eq_none (Nat.lt_of_lt_of_le given (t.next_le_act a)) ?_ as
      rw [findById_eq_none_iff]
      rintro k hk rfl
      obtain new | ⟨stays, -⟩ := h.mem_act hk
      · exact Nat.ne_of_lt given (Act.number?_eq_some new)
      · exact stays out
    · exact ih (h.act a) out

theorem findById_acts_of_stays {j : Job} (found : t.findById id = some j) {as : List Act}
    (stays : ¬ TakenOut id t as) : ∃ status, (t.acts as).findById id = some { j with status } := by
  induction as generalizing t j with
  | nil => exact ⟨j.status, found⟩
  | cons a as ih =>
    obtain ⟨here, later⟩ := not_or.1 stays
    obtain ⟨hj, rfl⟩ := h.findById_eq_some_iff.1 found
    obtain ⟨status, mem⟩ := h.exists_mem_act hj here
    exact ih (j := { j with status }) (h.act a) ((h.act a).findById_eq_some_iff.2 ⟨mem, rfl⟩) later

/-- There are jobs only under numbers that have been given out. -/
theorem mem_numbers {as : List Act} {k : Job} (hk : k ∈ (t.acts as).jobs) :
    (∃ j ∈ t.jobs, j.id = k.id) ∨ k.id ∈ t.numbers as := by
  induction as generalizing t with
  | nil => exact .inl ⟨k, hk, rfl⟩
  | cons a as ih =>
    rw [numbers, List.mem_append, Option.mem_toList]
    obtain ⟨i, hi, same⟩ | later := ih (h.act a) hk
    · obtain new | ⟨-, j, hj, was⟩ := h.mem_act hi
      · exact .inr (.inl (same ▸ new))
      · exact .inl ⟨j, hj, (congrArg Job.id was).symm.trans same⟩
    · exact .inr (.inr later)

end Ordered

/-! ### The last job and the listing -/

theorem Ordered.mostRecent_eq (h : t.Ordered) : t.mostRecent = t.jobs.getLast? := by
  have ascending := h.ascending
  rw [mostRecent]
  generalize t.jobs = jobs at ascending
  induction jobs using List.reverseRecOn with
  | nil => rfl
  | append_singleton jobs j ih =>
    rw [List.pairwise_append] at ascending
    rw [List.foldl_concat, ih ascending.1, List.getLast?_concat]
    cases last : jobs.getLast? with
    | none => rfl
    | some b =>
      have lower := ascending.2.2 b (List.mem_of_getLast? last) j (List.mem_singleton_self j)
      exact if_pos (Nat.le_of_lt lower)

theorem Ordered.mostRecent_eq_some_iff (h : t.Ordered) {j : Job} :
    t.mostRecent = some j ↔ j ∈ t.jobs ∧ ∀ k ∈ t.jobs, k.id ≤ j.id := by
  have last {k : Job} (found : t.mostRecent = some k) : k ∈ t.jobs ∧ ∀ i ∈ t.jobs, i.id ≤ k.id := by
    rw [h.mostRecent_eq] at found
    obtain ⟨front, place⟩ := List.getLast?_eq_some_iff.1 found
    refine ⟨List.mem_of_getLast? found, fun i hi => ?_⟩
    rw [place, List.mem_append, List.mem_singleton] at hi
    obtain hi | rfl := hi
    · exact Nat.le_of_lt ((h.apart place).1 i hi)
    · exact Nat.le_refl _
  refine ⟨last, fun ⟨hj, highest⟩ => ?_⟩
  cases found : t.mostRecent with
  | none =>
    rw [h.mostRecent_eq, List.getLast?_eq_none_iff] at found
    simp [found] at hj
  | some k =>
    obtain ⟨hk, highest'⟩ := last found
    rw [h.eq_of_id hk hj (Nat.le_antisymm (highest k hk) (highest' j hj))]

theorem before_iff {a b : Job} :
    before a b = true ↔ a.command < b.command ∨ a.command = b.command ∧ a.id ≤ b.id := by
  simp [before]

theorem list_perm (t : JobTable) : t.list.Perm t.jobs := List.mergeSort_perm _ _

theorem Ordered.pairwise_list (h : t.Ordered) :
    t.list.Pairwise fun a b => Bytes.ofString a.command < Bytes.ofString b.command ∨
      a.command = b.command ∧ a.id < b.id := by
  have sorted : t.list.Pairwise fun a b => before a b = true := by
    refine List.pairwise_mergeSort (fun a b c ab bc => ?_) (fun a b => ?_) t.jobs
    · rw [before_iff] at *
      obtain ab | ⟨ab, ids⟩ := ab <;> obtain bc | ⟨bc, ids'⟩ := bc
      · exact .inl (Std.lt_trans ab bc)
      · exact .inl (bc ▸ ab)
      · exact .inl (ab ▸ bc)
      · exact .inr ⟨ab.trans bc, Nat.le_trans ids ids'⟩
    · rw [Bool.or_eq_true, before_iff, before_iff]
      obtain less | same | less := Std.lt_trichotomy a.command b.command
      · exact .inl (.inl less)
      · obtain ids | ids := Nat.le_total a.id b.id
        · exact .inl (.inr ⟨same, ids⟩)
        · exact .inr (.inr ⟨same.symm, ids⟩)
      · exact .inr (.inl less)
  have nodup : (t.list.map Job.id).Nodup := (t.list_perm.map Job.id).nodup_iff.2 h.nodup
  refine (sorted.and (List.pairwise_map.1 nodup)).imp ?_
  rintro a b ⟨le, differ⟩
  exact (before_iff.1 le).imp Bytes.ofString_lt_iff.2
    fun ⟨same, ids⟩ => ⟨same, Nat.lt_of_le_of_ne ids differ⟩

/-! ### The whole table -/

/-- A table after anything that was done to it. Numbers are given out from one on, without a gap and
each once. A job is found under its number, with the process and the command it was registered with,
until it is taken out, and nothing from then on. Of several jobs of a process it is the one
registered first that is removed or changed. The last job is the one with the highest number, and
the listing has all jobs by their commands and numbers. -/
theorem table_follows_registrations (as : List Act) :
    let t := empty.acts as
    empty.numbers as = List.range' 1 (as.countP Act.registers) ∧
    t.jobs.Pairwise (·.id < ·.id) ∧ (∀ j ∈ t.jobs, j.id < t.next) ∧
    (∀ before pid command status after, as = before ++ .add pid command status :: after →
      let former := empty.acts before
      let id := former.next
      Act.number? former (.add pid command status) = some id ∧
      (¬ TakenOut id (former.add pid command status) after →
        ∃ status, t.findById id = some ⟨id, pid, command, status⟩) ∧
      (TakenOut id (former.add pid command status) after → t.findById id = none)) ∧
    (∀ id, id ∉ empty.numbers as → t.findById id = none) ∧
    (∀ pid j, t.findByPid pid = some j ↔ t.IsFirst pid j) ∧
    (∀ pid status, t.findByPid pid = none → t.removeByPid pid = t ∧ t.setStatus pid status = t) ∧
    (∀ pid status j, t.findByPid pid = some j →
      t.removeByPid pid = { t with jobs := t.jobs.filter (·.id ≠ j.id) } ∧
      t.setStatus pid status =
        { t with jobs := t.jobs.map fun k => if k.id = j.id then { k with status } else k }) ∧
    (∀ j, t.mostRecent = some j ↔ j ∈ t.jobs ∧ ∀ k ∈ t.jobs, k.id ≤ j.id) ∧
    t.list.Perm t.jobs ∧
    t.list.Pairwise fun a b => Bytes.ofString a.command < Bytes.ofString b.command ∨
      a.command = b.command ∧ a.id < b.id := by
  intro t
  have h : t.Ordered := ordered_empty.acts as
  refine ⟨(numbers_eq empty as).1, h.ascending, h.below, ?_, ?_, fun _ _ => h.findByPid_eq_some_iff,
    fun pid status none => findByPid_eq_none none status,
    fun pid status j found => h.first_only found status, fun _ => h.mostRecent_eq_some_iff,
    t.list_perm, h.pairwise_list⟩
  · rintro before pid command status after rfl former id
    have added : (former.add pid command status).Ordered := (ordered_empty.acts before).add ..
    have found : (former.add pid command status).findById id = some ⟨id, pid, command, status⟩ :=
      added.findById_eq_some_iff.2 ⟨List.mem_append_right _ (List.mem_singleton_self _), rfl⟩
    have whole : t = (former.add pid command status).acts after := List.foldl_append
    exact ⟨rfl, fun stays => whole ▸ added.findById_acts_of_stays found stays,
      fun out => whole ▸ added.findById_acts_of_takenOut out⟩
  · intro id fresh
    rw [findById_eq_none_iff]
    rintro k hk rfl
    obtain ⟨j, hj, -⟩ | given := ordered_empty.mem_numbers hk
    · cases hj
    · exact fresh given

/-- Two jobs of one process are registered. What is done to the process concerns the first of them
until that is removed, after which its number is not used again. -/
theorem table_follows_registrations_twice :
    let as : List Act :=
      [.add 5 "b" .running, .add 5 "a" .running, .setStatus 5 .stopped, .remove 5,
        .add 9 "a" .running]
    let t := empty.acts as
    empty.numbers as = [1, 2, 3] ∧ t.findById 1 = none ∧
      (∃ status, t.findById 2 = some ⟨2, 5, "a", status⟩) ∧
      t.jobs = [⟨2, 5, "a", .running⟩, ⟨3, 9, "a", .running⟩] := by
  intro as t
  obtain ⟨numbers, -, -, found, -⟩ := table_follows_registrations as
  obtain ⟨-, -, gone⟩ := found [] 5 "b" .running _ rfl
  obtain ⟨-, stays, -⟩ := found [.add 5 "b" .running] 5 "a" .running _ rfl
  have first : ⟨1, 5, "b", .stopped⟩ ∈ (empty.acts (as.take 3)).jobs := by decide
  refine ⟨numbers, gone ?_, stays ?_, by decide⟩
  · exact .inr (.inr (.inl ⟨_, ⟨first, rfl, by decide⟩, rfl⟩))
  · rintro (out | ⟨j, ⟨-, -, least⟩, same⟩ | out | out)
    · exact out
    · exact absurd (least _ first rfl) (same ▸ by decide)
    · exact out
    · exact out

end JobShell.JobTable
