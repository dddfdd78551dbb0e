import JobShell.Proofs.LastingNodes
import JobShell.Proofs.OpenFiles
import JobShell.Proofs.SessionRules

/-! What goes through the open files of a host. A course of events is a record of all that is
written, what it is written for and through which file. It tells what becomes of a file that only
few have open, of a pipe above all. -/
namespace JobShell

/-! ### Processes and what they hold -/

/-- No process holds anything back that was not held before. -/
structure ProcessTable.Retains (s t : ProcessTable) : Prop where
  held : ∀ p ∈ t.processes, ∀ e ∈ p.held, ∃ q ∈ s.processes, e ∈ q.held
  next : s.nextPid ≤ t.nextPid

namespace Process

theorem held_resume (p : Process) : p.resume.held = p.held := by
  unfold resume
  split
  · split <;> rfl
  · rfl

theorem held_receive (p : Process) (s : Signal) : (p.receive s).held = p.held := by
  unfold receive
  split
  · rfl
  split
  · rfl
  split
  · rfl
  split
  · exact p.held_resume
  all_goals rfl

theorem held_receive? (p : Process) (s : Option Signal) : (p.receive? s).held = p.held := by
  cases s with
  | none => rfl
  | some s => exact p.held_receive s

theorem held_goOn (p : Process) (next : Sequel) : (p.goOn next).held = p.held := by
  cases next <;> rfl

end Process

namespace ProcessTable

variable {s t u : ProcessTable}

namespace Retains

theorem refl (s : ProcessTable) : s.Retains s := ⟨fun p hp _ he => ⟨p, hp, he⟩, Int.le_refl _⟩

theorem trans (h : s.Retains t) (h' : t.Retains u) : s.Retains u where
  held p hp e he := by
    obtain ⟨q, hq, he⟩ := h'.held p hp e he
    exact h.held q hq e he
  next := Int.le_trans h.next h'.next

theorem map {f : Process → Process} (same : ∀ p, (f p).held = p.held) :
    s.Retains { s with processes := s.processes.map f } where
  held q hq e he := by
    obtain ⟨p, hp, rfl⟩ := List.mem_map.1 hq
    exact ⟨p, hp, same p ▸ he⟩
  next := Int.le_refl _

theorem update (pid : Int) {f : Process → Process} (same : ∀ p, (f p).held = p.held) :
    s.Retains (s.update pid f) := by
  refine map fun p => ?_
  split
  · exact same p
  · rfl

theorem filter (keep : Process → Bool) :
    s.Retains { s with processes := s.processes.filter keep } where
  held p hp _ he := ⟨p, (List.mem_filter.1 hp).1, he⟩
  next := Int.le_refl _

theorem spawn (parent : Int) (ownGroup : Bool) : s.Retains (s.spawn parent ownGroup).2 where
  held p hp e he := by
    obtain hp | hp := List.mem_append.1 hp
    · exact ⟨p, hp, he⟩
    · rw [List.mem_singleton.1 hp] at he
      cases he
  next := Int.le_max_left _ _

theorem orphan (parent : Int) : s.Retains (s.orphan parent) := by
  refine (filter _).trans (map fun p => ?_)
  split <;> rfl

theorem applyEvent (e : Event) : s.Retains (s.applyEvent e) := by
  cases e with
  | signal pid sig => exact update pid fun p => p.held_receive sig
  | ends pid how =>
    refine update pid fun p => ?_
    split <;> rfl
  | taken pid => exact filter _

theorem leave (pid : Int) (status : Nat) : s.Retains (s.leave pid status) := by
  have later : s.Retains { s with lingering := s.lingering.tail } := ⟨(refl s).held, Int.le_refl _⟩
  unfold ProcessTable.leave
  dsimp only
  split
  · exact later
  · exact later.trans (applyEvent _)

theorem advance : s.Retains s.advance := by
  unfold ProcessTable.advance
  split
  · exact refl s
  · next batch later _ =>
    have shifted : s.Retains { s with outside := later } := ⟨(refl s).held, Int.le_refl _⟩
    exact List.foldlRecOn _ _ (motive := fun t => s.Retains t) shifted
      fun t retains e _ => retains.trans (applyEvent e)

theorem kill (self target : Int) (signal : Option Signal) :
    s.Retains (s.kill self target signal).2 := by
  unfold ProcessTable.kill
  dsimp only
  split
  · refine advance.trans (map fun p => ?_)
    split
    · exact p.held_receive? signal
    · rfl
  · exact advance

theorem collect? {self pid : Int} {found : Except Errno Outcome × ProcessTable}
    (h : s.collect? self pid = some found) : s.Retains found.2 := by
  unfold ProcessTable.collect? at h
  split at h
  · cases h
    exact refl s
  · split at h
    · cases h
      exact filter _
    · split at h
      · cases h
        exact update pid fun _ => rfl
      · cases h
    · cases h

theorem waitThrough (self pid : Int) (batches : List (List Event)) :
    s.Retains (ProcessTable.waitThrough self pid batches s).2 := by
  induction batches generalizing s with
  | nil =>
    rw [ProcessTable.waitThrough]
    cases found : s.collect? self pid with
    | none => exact filter _
    | some answer => exact collect? found
  | cons batch batches ih =>
    rw [ProcessTable.waitThrough]
    split
    · next found => exact advance.trans (collect? found)
    · exact advance.trans ih

theorem poll (self pid : Int) : s.Retains (s.poll self pid).2 := by
  unfold ProcessTable.poll
  dsimp only
  split
  · exact advance
  · split
    · exact advance.trans (filter _)
    · split
      · exact advance.trans (update pid fun _ => rfl)
      · exact advance
    · split
      · exact advance.trans (update pid fun _ => rfl)
      · exact advance

theorem reapJobs (self : Int) (jobs : List Job) :
    s.Retains (JobTable.reapJobs self jobs s).2.2 := by
  induction jobs generalizing s with
  | nil => exact refl s
  | cons j jobs ih =>
    have asked := (poll self j.pid).trans (ih (s := (s.poll self j.pid).2))
    rw [JobTable.reapJobs]
    dsimp only
    split <;> exact asked

end Retains

theorem freshPid_pos (positive : 0 < s.nextPid) : 0 < s.freshPid := by
  obtain ⟨_, -, free⟩ | ⟨-, next⟩ := s.freshPid_cases
  · simp only [isFree, Bool.and_eq_true, decide_eq_true_eq] at free
    exact free.1.1
  · exact next ▸ positive

end ProcessTable

/-! ### Reading and writing -/

/-- What is written for. -/
inductive Outlet where
  | printed
  | complained
  /-- In the log. -/
  | recorded
  /-- A process in the background has held it back before. -/
  | delivered
  deriving DecidableEq, Repr

/-- Some bytes that are written to an open file, whether that takes them or not. -/
structure Writing where
  outlet : Outlet
  handle : Handle
  bytes : Bytes
  deriving DecidableEq, Repr

/-- All that is written through an open file, in order. -/
def Writing.through (h : Handle) (log : List Writing) : Bytes :=
  (log.filter (·.handle = h)).flatMap bytes

/-- Which open files may be used, and what for. Those that are still to be opened may be used for
everything. -/
structure Access where
  bound : Handle
  reads : Handle → Prop
  prints : Handle → Prop
  complains : Handle → Prop
  records : Handle → Prop
  /-- For what processes in the background hold back. -/
  holds : Handle → Bytes → Prop
  /-- Whether shells may find no space for what they complain of. -/
  crashes : Prop
  /-- The files whose ends shells may wait for in vain. -/
  standing : NodeId → Prop
  /-- The directories that there are. None of them is made or lost. -/
  directory : NodeId → Bool
  fresh : ∀ {h}, bound ≤ h → reads h ∧ prints h ∧ complains h
  held : ∀ {h}, prints h ∨ complains h ∨ records h → ∀ b, holds h b

def Access.allows (A : Access) (w : Writing) : Prop :=
  match w.outlet with
  | .printed => A.prints w.handle
  | .complained => A.complains w.handle
  | .recorded => A.records w.handle
  | .delivered => A.holds w.handle w.bytes

/-- What a shell may come to a halt by: for want of space, at a file that has no end, or by a
signal. -/
def Access.admits (A : Access) : Halt → Prop
  | .crashed => A.crashes
  | .stuck file => A.standing file
  | .struck _ => True

theorem Access.holds_of_allows {A : Access} {w : Writing} (allowed : A.allows w) :
    A.holds w.handle w.bytes := by
  obtain ⟨outlet, h, b⟩ := w
  cases outlet with
  | printed => exact A.held (.inl allowed) b
  | complained => exact A.held (.inr (.inl allowed)) b
  | recorded => exact A.held (.inr (.inr allowed)) b
  | delivered => exact allowed

namespace Host

variable {A : Access} {s t u : Host}

/-- What a program finds to read, and the host afterwards. -/
def drawn (s : Host) (h : Handle) : Bytes × Host :=
  match s.readAll h with
  | .ok (b, s) => (b, s)
  | .error _ => ([], s)

/-- Whatever happens on a host, nodes last, and what is open stays open. No node is opened that is in
no directory, but for new ones. -/
structure Continues (s t : Host) : Prop where
  lasts : s.tree.Lasts t.tree
  opened : ∀ (h : Handle) (o : OpenFile), s.opened[h]? = some o →
    ∃ o', t.opened[h]? = some o' ∧ o'.node = o.node ∧ o'.append = o.append
  new : ∀ (h : Handle) (o : OpenFile), s.opened[h]? = none → t.opened[h]? = some o →
    t.tree.Has o.node ∧ (s.tree.Has o.node → ¬s.tree.Unlisted o.node)

namespace Continues

theorem refl (s : Host) : s.Continues s where
  lasts := .refl s.tree
  opened h o here := ⟨o, here, rfl, rfl⟩
  new h o none here := by cases none.symm.trans here

theorem trans (h : s.Continues t) (h' : t.Continues u) : s.Continues u where
  lasts := h.lasts.trans h'.lasts
  opened f o here := by
    obtain ⟨o', there, node, append⟩ := h.opened f o here
    obtain ⟨o'', there', node', append'⟩ := h'.opened f o' there
    exact ⟨o'', there', node'.trans node, append'.trans append⟩
  new f o none here := by
    cases mid : t.opened[f]? with
    | none =>
      obtain ⟨has, listed⟩ := h'.new f o mid here
      exact ⟨has, fun old unlisted => listed (h.lasts.has old) (h.lasts.unlisted old unlisted)⟩
    | some o' =>
      obtain ⟨has, listed⟩ := h.new f o' none mid
      obtain ⟨o'', there, node, -⟩ := h'.opened f o' mid
      obtain rfl := Option.some.inj (here.symm.trans there)
      rw [node]
      exact ⟨h'.lasts.has has, listed⟩

theorem size_le (h : s.Continues t) : s.opened.size ≤ t.opened.size := by
  by_contra less
  have last : t.opened.size < s.opened.size := Nat.lt_of_not_le less
  obtain ⟨o', there, -⟩ := h.opened _ _ (Array.getElem?_eq_getElem last)
  rw [Array.getElem?_size] at there
  cases there

end Continues

/-! ### Single acts -/

/-- The file that a place has open may change, and the place moves. -/
theorem continues_set {h : Handle} {o o' : OpenFile} {n n' : Node} (opened : s.opened[h]? = some o)
    (node : o'.node = o.node) (append : o'.append = o.append) (here : s.tree.get? o.node = some n)
    (akin : n.Akin n') (plain : ∀ parent entries, n ≠ .directory parent entries) :
    s.Continues { s with
      tree := s.tree.set o.node n'
      opened := s.opened.setIfInBounds h o' } := by
  have childless (name : Bytes) : (s.tree.set o.node n').child? o.node name = none := by
    have there : (s.tree.set o.node n').get? o.node = some n' :=
      (FileTree.get?_set (FileTree.has_of_get? here) n' o.node).trans (if_pos rfl)
    rw [FileTree.child?, FileTree.entries?, there]
    cases akin with
    | same =>
      cases n with
      | directory parent entries => exact absurd rfl (plain parent entries)
      | _ => rfl
    | directory parent entries => exact absurd rfl (plain parent entries)
    | file | terminal | erased => rfl
  have get (f : Handle) (inside : h < s.opened.size) :
      (s.opened.setIfInBounds h o')[f]? = if h = f then some o' else s.opened[f]? := by
    rw [Array.getElem?_setIfInBounds, if_pos inside]
  have inside : h < s.opened.size := (Array.getElem?_eq_some_iff.1 opened).1
  refine ⟨.set here akin fun name i child => ?_, fun f p there => ?_, fun f p none there => ?_⟩
  · cases (childless name).symm.trans child
  · change ∃ o'', (s.opened.setIfInBounds h o')[f]? = some o'' ∧ _
    rw [get f inside]
    split
    · next same =>
      obtain rfl := Option.some.inj (opened.symm.trans (same ▸ there))
      exact ⟨o', rfl, node, append⟩
    · exact ⟨p, there, rfl, rfl⟩
  · change (s.opened.setIfInBounds h o')[f]? = some p at there
    rw [get f inside] at there
    split at there
    · next same => cases (same ▸ none).symm.trans opened
    · cases none.symm.trans there

theorem continues_attempt (s : Host) (h : Handle) (b : Bytes) : s.Continues (s.attempt h b) := by
  obtain same | ⟨o, content, executable, opened, file, written⟩ := s.attempt_cases h b
  · rw [same]
    exact .refl s
  · rw [written]
    exact continues_set opened rfl rfl file (.file _ _ _) (by rintro _ _ ⟨⟩)

theorem drawn_cases (s : Host) (h : Handle) :
    (s.drawn h).2 = s ∨ ∃ o, s.opened[h]? = some o ∧
      ((∃ content executable, s.tree.get? o.node = some (.file content executable) ∧
        s.drawn h = (content.drop o.offset, s.skipAhead h o (content.drop o.offset).length)) ∨
      ∃ typed, s.tree.get? o.node = some (.terminal typed) ∧
        s.drawn h = (typed, { s with tree := s.tree.set o.node (.terminal []) })) := by
  unfold drawn readAll
  cases opened : s.opened[h]? with
  | none => exact .inl rfl
  | some o =>
    cases node : s.tree.get? o.node with
    | none => simp only [node, true_or]
    | some n =>
      cases n with
      | file content executable =>
        exact .inr ⟨o, rfl, .inl ⟨content, executable, node, by simp only [node]⟩⟩
      | terminal typed => exact .inr ⟨o, rfl, .inr ⟨typed, node, by simp only [node]⟩⟩
      | _ => simp only [node, true_or]

theorem continues_drawn (s : Host) (h : Handle) : s.Continues (s.drawn h).2 := by
  obtain same | ⟨o, opened, ⟨content, executable, file, drawn⟩ | ⟨typed, terminal, drawn⟩⟩ :=
    s.drawn_cases h
  · rw [same]
    exact .refl s
  · rw [drawn]
    let moved : OpenFile := { o with offset := o.offset + (content.drop o.offset).length }
    have read := continues_set opened (rfl : moved.node = o.node) rfl file (.same _)
      (by rintro _ _ ⟨⟩)
    rwa [FileTree.set_eq_self file] at read
  · rw [drawn]
    have emptied := continues_set opened rfl rfl terminal (.terminal typed []) (by rintro _ _ ⟨⟩)
    have still : s.opened.setIfInBounds h o = s.opened := by
      obtain ⟨inside, rfl⟩ := Array.getElem?_eq_some_iff.1 opened
      rw [Array.setIfInBounds_def, dif_pos inside, Array.set_getElem_self]
    rwa [still] at emptied

/-- A node that is not open at a place does not change when something is read there. -/
theorem get?_drawn {h : Handle} {node : NodeId}
    (other : ∀ o, s.opened[h]? = some o → o.node ≠ node) :
    (s.drawn h).2.tree.get? node = s.tree.get? node := by
  obtain same | ⟨o, opened, ⟨content, executable, file, drawn⟩ | ⟨typed, terminal, drawn⟩⟩ :=
    s.drawn_cases h
  · rw [same]
  · rw [drawn]
    rfl
  · rw [drawn]
    exact (FileTree.get?_set (FileTree.has_of_get? terminal) _ _).trans (if_neg (other o opened))

theorem opened_drawn {h f : Handle} (other : h ≠ f) : (s.drawn h).2.opened[f]? = s.opened[f]? := by
  obtain same | ⟨o, opened, ⟨content, executable, file, drawn⟩ | ⟨typed, terminal, drawn⟩⟩ :=
    s.drawn_cases h
  · rw [same]
  · rw [drawn]
    exact Array.getElem?_setIfInBounds_ne other
  · rw [drawn]

theorem halts_drawn (s : Host) (h : Handle) : (s.drawn h).2.halts = s.halts := by
  obtain same | ⟨o, opened, ⟨content, executable, file, drawn⟩ | ⟨typed, terminal, drawn⟩⟩ :=
    s.drawn_cases h
  · rw [same]
  · rw [drawn]
    rfl
  · rw [drawn]

theorem toProcessTable_drawn (s : Host) (h : Handle) :
    (s.drawn h).2.toProcessTable = s.toProcessTable := by
  unfold drawn
  split
  · next read => exact toProcessTable_readAll read
  · rfl

/-- An act that neither reads nor writes through an open file. Shells may begin their work or come to
a halt. -/
structure Silent (A : Access) (s t : Host) : Prop where
  spares : s.tree.Spares t.tree
  opened : ∀ (h : Handle) (o : OpenFile), s.opened[h]? = some o → t.opened[h]? = some o
  new : ∀ (h : Handle) (o : OpenFile), s.opened[h]? = none → t.opened[h]? = some o →
    t.tree.Has o.node ∧ (s.tree.Has o.node → ¬s.tree.Unlisted o.node)
  held : ∀ p ∈ t.processes, ∀ e ∈ p.held,
    A.holds e.1 e.2 ∧ e.1 < t.opened.size ∨ ∃ q ∈ s.processes, e ∈ q.held
  next : s.nextPid ≤ t.nextPid
  halts : ∀ pid cause, (pid, some cause) ∈ t.halts →
    (pid, some cause) ∈ s.halts ∨ A.admits cause

theorem Silent.continues (h : s.Silent A t) : s.Continues t where
  lasts := h.spares.toLasts
  opened f o here := ⟨o, h.opened f o here, rfl, rfl⟩
  new := h.new

theorem Silent.of_tree {tree : FileTree} (spares : s.tree.Spares tree) :
    s.Silent A { s with tree } where
  spares := spares
  opened _ _ := id
  new h o none here := by cases none.symm.trans here
  held p hp _ he := .inr ⟨p, hp, he⟩
  next := Int.le_refl _
  halts _ _ := .inl

theorem Silent.of_halts {halts : List (Int × Option Halt)}
    (h : ∀ pid cause, (pid, some cause) ∈ halts →
      (pid, some cause) ∈ s.halts ∨ A.admits cause) : s.Silent A { s with halts } where
  spares := .refl s.tree
  opened _ _ := id
  new h o none here := by cases none.symm.trans here
  held p hp _ he := .inr ⟨p, hp, he⟩
  next := Int.le_refl _
  halts := h

theorem Silent.of_processes {processes : ProcessTable}
    (retains : s.toProcessTable.Retains processes) :
    s.Silent A { s with toProcessTable := processes } where
  spares := .refl s.tree
  opened _ _ := id
  new h o none here := by cases none.symm.trans here
  held p hp e he := .inr (retains.held p hp e he)
  next := retains.next
  halts _ _ := .inl

theorem Silent.openNode {tree : FileTree} {node : NodeId} (spares : s.tree.Spares tree)
    (has : tree.Has node) (listed : s.tree.Has node → ¬s.tree.Unlisted node) (append : Bool) :
    s.Silent A ({ s with tree }.openNode node append).2 where
  spares := spares
  opened h o here := by
    have inside := (Array.getElem?_eq_some_iff.1 here).1
    change (s.opened.push _)[h]? = some o
    rw [Array.getElem?_push_lt inside, ← here, Array.getElem?_eq_getElem inside]
  new h o none here := by
    change (s.opened.push _)[h]? = some o at here
    rw [Array.getElem?_push] at here
    split at here
    · obtain rfl := Option.some.inj here
      exact ⟨has, listed⟩
    · cases none.symm.trans here
  held p hp _ he := .inr ⟨p, hp, he⟩
  next := Int.le_refl _
  halts _ _ := .inl

/-! ### Courses -/

/-- One act after another, as far as open files may be used, with all that is written on the way. -/
inductive Course (A : Access) : Host → List Writing → Host → Prop where
  | rest (s : Host) : Course A s [] s
  | silent {s t u : Host} {log : List Writing} (act : s.Silent A t) (later : Course A t log u) :
    Course A s log u
  | read {s u : Host} {h : Handle} {log : List Writing} (allowed : A.reads h)
    (later : Course A (s.drawn h).2 log u) : Course A s log u
  | write {s u : Host} {outlet : Outlet} {h : Handle} {b : Bytes} {log : List Writing}
    (allowed : A.allows ⟨outlet, h, b⟩) (later : Course A (s.attempt h b) log u) :
    Course A s (⟨outlet, h, b⟩ :: log) u

/-- The state of a host in which nothing is in store that is not allowed. -/
structure Within (A : Access) (s : Host) : Prop where
  bound : A.bound ≤ s.opened.size
  sound : s.tree.Sound
  directories : ∀ id, s.tree.isDirectory id = A.directory id
  standing : ∀ id, s.tree.isEndless id = true → ¬s.tree.Unlisted id → A.standing id
  nodes : ∀ (h : Handle) (o : OpenFile), s.opened[h]? = some o → s.tree.Has o.node
  held : ∀ p ∈ s.processes, ∀ e ∈ p.held, A.holds e.1 e.2 ∧ e.1 < s.opened.size
  next : 0 < s.nextPid

theorem Within.continue (h : s.Within A) (continues : s.Continues t)
    (held : ∀ p ∈ t.processes, ∀ e ∈ p.held,
      A.holds e.1 e.2 ∧ e.1 < t.opened.size ∨ ∃ q ∈ s.processes, e ∈ q.held)
    (next : s.nextPid ≤ t.nextPid) : t.Within A where
  bound := Nat.le_trans h.bound continues.size_le
  sound := continues.lasts.sound h.sound
  directories id := by rw [continues.lasts.isDirectory_eq, h.directories id]
  standing id endless listed := by
    obtain ⟨endless, listed⟩ := continues.lasts.endless h.sound endless listed
    exact h.standing id endless listed
  nodes f o here := by
    cases before : s.opened[f]? with
    | none => exact (continues.new f o before here).1
    | some o' =>
      obtain ⟨o'', there, node, -⟩ := continues.opened f o' before
      obtain rfl := Option.some.inj (here.symm.trans there)
      rw [node]
      exact continues.lasts.has (h.nodes f o' before)
  held p hp e he := by
    obtain allowed | ⟨q, hq, he⟩ := held p hp e he
    · exact allowed
    · obtain ⟨allowed, inside⟩ := h.held q hq e he
      exact ⟨allowed, Nat.lt_of_lt_of_le inside continues.size_le⟩
  next := Int.lt_of_lt_of_le h.next next

theorem Within.of_processes (h : s.Within A) (continues : s.Continues t)
    (same : t.toProcessTable = s.toProcessTable) : t.Within A := by
  refine h.continue continues (fun p hp e he => .inr ⟨p, ?_, he⟩) ?_
  · rwa [same] at hp
  · exact Int.le_of_eq (congrArg ProcessTable.nextPid same).symm

namespace Course

variable {log log' : List Writing}

theorem trans (h : Course A s log t) (h' : Course A t log' u) : Course A s (log ++ log') u := by
  induction h with
  | rest => exact h'
  | silent act _ ih => exact .silent act (ih h')
  | read allowed _ ih => exact .read allowed (ih h')
  | write allowed _ ih => exact .write allowed (ih h')

theorem of_silent (act : s.Silent A t) : Course A s [] t := .silent act (.rest t)

theorem continues (h : Course A s log t) : s.Continues t := by
  induction h with
  | rest s => exact .refl s
  | silent act _ ih => exact act.continues.trans ih
  | read _ _ ih => exact (continues_drawn _ _).trans ih
  | write _ _ ih => exact (continues_attempt _ _ _).trans ih

theorem within (h : Course A s log t) (within : s.Within A) : t.Within A := by
  induction h with
  | rest => exact within
  | silent act _ ih => exact ih (within.continue act.continues act.held act.next)
  | read _ _ ih =>
    exact ih (within.of_processes (continues_drawn _ _) (toProcessTable_drawn _ _))
  | write _ _ ih =>
    exact ih (within.of_processes (continues_attempt _ _ _) (toProcessTable_attempt _ _ _))

/-- What shells have come to a halt by on the way they may come to a halt by. -/
theorem halts (h : Course A s log t) {pid : Int} {cause : Halt}
    (halted : (pid, some cause) ∈ t.halts) : (pid, some cause) ∈ s.halts ∨ A.admits cause := by
  induction h with
  | rest => exact .inl halted
  | silent act _ ih => exact (ih halted).elim (act.halts pid cause) .inr
  | @read s _ h _ _ _ ih => exact (ih halted).imp_left (s.halts_drawn h ▸ ·)
  | @write s _ _ h b _ _ _ ih => exact (ih halted).imp_left (s.halts_attempt h b ▸ ·)

theorem allows (h : Course A s log t) : ∀ w ∈ log, A.allows w := by
  induction h with
  | rest => exact List.forall_mem_nil _
  | silent _ _ ih | read _ _ ih => exact ih
  | write allowed _ ih => exact List.forall_mem_cons.2 ⟨allowed, ih⟩

end Course

/-! ### Pipes -/

/-- A node that is open at two places only, one where it is read and one where it is written to at
its end. -/
structure Piped (s : Host) (node : NodeId) (reader writer : Handle) : Prop where
  has : s.tree.Has node
  unlisted : s.tree.Unlisted node
  reads : ∃ o, s.opened[reader]? = some o ∧ o.node = node
  appends : ∃ o, s.opened[writer]? = some o ∧ o.node = node ∧ o.append = true
  only : ∀ (h : Handle) (o : OpenFile), s.opened[h]? = some o → o.node = node →
    h = reader ∨ h = writer

namespace Piped

variable {node : NodeId} {reader writer : Handle} {content : Bytes} {executable : Bool}

theorem go (h : s.Piped node reader writer) (continues : s.Continues t) :
    t.Piped node reader writer where
  has := continues.lasts.has h.has
  unlisted := continues.lasts.unlisted h.has h.unlisted
  reads := by
    obtain ⟨o, here, same⟩ := h.reads
    obtain ⟨o', there, same', -⟩ := continues.opened reader o here
    exact ⟨o', there, same'.trans same⟩
  appends := by
    obtain ⟨o, here, same, append⟩ := h.appends
    obtain ⟨o', there, same', append'⟩ := continues.opened writer o here
    exact ⟨o', there, same'.trans same, append'.trans append⟩
  only f o here same := by
    cases before : s.opened[f]? with
    | none =>
      subst same
      exact absurd h.unlisted ((continues.new f o before here).2 h.has)
    | some o' =>
      obtain ⟨o'', there, node, -⟩ := continues.opened f o' before
      obtain rfl := Option.some.inj (here.symm.trans there)
      exact h.only f o' before (node.symm.trans same)

/-- At other places there are other nodes. -/
theorem node_ne (h : s.Piped node reader writer) {f : Handle} (reads : f ≠ reader)
    (writes : f ≠ writer) (o : OpenFile) (here : s.opened[f]? = some o) : o.node ≠ node :=
  fun same => (h.only f o here same).elim reads writes

theorem attempt (h : s.Piped node reader writer)
    (here : s.tree.get? node = some (.file content executable)) (b : Bytes) :
    (s.attempt writer b).tree.get? node = some (.file (content ++ b) executable) := by
  obtain ⟨o, opened, rfl, append⟩ := h.appends
  have written : s.attempt writer b = { s with
      tree := s.tree.set o.node (.file (splice content content.length b) executable)
      opened := s.opened.setIfInBounds writer { o with offset := content.length + b.length } } := by
    simp only [Host.attempt, write, opened, here, append, if_true]
  have spliced : splice content content.length b = content ++ b := by simp [splice]
  rw [written, spliced]
  exact (FileTree.get?_set (FileTree.has_of_get? here) _ _).trans (if_pos rfl)

theorem silent (h : s.Piped node reader writer) (act : s.Silent A t) :
    t.opened[reader]? = s.opened[reader]? ∧ t.tree.get? node = s.tree.get? node := by
  obtain ⟨o, opened, -⟩ := h.reads
  exact ⟨(act.opened reader o opened).trans opened.symm, act.spares.spared node h.has h.unlisted⟩

/-- What stands in a pipe is what has been written to it, as long as nobody reads from it. -/
theorem course {log : List Writing} (h : s.Piped node reader writer)
    (here : s.tree.get? node = some (.file content executable)) (course : Course A s log t)
    (unread : ¬A.reads reader ∧ ¬A.reads writer) (unheld : ∀ b, ¬A.holds reader b) :
    t.opened[reader]? = s.opened[reader]? ∧
      t.tree.get? node = some (.file (content ++ Writing.through writer log) executable) := by
  induction course generalizing content with
  | rest s => exact ⟨rfl, here.trans (by simp [Writing.through])⟩
  | silent act _ ih =>
    obtain ⟨still, kept⟩ := h.silent act
    obtain ⟨place, now⟩ := ih (h.go act.continues) (kept.trans here)
    exact ⟨place.trans still, now⟩
  | @read s u f log allowed _ ih =>
    have reads : f ≠ reader := by
      rintro rfl
      exact unread.1 allowed
    have writes : f ≠ writer := by
      rintro rfl
      exact unread.2 allowed
    have kept := (get?_drawn (h.node_ne reads writes)).trans here
    obtain ⟨place, now⟩ := ih (h.go (continues_drawn s f)) kept
    exact ⟨place.trans (opened_drawn reads), now⟩
  | @write s u outlet f b log allowed _ ih =>
    have reads : f ≠ reader := by
      rintro rfl
      exact unheld b (Access.holds_of_allows allowed)
    by_cases writes : f = writer
    · subst writes
      obtain ⟨place, now⟩ := ih (h.go (continues_attempt s f b)) (h.attempt here b)
      refine ⟨place.trans (opened_attempt reads b), now.trans ?_⟩
      simp [Writing.through]
    · have kept := (get?_attempt (h.node_ne reads writes) b).trans here
      obtain ⟨place, now⟩ := ih (h.go (continues_attempt s f b)) kept
      refine ⟨place.trans (opened_attempt reads b), now.trans ?_⟩
      simp [Writing.through, writes]

end Piped
end Host
end JobShell
