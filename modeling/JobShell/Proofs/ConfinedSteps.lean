import JobShell.Proofs.FileTraffic
import JobShell.Proofs.IgnoredRedirections
import JobShell.Proofs.ProcessChanges
import Mathlib.Order.BoundedOrder.Basic

/-! Steps of a session that use no other open files than they may: those that the shell has been
given, and those that are opened on the way. -/
namespace JobShell

open Host (Course Within)

/-! ### How far a host has come -/

/-- How far a host has come: how many files have been opened, and which of them have space. -/
structure Extent where
  opened : Nat
  spacious : Handle → Prop

instance : Preorder Extent where
  le n k := n.opened ≤ k.opened ∧ ∀ h, n.spacious h → k.spacious h
  le_refl _ := ⟨Nat.le_refl _, fun _ => id⟩
  le_trans _ _ _ h h' := ⟨Nat.le_trans h.1 h'.1, fun f => h'.2 f ∘ h.2 f⟩

instance : OrderBot Extent where
  bot := ⟨0, fun _ => False⟩
  bot_le _ := ⟨Nat.zero_le _, fun _ => False.elim⟩

theorem Extent.lt_of_le {n k : Extent} {h : Handle} (opened : h < n.opened) (le : n ≤ k) :
    h < k.opened := Nat.lt_of_lt_of_le opened le.1

def Host.extent (s : Host) : Extent := ⟨s.opened.size, fun h => h < s.opened.size ∧ s.isFull h = false⟩

/-- Files that a process may use as it does, once a host has come so far. -/
structure Stdio.Allowed (A : Access) (n : Extent) (stdio : Stdio) : Prop where
  input : A.reads stdio.input ∧ stdio.input < n.opened
  output : A.prints stdio.output ∧ stdio.output < n.opened
  error : A.complains stdio.error ∧ stdio.error < n.opened
  space : A.crashes ∨ n.spacious stdio.error

/-- A shell has been given files that it may use, and its directory is one. -/
structure Shell.Allowed (A : Access) (n : Extent) (sh : Shell) : Prop where
  stdio : sh.stdio.Allowed A n
  log : ∀ h ∈ sh.log, A.records h ∧ h < n.opened
  directory : A.directory sh.directory = true

theorem Stdio.Allowed.mono {A : Access} {n k : Extent} {stdio : Stdio} (h : stdio.Allowed A n)
    (le : n ≤ k) : stdio.Allowed A k where
  input := ⟨h.input.1, Extent.lt_of_le h.input.2 le⟩
  output := ⟨h.output.1, Extent.lt_of_le h.output.2 le⟩
  error := ⟨h.error.1, Extent.lt_of_le h.error.2 le⟩
  space := h.space.imp_right (le.2 _)

theorem Shell.Allowed.mono {A : Access} {n k : Extent} {sh : Shell} (h : sh.Allowed A n)
    (le : n ≤ k) : sh.Allowed A k where
  stdio := h.stdio.mono le
  log f hf := ⟨(h.log f hf).1, Extent.lt_of_le (h.log f hf).2 le⟩
  directory := h.directory

structure Machine.Confined (A : Access) (m : Machine) : Prop where
  host : m.host.Within A
  shell : m.shell.Allowed A m.host.extent

theorem Machine.Confined.isDirectory {A : Access} {m : Machine} (h : m.Confined A) :
    m.host.tree.isDirectory m.shell.directory = true :=
  (h.host.directories _).trans h.shell.directory

/-- A file has been opened that may be used for everything. -/
structure Access.Free (A : Access) (n : Extent) (h : Handle) : Prop where
  reads : A.reads h
  prints : A.prints h
  complains : A.complains h
  opened : h < n.opened

theorem Access.Free.mono {A : Access} {n k : Extent} {h : Handle} (free : A.Free n h) (le : n ≤ k) :
    A.Free k h := { free with opened := Extent.lt_of_le free.opened le }

theorem Host.Within.free {A : Access} {s : Host} (within : s.Within A) {h : Handle} {n : Extent}
    (new : s.opened.size ≤ h) (opened : h < n.opened) : A.Free n h := by
  obtain ⟨reads, prints, complains⟩ := A.fresh (Nat.le_trans within.bound new)
  exact ⟨reads, prints, complains, opened⟩

/-- Open files that have space keep it. -/
theorem Host.Within.extent_le {A : Access} {s t : Host} (within : s.Within A)
    (continues : s.Continues t) : s.extent ≤ t.extent := by
  refine ⟨continues.size_le, fun h space => ⟨Nat.lt_of_lt_of_le space.1 continues.size_le, ?_⟩⟩
  have here := Array.getElem?_eq_getElem space.1
  obtain ⟨n, node⟩ := Option.isSome_iff_exists.1 (within.nodes h _ here)
  obtain ⟨o', there, same, -⟩ := continues.opened h _ here
  obtain ⟨n', node', akin⟩ := continues.lasts.node _ n node
  have full := space.2
  rw [isFull, here, Option.bind_some, node] at full
  rw [isFull, there, Option.bind_some, same, node']
  cases akin with
  | same => exact full
  | _ => rfl

/-! ### Acts of a host -/

namespace Host

variable {A : Access} {s : Host}

theorem course_attempt {outlet : Outlet} {h : Handle} {b : Bytes}
    (allowed : A.allows ⟨outlet, h, b⟩) : Course A s [⟨outlet, h, b⟩] (s.attempt h b) :=
  .write allowed (.rest _)

theorem course_processes {processes : ProcessTable} (retains : s.toProcessTable.Retains processes) :
    Course A s [] { s with toProcessTable := processes } := .of_silent (.of_processes retains)

theorem lt_opened_openNode {node : NodeId} {append : Bool} :
    s.opened.size < (s.openNode node append).2.opened.size :=
  Nat.lt_of_lt_of_eq (Nat.lt_succ_self _) (Array.size_push _).symm

theorem course_openUnnamed {n : Node} (plain : ∀ parent entries, n ≠ .directory parent entries) :
    Course A s [] (s.openUnnamed n).2 := by
  refine .of_silent (.openNode (.push plain) ?_ (fun has => absurd has s.tree.not_has_size) false)
  exact FileTree.has_of_get? Array.getElem?_push_size

theorem openPipe_fst (s : Host) : s.openPipe.1 = (s.opened.size, s.opened.size + 1) := by
  simp [openPipe, openNode]

theorem size_openPipe (s : Host) : s.openPipe.2.opened.size = s.opened.size + 2 := by
  simp [openPipe, openNode]

theorem opened_openPipe (s : Host) (h : Handle) : s.openPipe.2.opened[h]? =
    if h = s.opened.size + 1 then some ⟨s.tree.nodes.size, 0, true⟩
    else if h = s.opened.size then some ⟨s.tree.nodes.size, 0, false⟩ else s.opened[h]? := by
  change ((s.opened.push _).push _)[h]? = _
  rw [Array.getElem?_push, Array.getElem?_push, Array.size_push]

theorem get?_openPipe (s : Host) :
    s.openPipe.2.tree.get? s.tree.nodes.size = some (.file [] false) := Array.getElem?_push_size

/-- Both ends of a pipe are opened at once, so that no other node is opened that is in no
directory. -/
theorem silent_openPipe (s : Host) : s.Silent A s.openPipe.2 := by
  have has := FileTree.has_of_get? s.get?_openPipe
  refine ⟨.push (by rintro _ _ ⟨⟩), fun h o here => ?_, fun h o none here => ?_,
    fun p hp _ he => .inr ⟨p, hp, he⟩, Int.le_refl _, fun _ _ => .inl⟩
  · have inside := (Array.getElem?_eq_some_iff.1 here).1
    rw [opened_openPipe, if_neg (Nat.ne_of_lt (Nat.lt_succ_of_lt inside)),
      if_neg (Nat.ne_of_lt inside), here]
  · rw [opened_openPipe] at here
    split at here
    · obtain rfl := Option.some.inj here
      exact ⟨has, fun old => absurd old s.tree.not_has_size⟩
    · split at here
      · obtain rfl := Option.some.inj here
        exact ⟨has, fun old => absurd old s.tree.not_has_size⟩
      · cases none.symm.trans here

theorem silent_halt (s : Host) (pid : Int) {cause : Halt} (admitted : A.admits cause) :
    s.Silent A (s.halt pid cause) := by
  refine .of_halts fun pid' cause' halted => ?_
  obtain same | before := List.mem_cons.1 halted
  · obtain ⟨-, same⟩ := Prod.mk.inj same
    obtain rfl := Option.some.inj same
    exact .inr admitted
  · exact .inl before

theorem silent_setOut (s : Host) (pid : Int) : s.Silent A (s.setOut pid) := by
  refine .of_halts fun pid' cause halted => .inl ?_
  obtain same | before := List.mem_cons.1 halted
  · cases (Prod.mk.inj same).2
  · exact before

theorem course_deliver (within : s.Within A) (which : Process → Bool) :
    ∃ log, Course A s log (s.deliver which) := by
  have emptied : s.toProcessTable.Retains { s.toProcessTable with
      processes := s.processes.map fun p => if which p then { p with held := [] } else p } := by
    refine ⟨fun q hq e he => ?_, Int.le_refl _⟩
    obtain ⟨p, hp, rfl⟩ := List.mem_map.1 hq
    split at he
    · cases he
    · exact ⟨p, hp, he⟩
  have allowed : ∀ c ∈ (s.processes.filter which).flatMap Process.held,
      A.allows ⟨.delivered, c.1, c.2⟩ := by
    intro c hc
    obtain ⟨p, hp, hc⟩ := List.mem_flatMap.1 hc
    exact (within.held p (List.mem_filter.1 hp).1 c hc).1
  refine List.foldlRecOn _ _ (motive := fun t => ∃ log, Course A s log t)
    ⟨[], course_processes emptied⟩ fun t sofar c hc => ?_
  obtain ⟨log, course⟩ := sofar
  exact ⟨_, course.trans (course_attempt (allowed c hc))⟩

end Host

/-- One more file is open, and free to be used. -/
theorem Machine.Confined.opens {A : Access} {m : Machine} (hm : m.Confined A) {t : Host}
    (act : m.host.Silent A t) (one : m.host.opened.size < t.opened.size) :
    (∃ log, Course A m.host log t) ∧ m.shell.Allowed A t.extent ∧
      A.Free t.extent m.host.opened.size :=
  ⟨⟨[], .of_silent act⟩, hm.shell.mono (hm.host.extent_le act.continues),
    hm.host.free (Nat.le_refl _) one⟩

namespace SessionM

variable {α β ε : Type} {A : Access} {n k : Extent} {P : Extent → β → Prop} {Q : Extent → α → Prop}

/-- Once the host has come so far, a step uses open files only as it may, and so does what it leaves
behind. What it gives has a property, which may depend on how far the host has come then. -/
def Abides (A : Access) (n : Extent) (Q : Extent → α → Prop) (x : SessionM α) : Prop :=
  ∀ m, m.Confined A → n ≤ m.host.extent →
    (∃ log, Course A m.host log (x m).2.host) ∧
      (x m).2.shell.Allowed A (x m).2.host.extent ∧ Q (x m).2.host.extent (x m).1

abbrev Heeds (A : Access) (n : Extent) (x : SessionM α) : Prop := Abides A n (fun _ _ => True) x

/-- What has been found has a property. -/
abbrev Found (Q : Extent → α → Prop) (k : Extent) : Except ε α → Prop := Finds (Q k)

namespace Abides

theorem later {x : SessionM α} (hx : Abides A n Q x) (le : n ≤ k) : Abides A k Q x :=
  fun m hm reached => hx m hm (le_trans le reached)

theorem confined {x : SessionM α} (hx : Abides A n Q x) {m : Machine} (hm : m.Confined A)
    (reached : n ≤ m.host.extent) : (x m).2.Confined A := by
  obtain ⟨⟨log, course⟩, allowed, -⟩ := hx m hm reached
  exact ⟨course.within hm.host, allowed⟩

/-- A step that leaves the shell as it is. -/
theorem of_course {x : SessionM α}
    (course : ∀ m, m.Confined A → n ≤ m.host.extent → ∃ log, Course A m.host log (x m).2.host)
    (same : ∀ m, (x m).2.shell = m.shell) : Heeds A n x := by
  intro m hm reached
  obtain ⟨log, course⟩ := course m hm reached
  refine ⟨⟨log, course⟩, ?_, trivial⟩
  rw [same]
  exact hm.shell.mono (hm.host.extent_le course.continues)

/-- A step that changes nothing. -/
theorem of_rest {x : SessionM α} (stays : ∀ m, (x m).2 = m) : Heeds A n x := by
  intro m hm _
  rw [stays]
  exact ⟨⟨[], .rest _⟩, hm.shell, trivial⟩

theorem rest {a : α} : Heeds A n (pure a) := of_rest fun _ => rfl

theorem bind {x : SessionM β} {f : β → SessionM α} (hx : Abides A n P x)
    (hf : ∀ k b, n ≤ k → P k b → Abides A k Q (f b)) : Abides A n Q (x >>= f) := by
  intro m hm reached
  obtain ⟨⟨log, course⟩, allowed, given⟩ := hx m hm reached
  have more := le_trans reached (hm.host.extent_le course.continues)
  obtain ⟨⟨log', course'⟩, result⟩ :=
    hf _ _ more given _ ⟨course.within hm.host, allowed⟩ (le_refl _)
  exact ⟨⟨_, course.trans course'⟩, result⟩

theorem mono {Q' : Extent → α → Prop} {x : SessionM α} (hx : Abides A n Q x)
    (imp : ∀ k a, Q k a → Q' k a) : Abides A n Q' x :=
  fun m hm reached => ⟨(hx m hm reached).1, (hx m hm reached).2.1, imp _ _ (hx m hm reached).2.2⟩

theorem heeds {x : SessionM α} (hx : Abides A n Q x) : Heeds A n x :=
  hx.mono fun _ _ _ => trivial

/-- A step whose result does not matter goes before another one. -/
theorem andThen {x : SessionM β} {f : β → SessionM α} (hx : Heeds A n x)
    (hf : ∀ b, Abides A n Q (f b)) : Abides A n Q (x >>= f) :=
  hx.bind fun _ b le _ => (hf b).later le

theorem ite {x y : SessionM α} {c : Prop} [Decidable c] (hx : Abides A n Q x)
    (hy : Abides A n Q y) : Abides A n Q (if c then x else y) := by
  split
  · exact hx
  · exact hy

/-! ### Attempts -/

theorem tryPure {a : α} (ha : ∀ k, n ≤ k → Q k a) :
    Abides A n (Found Q) (Pure.pure a : AttemptM α).run :=
  fun _ hm reached => ⟨⟨[], .rest _⟩, hm.shell, ha _ reached⟩

theorem tryThrow (e : ShellError) : Abides A n (Found Q) (throw e : AttemptM α).run :=
  fun _ hm _ => ⟨⟨[], .rest _⟩, hm.shell, trivial⟩

theorem tryBind {x : AttemptM β} {f : β → AttemptM α} (hx : Abides A n (Found P) x.run)
    (hf : ∀ k b, n ≤ k → P k b → Abides A k (Found Q) (f b).run) :
    Abides A n (Found Q) (x >>= f).run := by
  rw [ExceptT.run_bind]
  refine hx.bind ?_
  rintro k (e | b) le found
  · exact tryThrow e
  · exact hf k b le found

/-- What has been found is put into a form. -/
theorem tryMap {x : AttemptM β} {g : β → α} (hx : Abides A n (Found P) x.run)
    (hg : ∀ k b, P k b → Q k (g b)) : Abides A n (Found Q) (do return g (← x)).run := by
  intro m hm reached
  have done := hx m hm reached
  rw [ExceptT.run_bind, Engine.bind_apply]
  rcases given : x.run m with ⟨e | b, m'⟩
  · rw [given] at done
    exact done
  · rw [given] at done
    exact ⟨done.1, done.2.1, hg _ _ done.2.2⟩

theorem tryThen {x : AttemptM β} {f : β → AttemptM α} (hx : Heeds A n x.run)
    (hf : ∀ b, Abides A n (Found Q) (f b).run) : Abides A n (Found Q) (x >>= f).run :=
  tryBind (P := fun _ _ => True) (hx.mono fun _ r _ => by cases r <;> trivial)
    fun _ b le _ => (hf b).later le

theorem liftBind {x : SessionM β} {f : β → AttemptM α} (hx : Abides A n P x)
    (hf : ∀ k b, n ≤ k → P k b → Abides A k (Found Q) (f b).run) :
    Abides A n (Found Q) ((liftM x : AttemptM β) >>= f).run := hx.bind hf

theorem liftThen {x : SessionM β} {f : β → AttemptM α} (hx : Heeds A n x)
    (hf : ∀ b, Abides A n (Found Q) (f b).run) :
    Abides A n (Found Q) ((liftM x : AttemptM β) >>= f).run :=
  liftBind hx fun _ b le _ => (hf b).later le

theorem tryMapM {xs : List β} {f : β → AttemptM α} (hf : ∀ b, Heeds A n (f b).run) :
    Abides A n (Found fun _ as => as.length = xs.length) (xs.mapM f).run := by
  induction xs with
  | nil => exact tryPure fun _ _ => rfl
  | cons b xs ih =>
    rw [List.mapM_cons]
    refine tryThen (hf b) fun a => ih.tryBind fun k as _ length => ?_
    exact tryPure fun _ _ => congrArg (· + 1) length

/-- An option to do something that finds what is asked for. -/
theorem tryOption {o : Option β} {f : β → AttemptM α}
    (hf : ∀ b, Abides A n (Found Q) (f b).run) :
    Abides A n (Found fun k found => ∀ a, found = some a → Q k a) (o.mapM f).run := by
  cases o with
  | none => exact tryPure (by rintro _ _ _ ⟨⟩)
  | some b =>
    refine tryMap (hf b) fun k a ha => ?_
    rintro _ ⟨⟩
    exact ha

end Abides

open Abides (of_course of_rest rest bind andThen ite tryPure tryThrow tryBind tryThen liftBind
  liftThen tryMapM tryOption)

/-! ### Parts of the state -/

theorem abides_shell : Abides A n (fun k sh => sh.Allowed A k) shell :=
  fun _ hm _ => ⟨⟨[], .rest _⟩, hm.shell, hm.shell⟩

theorem heeds_shell : Heeds A n shell := abides_shell.heeds

theorem heeds_get : Heeds A n get := of_rest fun _ => rfl

theorem heeds_host : Heeds A n host := of_rest fun _ => rfl

theorem heeds_modifyShell {f : Shell → Shell}
    (allowed : ∀ k sh, n ≤ k → sh.Allowed A k → (f sh).Allowed A k) : Heeds A n (modifyShell f) :=
  fun _ hm reached => ⟨⟨[], .rest _⟩, allowed _ _ reached hm.shell, trivial⟩

/-- What is not about files or the directory may be changed freely. -/
theorem heeds_modifyRest {f : Shell → Shell}
    (same : ∀ sh, (f sh).stdio = sh.stdio ∧ (f sh).log = sh.log ∧
      (f sh).directory = sh.directory) : Heeds A n (modifyShell f) := by
  refine heeds_modifyShell fun k sh _ allowed => ?_
  obtain ⟨stdio, log, directory⟩ := same sh
  constructor
  · rw [stdio]
    exact allowed.stdio
  · rw [log]
    exact allowed.log
  · rw [directory]
    exact allowed.directory

theorem heeds_modifyVars (f : Variables → Variables) : Heeds A n (modifyVars f) :=
  heeds_modifyRest fun _ => ⟨rfl, rfl, rfl⟩

theorem heeds_modifyJobs (f : JobTable → JobTable) : Heeds A n (modifyJobs f) :=
  heeds_modifyRest fun _ => ⟨rfl, rfl, rfl⟩

theorem heeds_modifyHost {f : Host → Host}
    (h : ∀ s : Host, s.Within A → ∃ log, Course A s log (f s)) : Heeds A n (modifyHost f) :=
  of_course (fun m hm _ => h m.host hm.host) fun _ => rfl

theorem heeds_onProcesses {f : ProcessTable → α × ProcessTable}
    (retains : ∀ s : ProcessTable, s.Retains (f s).2) : Heeds A n (onProcesses f) :=
  of_course (fun m _ _ => ⟨[], Host.course_processes (retains m.host.toProcessTable)⟩) fun _ => rfl

theorem heeds_modifyProcesses {f : ProcessTable → ProcessTable}
    (retains : ∀ s : ProcessTable, s.Retains (f s)) : Heeds A n (modifyProcesses f) :=
  of_course (fun m _ _ => ⟨[], Host.course_processes (retains m.host.toProcessTable)⟩) fun _ => rfl

/-! ### Printing -/

theorem tryWrite_apply (h : Handle) (b : Bytes) (m : Machine) :
    (tryHost (fun s => (s.write h b).map fun s => ((), s)) m).2 =
      { m with host := m.host.attempt h b } := by
  rw [tryHost_apply, Host.attempt]
  cases m.host.write h b <;> rfl

theorem heeds_tryWrite (outlet : Outlet) {h : Handle} {b : Bytes}
    (allowed : A.allows ⟨outlet, h, b⟩) :
    Heeds A n (tryHost fun s => (s.write h b).map fun s => ((), s)) := by
  refine of_course (fun m _ _ => ?_) fun m => ?_
  · rw [tryWrite_apply]
    exact ⟨_, Host.course_attempt allowed⟩
  · rw [tryWrite_apply]

theorem ofPrinting_heeds : OfPrinting fun {α} (x : SessionM α) => Heeds A n x where
  pure _ := rest
  bind := andThen
  shell := heeds_shell
  unwritten _ := heeds_modifyRest fun _ => ⟨rfl, rfl, rfl⟩
  writeDirectly _ :=
    abides_shell.bind fun _ _ _ allowed => heeds_tryWrite .printed allowed.stdio.output.1

theorem heeds_writeDirectly (b : Bytes) : Heeds A n (writeDirectly b) :=
  ofPrinting_heeds.writeDirectly b

theorem heeds_flush : Heeds A n flush := ofPrinting_heeds.flush

theorem heeds_say (pieces : List String) : Heeds A n (say pieces) := ofPrinting_heeds.say pieces

theorem heeds_halt {cause : Halt} (admitted : A.admits cause) : Heeds A n (halt cause) :=
  of_course (fun m _ _ => ⟨[], .of_silent (m.host.silent_halt _ admitted)⟩) fun _ => rfl

theorem heeds_complain (text : String) : Heeds A n (complain text) := by
  refine of_course (fun m hm _ => ?_) fun _ => rfl
  change ∃ log, Course A m.host log (m.host.complain m.shell.pid m.shell.stdio.error text)
  have allowed : A.allows ⟨.complained, m.shell.stdio.error, Bytes.ofString text⟩ :=
    hm.shell.stdio.error.1
  rw [Host.complain_eq]
  split
  · next full =>
    have crashes : A.crashes := hm.shell.stdio.space.resolve_right fun space => by
      cases full.1.symm.trans space.2
    exact ⟨[], .of_silent (m.host.silent_halt _ crashes)⟩
  · exact ⟨_, Host.course_attempt allowed⟩

theorem heeds_writeTo (outlet : Outlet) {h : Handle} {b : Bytes}
    (allowed : A.allows ⟨outlet, h, b⟩) : Heeds A n (writeTo h b) :=
  heeds_modifyHost fun _ _ => ⟨_, Host.course_attempt allowed⟩

theorem heeds_record (text : String) : Heeds A n (record text) := by
  refine abides_shell.bind fun _ sh _ allowed => ?_
  cases log : sh.log with
  | none => exact rest
  | some h => exact heeds_writeTo .recorded (allowed.log h log).1

theorem heeds_fail (name message : String) (status : Int) : Heeds A n (fail name message status) :=
  (heeds_complain _).andThen fun _ => rest

/-! ### Preparations -/

/-- All that opening for reading can do. -/
theorem openInput_cases {m : Machine} (hm : m.Confined A) (path : String) :
    (∃ e, (openInput path).run m = (.error e, m)) ∨
    ∃ node t, m.host.tree.lookup true m.shell.directory path = .ok node ∧
      (openInput path).run m = (.ok m.host.opened.size, { m with host := t }) ∧
      m.host.Silent A t ∧ t.tree = m.host.tree ∧ t.toProcessTable = m.host.toProcessTable ∧
      t.opened[m.host.opened.size]? = some ⟨node, 0, false⟩ := by
  have run := openInput_run path m
  cases found : m.host.tree.lookup true m.shell.directory path with
  | error e =>
    rw [found] at run
    exact .inl ⟨_, run⟩
  | ok node =>
    rw [found] at run
    obtain ⟨has, listed⟩ := FileTree.has_of_lookup hm.host.sound hm.isDirectory found
    exact .inr ⟨node, _, rfl, run, .openNode (.refl m.host.tree) has (fun _ => listed) false, rfl, rfl,
      Array.getElem?_push_size⟩

/-- All that opening for writing can do. -/
theorem openOutput_cases {m : Machine} (hm : m.Confined A) (target : Target) :
    (∃ e, (openOutput target).run m = (.error e, m)) ∨
    ∃ node tree t, m.host.tree.openForWriting m.shell.directory target.path = .ok (node, tree) ∧
      (openOutput target).run m = (.ok m.host.opened.size, { m with host := t }) ∧
      m.host.Silent A t ∧ t.toProcessTable = m.host.toProcessTable ∧
      t.opened[m.host.opened.size]? = some ⟨node, 0, target.append⟩ := by
  have run := openOutput_run target m
  cases found : m.host.tree.openForWriting m.shell.directory target.path with
  | error e =>
    rw [found] at run
    exact .inl ⟨_, run⟩
  | ok file =>
    obtain ⟨node, tree⟩ := file
    rw [found] at run
    obtain ⟨spares, has, listed⟩ :=
      FileTree.Spares.openForWriting hm.host.sound hm.isDirectory found
    obtain ⟨emptied, has'⟩ := FileTree.Spares.openAndTruncate hm.host.sound hm.isDirectory found
    refine .inr ⟨node, tree, _, rfl, run, ?_, rfl, Array.getElem?_push_size⟩
    split
    · exact .openNode spares has listed _
    · exact .openNode emptied has' listed _

theorem abides_openInput (path : String) :
    Abides A n (Found A.Free) (openInput path).run := by
  intro m hm _
  obtain ⟨e, run⟩ | ⟨node, t, -, run, silent, -, -, opened⟩ := openInput_cases hm path
  · rw [run]
    exact ⟨⟨[], .rest _⟩, hm.shell, trivial⟩
  · rw [run]
    exact hm.opens silent (Array.getElem?_eq_some_iff.1 opened).1

theorem abides_openOutput (target : Target) :
    Abides A n (Found A.Free) (openOutput target).run := by
  intro m hm _
  obtain ⟨e, run⟩ | ⟨node, tree, t, -, run, silent, -, opened⟩ := openOutput_cases hm target
  · rw [run]
    exact ⟨⟨[], .rest _⟩, hm.shell, trivial⟩
  · rw [run]
    exact hm.opens silent (Array.getElem?_eq_some_iff.1 opened).1

theorem heeds_prepareImage (argv : List String) : Heeds A n (prepareImage argv).run := by
  refine (liftThen (Q := fun _ _ => True) heeds_get fun m => ?_).heeds
  dsimp only
  split
  · exact tryPure fun _ _ => trivial
  · exact tryThrow _

theorem heeds_build {act : Surroundings → BuildM α}
    (spares : ∀ here (t : FileTree), t.Sound → t.isDirectory here.directory = true →
      t.Spares (act here t).2) : Heeds A n (build act).run := by
  refine of_course (fun m hm _ => ?_) fun m => ?_
  · rw [build_run]
    exact ⟨[], .of_silent (.of_tree (spares _ _ hm.host.sound hm.isDirectory))⟩
  · rw [build_run]

theorem heeds_buildCommand (ts : List Token) : Heeds A n (build (Command.build · ts)).run := by
  refine heeds_build fun here t sound directory => ?_
  have spares := FileTree.Spares.checkRedirections sound directory ts
  unfold Command.build
  split
  all_goals
    next checked =>
    rw [checked] at spares
    exact spares

theorem heeds_buildPipeline (ts : List Token) : Heeds A n (build (Pipeline.build · ts)).run := by
  refine heeds_build fun here t sound directory => ?_
  have spares := FileTree.Spares.checkRedirections sound directory ts
  unfold Pipeline.build
  split
  all_goals
    next checked =>
    rw [checked] at spares
    exact spares

theorem heeds_planStage (c : Command) : Heeds A n (planStage c).run := by
  unfold planStage planStageBy
  split
  · exact (tryPure (Q := fun _ _ => True) fun _ _ => trivial).heeds
  · exact (tryPure (Q := fun _ _ => True) fun _ _ => trivial).heeds
  · refine (tryThen (Q := fun _ _ => True) (heeds_prepareImage _) fun _ => ?_).heeds
    exact tryPure fun _ _ => trivial

theorem heeds_planBackground (ts : List Token) : Heeds A n (planBackground ts).run := by
  refine ite (tryPure (Q := fun _ _ => True) fun _ _ => trivial).heeds ?_
  refine (tryThen (Q := fun _ _ => True) (heeds_buildCommand ts) fun c => ?_).heeds
  refine ite (tryPure fun _ _ => trivial) (tryThen (heeds_prepareImage _) fun _ => ?_)
  exact tryPure fun _ _ => trivial

theorem abides_openForLaunch (launch : Launch) :
    Abides A n (Found fun k files => A.Free k files.1 ∧ ∀ h, files.2 = some h → A.Free k h)
      (openForLaunch launch).run := by
  have last {n : Extent} {o : Option Handle} (free : ∀ h, o = some h → A.Free n h) :
      Abides A n (Found fun k files => A.Free k files.1 ∧ ∀ h, files.2 = some h → A.Free k h) (do
        return (← openInput "/dev/null", o) : AttemptM (Handle × Option Handle)).run :=
    (abides_openInput _).tryBind fun _ _ le opened => tryPure fun _ le' =>
      ⟨opened.mono le', fun h hh => (free h hh).mono (le_trans le le')⟩
  cases launch with
  | copy => exact last (by rintro _ ⟨⟩)
  | program c image =>
    refine (tryOption abides_openInput).tryBind fun n input _ read => ?_
    refine (tryOption abides_openOutput).tryBind fun k output le written => ?_
    cases input with
    | none => exact last written
    | some handle =>
      exact tryPure fun _ le' =>
        ⟨(read handle rfl).mono (le_trans le le'), fun h hh => (written h hh).mono le'⟩

/-! ### Files of the shell itself -/

theorem heeds_restore {own : Stdio} (allowed : own.Allowed A n) : Heeds A n (restore own) :=
  heeds_flush.andThen fun _ => heeds_modifyShell fun _ _ le sh =>
    { sh with stdio := allowed.mono le }

theorem heeds_redirectInput {h : Handle} (free : A.Free n h) : Heeds A n (redirectInput h) :=
  heeds_modifyShell fun _ _ le sh =>
    { sh with stdio := { sh.stdio with input := ⟨free.reads, (free.mono le).opened⟩ } }

theorem heeds_redirectOutput {h : Handle} (free : A.Free n h) : Heeds A n (redirectOutput h) :=
  heeds_modifyShell fun _ _ le sh =>
    { sh with stdio := { sh.stdio with output := ⟨free.prints, (free.mono le).opened⟩ } }

theorem heeds_redirectForBuiltin (c : Command) {own : Stdio} (allowed : own.Allowed A n) :
    Heeds A n (redirectForBuiltin c own).run := by
  refine Abides.heeds (Q := Found fun _ _ => True) ?_
  unfold redirectForBuiltin
  dsimp only
  split
  on_goal 1 =>
    refine (abides_openInput _).tryBind fun k f le free => ?_
    replace allowed := allowed.mono le
    refine liftThen (heeds_redirectInput free) fun _ => ?_
  -- With or without an input, the output is redirected in the same way.
  all_goals
    split
    · refine liftBind (abides_openOutput _) ?_
      rintro j (e | f) le' free
      · refine ite ?_ (tryThrow e)
        exact liftThen (heeds_restore (allowed.mono le')) fun _ => tryThrow e
      · refine liftThen heeds_flush fun _ => ?_
        exact (heeds_redirectOutput free).mono fun _ _ _ => trivial
    · exact tryPure fun _ _ => trivial

/-! ### Processes -/

theorem heeds_deliver (which : Process → Bool) : Heeds A n (modifyHost (·.deliver which)) :=
  heeds_modifyHost fun _ within => Host.course_deliver within which

theorem heeds_kill (self target : Int) (signal : Option Signal) :
    Heeds A n (onProcesses (·.kill self target signal)) :=
  heeds_onProcesses fun _ => .kill self target signal

theorem heeds_receiveSignal (sig : Signal) : Heeds A n (receiveSignal sig) := by
  have linefeed : Heeds A n (do let _ ← writeDirectly [Bytes.newline]) :=
    (heeds_writeDirectly _).andThen fun _ => rest
  refine heeds_shell.andThen fun sh => ite ?_ (rest)
  split
  · exact ite ((heeds_kill _ _ _).andThen fun _ => rest) linefeed
  · exact linefeed

theorem heeds_spawn (ownGroup : Bool) : Heeds A n (spawn ownGroup) :=
  heeds_shell.andThen fun _ => heeds_onProcesses fun _ => .spawn _ _

theorem heeds_waitFor (pid : Int) : Heeds A n (waitFor pid) :=
  heeds_shell.andThen fun _ => (heeds_deliver _).andThen fun _ =>
    heeds_onProcesses fun s => .waitThrough _ _ s.outside

theorem heeds_withForeground {act : SessionM α} (pid : Int) (hact : Heeds A n act) :
    Heeds A n (withForeground pid act) := by
  have marked (p : Option Int) : Heeds A n (modifyShell fun sh => { sh with foreground := p }) :=
    heeds_modifyRest fun _ => ⟨rfl, rfl, rfl⟩
  exact (marked (some pid)).andThen fun _ => hact.andThen fun a => (marked none).andThen fun _ =>
    rest

theorem heeds_settle (pid : Int) (display : String) (outcome : Outcome) :
    Heeds A n (settle pid display outcome) := by
  cases outcome with
  | exited | killed => exact rest
  | stopped sig =>
    refine heeds_shell.andThen fun sh => (heeds_modifyJobs _).andThen fun _ => ?_
    exact (heeds_say _).andThen fun _ => rest

/-! ### Programs -/

end SessionM

/-- What a program writes, through the files that it has been given. -/
def Writing.ofProgram (stdio : Stdio) (w : Channel × Bytes) : Writing :=
  match w.1 with
  | .output => ⟨.printed, stdio.output, w.2⟩
  | .error => ⟨.complained, stdio.error, w.2⟩

/-- What the process of a program writes: what that makes of its input, or a message if it cannot be
run. -/
def Image.writings (image : Image) (s : Host) (dir : NodeId) (pid : Int) (stdio : Stdio)
    (unwritten : Bytes) : List Writing :=
  if (s.process? pid).all Process.isEnded then []
  else match image.load s.tree dir with
    | .error e =>
      let message := "jobsh: " ++ (ShellError.execute image.name e).message ++ "\n"
      [⟨.complained, stdio.error, Bytes.ofString message⟩, ⟨.printed, stdio.output, unwritten⟩]
    | .ok program =>
      let received := (s.drawn stdio.input).1
      (program ⟨image.argv, image.environment, received⟩).writes.map (.ofProgram stdio)

namespace SessionM

open Abides (of_course rest andThen)

variable {stdio : Stdio}

/-- At some state, a step leaves the shell as it is, and what it writes is known. -/
def Logs (A : Access) (x : SessionM α) (m : Machine) (log : List Writing) : Prop :=
  Course A m.host log (x m).2.host ∧ (x m).2.shell = m.shell

theorem Logs.bind {x : SessionM β} {f : β → SessionM α} {m : Machine} {log log' : List Writing}
    (hx : Logs A x m log) (hf : Logs A (f (x m).1) (x m).2 log') :
    Logs A (x >>= f) m (log ++ log') := ⟨hx.1.trans hf.1, hf.2.trans hx.2⟩

theorem logs_writes (allowed : stdio.Allowed A n) (writes : List (Channel × Bytes)) (m : Machine) :
    Logs A (writes.forM fun w =>
      writeTo (match w.1 with | .output => stdio.output | .error => stdio.error) w.2) m
      (writes.map (.ofProgram stdio)) := by
  induction writes generalizing m with
  | nil => exact ⟨.rest _, rfl⟩
  | cons w writes ih =>
    obtain ⟨channel, b⟩ := w
    cases channel with
    | output =>
      have first : Logs A (writeTo stdio.output b) m [⟨.printed, stdio.output, b⟩] :=
        ⟨Host.course_attempt allowed.output.1, rfl⟩
      exact first.bind (ih _)
    | error =>
      have first : Logs A (writeTo stdio.error b) m [⟨.complained, stdio.error, b⟩] :=
        ⟨Host.course_attempt allowed.error.1, rfl⟩
      exact first.bind (ih _)

theorem logs_removes (dir : NodeId) (paths : List String) (m : Machine) :
    Logs A (paths.forM fun path =>
      modifyHost fun s => { s with tree := s.tree.remove dir path }) m [] := by
  induction paths generalizing m with
  | nil => exact ⟨.rest _, rfl⟩
  | cons path paths ih =>
    have first : Logs A (modifyHost fun s => { s with tree := s.tree.remove dir path }) m [] :=
      ⟨.of_silent (.of_tree (.remove m.host.tree dir path)), rfl⟩
    exact first.bind (ih _)

theorem logs_perform (allowed : stdio.Allowed A n) (dir : NodeId) (image : Image) (program : Program)
    (m : Machine) :
    Logs A (perform stdio dir image program) m
      ((program ⟨image.argv, image.environment, (m.host.drawn stdio.input).1⟩).writes.map
        (.ofProgram stdio)) := by
  have read : Logs A (onHost (·.drawn stdio.input)) m [] := ⟨.read allowed.input.1 (.rest _), rfl⟩
  have written := logs_writes allowed
    (program ⟨image.argv, image.environment, (m.host.drawn stdio.input).1⟩).writes
    ⟨m.shell, (m.host.drawn stdio.input).2⟩
  have removed := logs_removes (A := A) dir
    (program ⟨image.argv, image.environment, (m.host.drawn stdio.input).1⟩).removes
  have done := read.1.trans (written.1.trans (removed _).1)
  rw [List.nil_append, List.append_nil] at done
  exact ⟨done, (removed _).2.trans written.2⟩

theorem host_apply (m : Machine) : host m = (m.host, m) := rfl

/-- What the shell does as a program goes on. -/
def answer : Sequel → SessionM Unit
  | .pokes sig => receiveSignal sig
  | _ => return

/-- All that a process for a program does. Only a signal that the program sends to the shell may
call for more. -/
theorem runImage_cases (allowed : stdio.Allowed A n) (pid : Int) (unwritten : Bytes) (image : Image)
    (m : Machine) :
    ∃ s, Course A m.host (image.writings m.host m.shell.directory pid stdio unwritten) s ∧
      ((runImage pid stdio unwritten image m).2 = ⟨m.shell, s⟩ ∨
        ∃ sig, (runImage pid stdio unwritten image m).2 = (receiveSignal sig ⟨m.shell, s⟩).2) := by
  rw [Image.writings]
  by_cases idle : (m.host.process? pid).all Process.isEnded = true
  · rw [if_pos idle]
    refine ⟨m.host, .rest _, .inl ?_⟩
    change ((if _ then _ else _ : SessionM Unit) m).2 = m
    rw [if_pos idle]
    rfl
  rw [if_neg idle]
  cases loaded : image.load m.host.tree m.shell.directory with
  | error e =>
    let message := Bytes.ofString ("jobsh: " ++ (ShellError.execute image.name e).message ++ "\n")
    let told := m.host.attempt stdio.error message
    let printed := told.attempt stdio.output unwritten
    have run : (runImage pid stdio unwritten image m).2 =
        ⟨m.shell, printed.updateProcess pid (·.finish (.exited 127))⟩ := by
      change ((if _ then _ else _ : SessionM Unit) m).2 = _
      rw [if_neg idle, Engine.bind_apply, host_apply]
      dsimp only
      rw [loaded]
      rfl
    have complained : A.allows ⟨.complained, stdio.error, message⟩ := allowed.error.1
    have printing : A.allows ⟨.printed, stdio.output, unwritten⟩ := allowed.output.1
    refine ⟨_, .write complained (.write printing ?_), .inl run⟩
    exact Host.course_processes (.update pid fun _ => rfl)
  | ok program =>
    have performed := logs_perform allowed m.shell.directory image program m
    let after := (perform stdio m.shell.directory image program m).2
    let next := (perform stdio m.shell.directory image program m).1
    let ended := after.host.updateProcess pid (·.goOn next)
    refine ⟨ended, ?_, ?_⟩
    · have updated : Course A after.host [] ended :=
        Host.course_processes (.update pid fun p => p.held_goOn next)
      have done := performed.1.trans updated
      rwa [List.append_nil] at done
    · have run : runImage pid stdio unwritten image m = answer next ⟨after.shell, ended⟩ := by
        change (if _ then _ else _ : SessionM Unit) m = _
        rw [if_neg idle, Engine.bind_apply, host_apply]
        dsimp only
        rw [loaded]
        rfl
      rw [run, performed.2]
      cases next with
      | pokes sig => exact .inr ⟨sig, rfl⟩
      | _ => exact .inl rfl

/-- A signal to the shell changes nothing but processes, if one of them is in the foreground or the
shell does not pass signals on. -/
theorem logs_receiveSignal {m : Machine}
    (passed : m.shell.forwards = true → ∃ pid, m.shell.foreground = some pid ∧ 0 < pid)
    (sig : Signal) : Logs A (receiveSignal sig) m [] := by
  change Logs A (if _ then _ else _) m []
  split
  · next forwarded =>
    simp only [Bool.and_eq_true] at forwarded
    obtain ⟨pid, watched, positive⟩ := passed forwarded.1
    rw [watched]
    dsimp only
    rw [if_pos positive]
    exact ⟨Host.course_processes (.kill _ _ _), rfl⟩
  · exact ⟨.rest _, rfl⟩

theorem shell_receiveSignal (sig : Signal) (m : Machine) :
    (receiveSignal sig m).2.shell = m.shell := by
  have linefeed : ((do let _ ← writeDirectly [Bytes.newline]) m).2.shell = m.shell := by
    change (tryHost (fun s => (s.write m.shell.stdio.output [Bytes.newline]).map fun s =>
      ((), s)) m).2.shell = _
    rw [tryWrite_apply]
  change ((if _ then _ else _ : SessionM Unit) m).2.shell = _
  split
  · split
    · split
      · rfl
      · exact linefeed
    · exact linefeed
  · rfl

theorem heeds_runImage (allowed : stdio.Allowed A n) (pid : Int) (unwritten : Bytes)
    (image : Image) : Heeds A n (runImage pid stdio unwritten image) := by
  intro m hm _
  obtain ⟨s, course, run | ⟨sig, run⟩⟩ := runImage_cases allowed pid unwritten image m
  · rw [run]
    exact ⟨⟨_, course⟩, hm.shell.mono (hm.host.extent_le course.continues), trivial⟩
  · have confined : Machine.Confined A ⟨m.shell, s⟩ :=
      ⟨course.within hm.host, hm.shell.mono (hm.host.extent_le course.continues)⟩
    obtain ⟨⟨log, later⟩, shell, -⟩ := heeds_receiveSignal (n := ⊥) sig _ confined bot_le
    rw [run]
    exact ⟨⟨_, course.trans later⟩, shell, trivial⟩

/-! ### Copies of the shell -/

/-- A copy that has run is brought to its end, and the shell itself comes back. -/
theorem heeds_endCopy {parent : Shell} (allowed : parent.Allowed A n) (pid : Int) (status : Int) :
    Heeds A n (endCopy pid parent status) := by
  have restored : Heeds A n (modifyShell fun _ => parent) :=
    heeds_modifyShell fun _ _ le _ => allowed.mono le
  have ending : Heeds A n (copyEnding pid status) := heeds_host.andThen fun _ =>
    Abides.ite rest (Abides.ite (heeds_flush.andThen fun _ => rest) rest)
  refine ending.andThen fun left => restored.andThen fun _ => ?_
  cases left with
  | none => exact rest
  | some status =>
    refine (heeds_deliver _).andThen fun _ => ?_
    exact heeds_modifyProcesses fun s => (ProcessTable.Retains.orphan pid).trans (.leave pid _)

/-- What a copy leaves behind on the host does not depend on the shell that comes back. -/
theorem host_endCopy (pid : Int) (parent parent' : Shell) (status : Int) (m : Machine) :
    (endCopy pid parent status m).2.host = (endCopy pid parent' status m).2.host := by
  rw [endCopy, endCopy, Engine.bind_apply, Engine.bind_apply _ _ m]
  cases (copyEnding pid status m).1 <;> rfl

/-- A copy of the shell may use the files that it has been given. Those of the shell itself do not
matter. -/
theorem course_runCopy {m : Machine} (within : m.host.Within A) {copy : Shell}
    (allowed : copy.Allowed A m.host.extent) {body : SessionM Int}
    (hbody : Heeds A m.host.extent body) (pid : Int) :
    ∃ log, Course A m.host log (runCopy pid copy body m).2.host := by
  rw [runCopy_apply]
  split
  · exact ⟨[], .rest _⟩
  let start : Machine :=
    ⟨{ copy with pid, forwards := false, foreground := none }, m.host.setOut pid⟩
  have setOut : m.host.Silent A start.host := m.host.silent_setOut pid
  have reached := within.extent_le setOut.continues
  have started : Course A m.host [] start.host := .of_silent setOut
  have confined : start.Confined A :=
    ⟨started.within within, (allowed.mono reached).stdio, (allowed.mono reached).log,
      allowed.directory⟩
  obtain ⟨⟨log, ran⟩, kept, -⟩ := hbody start confined reached
  obtain ⟨⟨log', ended⟩, -⟩ := heeds_endCopy kept pid (body start).1 (body start).2
    ⟨ran.within confined.host, kept⟩ (le_refl _)
  rw [host_endCopy pid _ m.shell] at ended
  exact ⟨_, started.trans (ran.trans ended)⟩

theorem heeds_runCopy {copy : Shell} (allowed : copy.Allowed A n) {body : SessionM Int}
    (hbody : Heeds A n body) (pid : Int) : Heeds A n (runCopy pid copy body) := by
  refine of_course (fun m hm reached => ?_) fun m => shell_runCopy pid copy body m
  exact course_runCopy hm.host (allowed.mono reached) (hbody.later reached) pid

theorem abides_openPipe :
    Abides A n (fun k ends => A.Free k ends.1 ∧ A.Free k ends.2) (onHost (·.openPipe)) := by
  intro m hm _
  have silent := m.host.silent_openPipe (A := A)
  refine ⟨⟨[], .of_silent silent⟩, hm.shell.mono (hm.host.extent_le silent.continues), ?_⟩
  change A.Free m.host.openPipe.2.extent m.host.openPipe.1.1 ∧
    A.Free m.host.openPipe.2.extent m.host.openPipe.1.2
  have size : m.host.openPipe.2.extent.opened = m.host.opened.size + 2 := m.host.size_openPipe
  have first : m.host.opened.size < m.host.openPipe.2.extent.opened :=
    size ▸ Nat.lt_succ_of_lt (Nat.lt_succ_self _)
  have second : m.host.opened.size + 1 < m.host.openPipe.2.extent.opened :=
    size ▸ Nat.lt_succ_self _
  rw [Host.openPipe_fst]
  exact ⟨hm.host.free (Nat.le_refl _) first, hm.host.free (Nat.le_succ _) second⟩

/-- In a new file there is space. -/
theorem abides_openUnnamed : Abides A n (fun k h => A.Free k h ∧ k.spacious h)
    (onHost (·.openUnnamed (.file [] false))) := by
  intro m hm _
  have course : Course A m.host [] (m.host.openUnnamed (.file [] false)).2 :=
    Host.course_openUnnamed (by rintro _ _ ⟨⟩)
  have opened : m.host.opened.size < (m.host.openUnnamed (.file [] false)).2.opened.size :=
    Host.lt_opened_openNode
  refine ⟨⟨[], course⟩, hm.shell.mono (hm.host.extent_le course.continues),
    hm.host.free (Nat.le_refl _) opened, opened, ?_⟩
  have place : (m.host.openUnnamed (.file [] false)).2.opened[m.host.opened.size]? =
      some ⟨m.host.tree.nodes.size, 0, false⟩ := Array.getElem?_push_size
  have node : (m.host.openUnnamed (.file [] false)).2.tree.get? m.host.tree.nodes.size =
      some (.file [] false) := Array.getElem?_push_size
  change (m.host.openUnnamed (.file [] false)).2.isFull m.host.opened.size = false
  rw [Host.isFull, place, Option.bind_some, node]

/-- What runs apart from the shell may use what has been opened for it, and what it has held back
goes to the shell's own files. -/
theorem heeds_runApart {pid : Int} {input : Handle} {output : Option Handle} {copy : Shell}
    (free : A.Free n input) (given : ∀ h, output = some h → A.Free n h)
    (allowed : copy.Allowed A n) {run : Stdio → SessionM Unit}
    (hr : ∀ (k : Extent) (stdio : Stdio), n ≤ k → stdio.Allowed A k → Heeds A k (run stdio)) :
    Heeds A n (runApart pid input output copy run) := by
  refine abides_openUnnamed.bind fun k out le hout => ?_
  refine abides_openUnnamed.bind fun j err le' herr => ?_
  have more := le_trans le le'
  refine (hr j _ more ⟨?_, ?_, ⟨herr.1.complains, herr.1.opened⟩, .inr herr.2⟩).andThen fun _ => ?_
  · exact ⟨free.reads, (free.mono more).opened⟩
  · cases output with
    | none => exact ⟨hout.1.prints, (hout.1.mono le').opened⟩
    | some h => exact ⟨(given h rfl).prints, ((given h rfl).mono more).opened⟩
  refine of_course (fun m _ reached => ⟨[], ?_⟩) fun _ => rfl
  refine .of_silent ⟨.refl _, fun _ _ => id, fun h o none here => ?_, fun q hq e he => ?_,
    Int.le_refl _, fun _ _ => .inl⟩
  · cases none.symm.trans here
  · obtain ⟨p, hp, ⟨-, rfl⟩ | ⟨-, rfl⟩⟩ := ProcessTable.mem_update hq
    · left
      have inside := allowed.stdio.mono (le_trans more reached)
      simp only [List.mem_cons, List.not_mem_nil, or_false] at he
      obtain rfl | rfl := he
      · exact ⟨A.held (.inl inside.output.1) _, inside.output.2⟩
      · exact ⟨A.held (.inr (.inl inside.error.1)) _, inside.error.2⟩
    · exact .inr ⟨q, hp, he⟩

end SessionM
end JobShell
