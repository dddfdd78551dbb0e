import Mathlib.Data.List.Chain
import JobShell.Proofs.ConfinedRuns

/-! The stages of a pipeline, as they run one after the other. Each reads what the one before it has
printed, all of it and nothing else, and only the last one prints to its output or to that of the
shell. -/
namespace JobShell

open Host (Course)

namespace Host

variable {s : Host} {stdio : Stdio}

theorem drawn_of_file {h : Handle} {o : OpenFile} {content : Bytes} {executable : Bool}
    (opened : s.opened[h]? = some o) (file : s.tree.get? o.node = some (.file content executable)) :
    (s.drawn h).1 = content.drop o.offset := by
  simp only [drawn, readAll, opened, file]

/-- Nothing but its two ends leads to a pipe that has been opened. -/
theorem piped_openPipe (sound : s.tree.Sound)
    (nodes : ∀ (h : Handle) (o : OpenFile), s.opened[h]? = some o → s.tree.Has o.node) :
    s.openPipe.2.Piped s.tree.nodes.size s.opened.size (s.opened.size + 1) where
  has := FileTree.has_of_get? s.get?_openPipe
  unlisted := FileTree.unlisted_push sound (by rintro _ _ ⟨⟩)
  reads := by
    refine ⟨⟨s.tree.nodes.size, 0, false⟩, ?_, rfl⟩
    rw [opened_openPipe, if_neg (Nat.ne_of_lt (Nat.lt_succ_self _)), if_pos rfl]
  appends := by
    refine ⟨⟨s.tree.nodes.size, 0, true⟩, ?_, rfl, rfl⟩
    rw [opened_openPipe, if_pos rfl]
  only h o here same := by
    rw [opened_openPipe] at here
    split at here
    · exact .inr ‹_›
    · split at here
      · exact .inl ‹_›
      · have old := nodes h o here
        rw [same] at old
        exact absurd old s.tree.not_has_size

/-- A process may use the files that it has been given. -/
theorem allowed_access {log : Option Handle} (input : stdio.input < s.opened.size)
    (output : stdio.output < s.opened.size) (error : stdio.error < s.opened.size) :
    stdio.Allowed (s.access stdio log) s.extent where
  input := ⟨.inl rfl, input⟩
  output := ⟨.inl rfl, output⟩
  error := ⟨.inl rfl, error⟩
  space := by
    cases full : s.isFull stdio.error with
    | true => exact .inl full
    | false => exact .inr ⟨error, full⟩

/-- A file that is open and is none of those that a process has been given is out of its reach, unless
what others have held back is to go there. -/
theorem access_apart {log : Option Handle} {h : Handle} (old : h < s.opened.size)
    (input : h ≠ stdio.input) (output : h ≠ stdio.output) (error : h ≠ stdio.error) (other : h ∉ log)
    (unheld : ∀ p ∈ s.processes, ∀ e ∈ p.held, e.1 ≠ h) :
    ¬(s.access stdio log).reads h ∧ ∀ b, ¬(s.access stdio log).holds h b := by
  refine ⟨?_, fun b => ?_⟩
  · rintro (same | new)
    · exact input same
    · exact Nat.not_le.2 old new
  · rintro (same | same | recorded | new | ⟨p, hp, he⟩)
    · exact output same
    · exact error same
    · exact other recorded
    · exact Nat.not_le.2 old new
    · exact unheld p hp _ he rfl

/-! ### Pipes that nobody has used -/

/-- A pipe through which nothing has gone yet. -/
structure Unused (s : Host) (node : NodeId) (reader writer : Handle) : Prop
    extends s.Piped node reader writer where
  empty : s.tree.get? node = some (.file [] false)
  start : s.opened[reader]? = some ⟨node, 0, false⟩
  unheld : ∀ p ∈ s.processes, ∀ e ∈ p.held, e.1 ≠ reader ∧ e.1 ≠ writer

theorem unused_openPipe (sound : s.tree.Sound)
    (nodes : ∀ (h : Handle) (o : OpenFile), s.opened[h]? = some o → s.tree.Has o.node)
    (held : ∀ p ∈ s.processes, ∀ e ∈ p.held, e.1 < s.opened.size) :
    s.openPipe.2.Unused s.tree.nodes.size s.opened.size (s.opened.size + 1) where
  toPiped := piped_openPipe sound nodes
  empty := s.get?_openPipe
  start := by rw [opened_openPipe, if_neg (Nat.ne_of_lt (Nat.lt_succ_self _)), if_pos rfl]
  unheld p hp e he :=
    ⟨Nat.ne_of_lt (held p hp e he), Nat.ne_of_lt (Nat.lt_succ_of_lt (held p hp e he))⟩

namespace Unused

theorem opened {node : NodeId} {reader writer : Handle} (unused : s.Unused node reader writer) :
    reader < s.opened.size ∧ writer < s.opened.size := by
  obtain ⟨o, there, -⟩ := unused.appends
  exact ⟨(Array.getElem?_eq_some_iff.1 unused.start).1, (Array.getElem?_eq_some_iff.1 there).1⟩

variable {A : Access} {t : Host} {node : NodeId} {reader writer : Handle} {log : List Writing}

theorem silent (unused : s.Unused node reader writer) (act : s.Silent A t)
    (same : t.processes = s.processes) : t.Unused node reader writer where
  toPiped := unused.go act.continues
  empty := (unused.toPiped.silent act).2.trans unused.empty
  start := (unused.toPiped.silent act).1.trans unused.start
  unheld p hp := unused.unheld p (same ▸ hp)

/-- It makes no difference what becomes of processes, as long as they hold back nothing new. -/
theorem of_processes (unused : s.Unused node reader writer) {processes : ProcessTable}
    (held : ∀ p ∈ processes.processes, ∀ e ∈ p.held, ∃ q ∈ s.processes, e ∈ q.held) :
    Unused { s with toProcessTable := processes } node reader writer where
  has := unused.has
  unlisted := unused.unlisted
  reads := unused.reads
  appends := unused.appends
  only := unused.only
  empty := unused.empty
  start := unused.start
  unheld p hp e he := by
    obtain ⟨q, hq, he⟩ := held p hp e he
    exact unused.unheld q hq e he

/-- Those for whom it is out of reach leave it alone. -/
theorem course (unused : s.Unused node reader writer) (within : s.Within A)
    (course : Course A s log t) (read : ¬A.reads reader ∧ ∀ b, ¬A.holds reader b)
    (written : ¬A.reads writer ∧ ∀ b, ¬A.holds writer b) : t.Unused node reader writer := by
  obtain ⟨place, content⟩ :=
    unused.toPiped.course unused.empty course ⟨read.1, written.1⟩ read.2
  have none : Writing.through writer log = [] := by
    rw [Writing.through, List.filter_eq_nil_iff.2]
    · rfl
    · intro w hw same
      obtain rfl := of_decide_eq_true same
      exact written.2 _ (Access.holds_of_allows (course.allows w hw))
  rw [none] at content
  refine ⟨unused.go course.continues, content, place.trans unused.start, fun p hp e he => ?_⟩
  have held := ((course.within within).held p hp e he).1
  constructor <;> rintro rfl
  · exact read.2 _ held
  · exact written.2 _ held

/-- All that is there to read after something has been written is what has been written. -/
theorem drawn (unused : s.Unused node reader writer) (course : Course A s log t)
    (read : ¬A.reads reader ∧ ∀ b, ¬A.holds reader b) (unread : ¬A.reads writer) :
    (t.drawn reader).1 = Writing.through writer log := by
  obtain ⟨place, content⟩ := unused.toPiped.course unused.empty course ⟨read.1, unread⟩ read.2
  rw [drawn_of_file (place.trans unused.start) content]
  rfl

end Unused
end Host

namespace SessionM

variable {source : Builtin.Sourcing} {m : Machine} {stdio : Stdio}

/-! ### Single stages -/

/-- A signal that comes while a process is in the foreground is passed on to it. -/
def Watches (sh : Shell) : Prop :=
  sh.forwards = true → ∃ pid, sh.foreground = some pid ∧ 0 < pid

/-- All that a stage writes. A program writes what it makes of its input. -/
theorem course_runStage (sourcing : IsSourcing source) (inOrder : m.InOrder)
    (allowed : stdio.Allowed (m.host.access stdio m.shell.log) m.host.extent)
    (watches : Watches m.shell) (pid : Int) (c : Command) (stage : Stage) :
    ∃ log, Course (m.host.access stdio m.shell.log) m.host log
        (runStage source pid stdio c stage m).2.host ∧
      (runStage source pid stdio c stage m).2.shell = m.shell ∧
      ∀ image, stage = .program image →
        log = image.writings m.host m.shell.directory pid stdio m.shell.unwritten := by
  have within := inOrder.within stdio m.shell.log
  have copied : Shell.Allowed (m.host.access stdio m.shell.log) m.host.extent
      { m.shell with stdio } := ⟨allowed, fun h hh => ⟨hh, inOrder.log h hh⟩, inOrder.directory⟩
  cases stage with
  | assignment =>
    obtain ⟨log, course⟩ := course_runCopy within copied Abides.rest pid
    exact ⟨log, course, shell_runCopy pid _ _ m, by rintro _ ⟨⟩⟩
  | builtin b =>
    obtain ⟨log, course⟩ := course_runCopy within copied (heeds_builtin sourcing.heeds b c.argv) pid
    exact ⟨log, course, shell_runCopy pid _ _ m, by rintro _ ⟨⟩⟩
  | program image =>
    have run : runStage source pid stdio c (.program image) m =
        runImage pid stdio m.shell.unwritten image m := by
      rw [runStage, Engine.bind_apply, shell_apply]
    rw [run]
    obtain ⟨s, course, run | ⟨sig, run⟩⟩ := runImage_cases allowed pid m.shell.unwritten image m
    · rw [run]
      refine ⟨_, course, rfl, ?_⟩
      rintro _ ⟨⟩
      rfl
    · have signalled : Course (m.host.access stdio m.shell.log) s []
          (receiveSignal sig ⟨m.shell, s⟩).2.host :=
        (logs_receiveSignal (m := ⟨m.shell, s⟩) watches sig).1
      have done := course.trans signalled
      rw [List.append_nil] at done
      rw [run]
      refine ⟨_, done, shell_receiveSignal sig _, ?_⟩
      rintro _ ⟨⟩
      rfl

end SessionM

/-! ### One stage after the other -/

/-- A stage of a pipeline as it runs: its process, the files that it has been given, the state in
which it starts, and all that is written until it is done. -/
structure Passage where
  pid : Int
  command : Command
  stage : SessionM.Stage
  stdio : Stdio
  start : Machine
  log : List Writing

namespace Passage

open SessionM (Stage runStage)

def task (q : Passage) : Int × Command × Stage := (q.pid, q.command, q.stage)

/-- The state in which the stage is done. -/
def finish (source : Builtin.Sourcing) (q : Passage) : Machine :=
  (runStage source q.pid q.stdio q.command q.stage q.start).2

/-- All that the stage finds to read. -/
def received (q : Passage) : Bytes := (q.start.host.drawn q.stdio.input).1

/-- All that goes to its standard output. -/
def produced (q : Passage) : Bytes := Writing.through q.stdio.output q.log

/-- The log is complete, and tells of no files but those that the stage may use. What a program writes
is what it makes of its input. -/
structure Faithful (source : Builtin.Sourcing) (q : Passage) : Prop where
  course : Course (q.start.host.access q.stdio q.start.shell.log) q.start.host q.log
    (q.finish source).host
  program : ∀ image, q.stage = .program image → q.log =
    image.writings q.start.host q.start.shell.directory q.pid q.stdio q.start.shell.unwritten

/-- Nothing is printed to a file. Messages may go there, and what processes have held back. -/
def PrintsApart (q : Passage) (h : Handle) : Prop :=
  ∀ w ∈ q.log, w.handle = h → w.outlet ≠ .printed ∧
    (w.handle = q.stdio.error ∨ w.handle ∈ q.start.shell.log ∨
      ∃ p ∈ q.start.host.processes, (w.handle, w.bytes) ∈ p.held)

end Passage

/-- Stages have run from left to right between two states, the first one with a given input and the
last one with a given output. -/
structure Flow (source : Builtin.Sourcing) (ready : Machine) (input output : Handle)
    (passages : List Passage) (done : Machine) : Prop where
  first : ∀ q ∈ passages.head?, q.start = ready ∧ q.stdio.input = input
  /-- Each stage starts where the one before it is done, and finds what that has printed. -/
  next : passages.IsChain fun q r => r.start = q.finish source ∧ r.received = q.produced
  last : ∀ q ∈ passages.getLast?, q.finish source = done ∧ q.stdio.output = output
  error : ∀ q ∈ passages, q.stdio.error = ready.shell.stdio.error
  faithful : ∀ q ∈ passages, q.Faithful source
  /-- Only the last stage prints to its output, or to that of the shell. -/
  apart : ∀ q ∈ passages.dropLast, q.PrintsApart output ∧ q.PrintsApart ready.shell.stdio.output

/-- A stage whose output is a file of its own does not print to another one that is open. -/
theorem Passage.Faithful.printsApart {source : Builtin.Sourcing} {q : Passage}
    (faithful : q.Faithful source) {h : Handle} (opened : h < q.start.host.opened.size)
    (other : h ≠ q.stdio.output) : q.PrintsApart h := by
  rintro ⟨outlet, h, b⟩ hw rfl
  have allowed := faithful.course.allows _ hw
  have old : ¬q.start.host.opened.size ≤ h := Nat.not_le.2 opened
  cases outlet with
  | printed => exact absurd allowed (not_or.2 ⟨other, old⟩)
  | complained => exact ⟨by rintro ⟨⟩, .inl (allowed.resolve_right old)⟩
  | recorded => exact ⟨by rintro ⟨⟩, .inr (.inl allowed)⟩
  | delivered =>
    refine ⟨by rintro ⟨⟩, ?_⟩
    exact (allowed.resolve_left other).imp_right (Or.imp_right fun held => held.resolve_left old)

namespace Flow

variable {source : Builtin.Sourcing} {m done : Machine} {reader output : Handle} {q : Passage}
  {passages : List Passage}

theorem single (faithful : q.Faithful source) (error : q.stdio.error = q.start.shell.stdio.error) :
    Flow source q.start q.stdio.input q.stdio.output [q] (q.finish source) where
  first := by
    rintro _ ⟨⟩
    exact ⟨rfl, rfl⟩
  next := .singleton q
  last := by
    rintro _ ⟨⟩
    exact ⟨rfl, rfl⟩
  error := List.forall_mem_singleton.2 error
  faithful := List.forall_mem_singleton.2 faithful
  apart := List.forall_mem_nil _

/-- One stage comes before others. -/
theorem cons (faithful : q.Faithful source) (error : q.stdio.error = q.start.shell.stdio.error)
    (kept : (q.finish source).shell = q.start.shell)
    (apart : q.PrintsApart output ∧ q.PrintsApart q.start.shell.stdio.output)
    (received : ((q.finish source).host.drawn reader).1 = q.produced) (some : passages ≠ [])
    (flow : Flow source (q.finish source) reader output passages done) :
    Flow source q.start q.stdio.input output (q :: passages) done where
  first := by
    rintro _ ⟨⟩
    exact ⟨rfl, rfl⟩
  next := by
    refine List.isChain_cons.2 ⟨fun r hr => ?_, flow.next⟩
    obtain ⟨start, input⟩ := flow.first r hr
    refine ⟨start, ?_⟩
    rw [Passage.received, start, input, received]
  last r hr := by
    rw [List.getLast?_cons_of_ne_nil some] at hr
    exact flow.last r hr
  error := List.forall_mem_cons.2 ⟨error, fun r hr => kept ▸ flow.error r hr⟩
  faithful := List.forall_mem_cons.2 ⟨faithful, flow.faithful⟩
  apart := by
    rw [List.dropLast_cons_of_ne_nil some]
    exact List.forall_mem_cons.2 ⟨apart, fun r hr => kept ▸ flow.apart r hr⟩

/-- All that was open stays open. -/
theorem continues {input : Handle} (flow : Flow source m input output passages done) :
    ∀ q ∈ passages, m.host.Continues q.start.host := by
  have all (l : List Passage) (faithful : ∀ q ∈ l, q.Faithful source)
      (next : l.IsChain fun q r => r.start = q.finish source ∧ r.received = q.produced)
      (first : ∀ q ∈ l.head?, m.host.Continues q.start.host) :
      ∀ q ∈ l, m.host.Continues q.start.host := by
    induction l with
    | nil => exact List.forall_mem_nil _
    | cons q l ih =>
      obtain ⟨linked, next⟩ := List.isChain_cons.1 next
      obtain ⟨here, faithful⟩ := List.forall_mem_cons.1 faithful
      have before := first q rfl
      refine List.forall_mem_cons.2 ⟨before, ih faithful next fun r hr => ?_⟩
      rw [(linked r hr).1]
      exact before.trans here.course.continues
  refine all passages flow.faithful flow.next fun q hq => ?_
  rw [(flow.first q hq).1]
  exact .refl _

end Flow

/-! ### The places of stages -/

/-- The ends of a pipe by its place among those that are opened from a number on. -/
def pipeEnds (base index : Nat) : Handle × Handle := (base + 2 * index, base + 2 * index + 1)

theorem pipeEnds_succ (base index : Nat) : pipeEnds (base + 2) index = pipeEnds base (index + 1) := by
  have same : base + 2 + 2 * index = base + 2 * (index + 1) := by omega
  unfold pipeEnds
  rw [same]

/-- The files of a stage by its place, if pipes lead from each stage to the next one. -/
def Stdio.betweenPipes (ends : Stdio) (base count index : Nat) : Stdio :=
  { ends with
    input := if index = 0 then ends.input else (pipeEnds base (index - 1)).1
    output := if index = count then ends.output else (pipeEnds base index).2 }

namespace SessionM

variable {A : Access} {source : Builtin.Sourcing}

theorem openPipes_succ (count : Nat) (m : Machine) :
    openPipes (count + 1) m =
      let later := openPipes count { m with host := m.host.openPipe.2 }
      (m.host.openPipe.1 :: later.1, later.2) := rfl

theorem openPipes_fst (count : Nat) (m : Machine) :
    (openPipes count m).1 = (List.range count).map (pipeEnds m.host.opened.size) := by
  induction count generalizing m with
  | zero => rfl
  | succ count ih =>
    rw [openPipes_succ, List.range_succ_eq_map, List.map_cons, List.map_map]
    dsimp only
    rw [ih, m.host.openPipe_fst, m.host.size_openPipe]
    exact congrArg₂ _ rfl (List.map_congr_left fun index _ => pipeEnds_succ _ index)

theorem openPipes_snd (count : Nat) (m : Machine) :
    (openPipes count m).2.shell = m.shell ∧
      (openPipes count m).2.host.toProcessTable = m.host.toProcessTable ∧
      (openPipes count m).2.host.opened.size = m.host.opened.size + 2 * count ∧
      ∀ h < m.host.opened.size,
        (openPipes count m).2.host.opened[h]? = m.host.opened[h]? := by
  induction count generalizing m with
  | zero => exact ⟨rfl, rfl, rfl, fun _ _ => rfl⟩
  | succ count ih =>
    rw [openPipes_succ]
    obtain ⟨shell, processes, size, opened⟩ := ih { m with host := m.host.openPipe.2 }
    refine ⟨shell, processes, ?_, fun h old => ?_⟩
    · rw [size, m.host.size_openPipe]
      omega
    · have inside : h < m.host.openPipe.2.opened.size := by
        rw [m.host.size_openPipe]
        exact Nat.lt_succ_of_lt (Nat.lt_succ_of_lt old)
      rw [opened h inside, Host.opened_openPipe, if_neg (Nat.ne_of_lt (Nat.lt_succ_of_lt old)),
        if_neg (Nat.ne_of_lt old)]

/-- Pipes that have been opened are still to be used. -/
theorem unused_openPipes (count : Nat) {m : Machine} (inOrder : m.InOrder) :
    ∀ index < count, ∃ node, (openPipes count m).2.host.Unused node
      (pipeEnds m.host.opened.size index).1 (pipeEnds m.host.opened.size index).2 := by
  have later {m : Machine} {node : NodeId} {reader writer : Handle} (count : Nat)
      (unused : m.host.Unused node reader writer) :
      (openPipes count m).2.host.Unused node reader writer := by
    induction count generalizing m with
    | zero => exact unused
    | succ count ih =>
      rw [openPipes_succ]
      exact ih (unused.silent (A := m.access) m.host.silent_openPipe rfl)
  induction count generalizing m with
  | zero => exact fun _ less => absurd less (Nat.not_lt_zero _)
  | succ count ih =>
    rw [openPipes_succ]
    rintro (_ | index) less
    · exact ⟨_, later count (Host.unused_openPipe inOrder.sound inOrder.nodes inOrder.held)⟩
    · have next : Machine.InOrder { m with host := m.host.openPipe.2 } :=
        inOrder.after abides_openPipe.heeds
      obtain ⟨node, unused⟩ := ih next index (Nat.lt_of_succ_lt_succ less)
      rw [m.host.size_openPipe, pipeEnds_succ] at unused
      exact ⟨node, unused⟩

theorem stageFiles_eq {ends : Stdio} {base count index : Nat} (inside : index ≤ count) :
    stageFiles ends ((List.range count).map (pipeEnds base)) index =
      ends.betweenPipes base count index := by
  have pipe {i : Nat} (less : i < count) (e : Handle × Handle) :
      ((List.range count).map (pipeEnds base)).getD i e = pipeEnds base i := by
    simp [List.getD_eq_getElem?_getD, less]
  unfold stageFiles Stdio.betweenPipes
  rw [List.length_map, List.length_range]
  congr 1
  · split
    · rfl
    · rw [pipe (by omega)]
  · split
    · rfl
    · rw [pipe (by omega)]

/-- A stage that runs with files that it may use. -/
theorem exists_faithful (sourcing : IsSourcing source) {m : Machine} (confined : m.Confined A)
    (watches : Watches m.shell) {stdio : Stdio} (given : stdio.Allowed A m.host.extent)
    (pid : Int) (c : Command) (stage : Stage) :
    ∃ log, let q : Passage := ⟨pid, c, stage, stdio, m, log⟩
      q.Faithful source ∧ (q.finish source).shell = m.shell ∧ (q.finish source).Confined A := by
  obtain ⟨log, course, kept, program⟩ := course_runStage sourcing confined.inOrder
    (Host.allowed_access given.input.2 given.output.2 given.error.2) watches pid c stage
  have heeds : Heeds A m.host.extent (runStage source pid stdio c stage) :=
    heeds_runStage (heeds_builtin sourcing.heeds) given pid c stage
  exact ⟨log, ⟨course, program⟩, kept, heeds.confined confined (le_refl _)⟩

/-- The files of a shell and of the ends of a pipeline have been open before its pipes. -/
structure Before (base : Nat) (ends : Stdio) (sh : Shell) : Prop where
  input : ends.input < base
  output : ends.output < base
  error : ends.error < base
  own : sh.stdio.output < base
  log : ∀ h ∈ sh.log, h < base
  same : ends.error = sh.stdio.error

/-- A stage has not been given the pipe behind it, but for the end that it writes to, nor any of the
pipes further on. -/
theorem Before.apart {base index : Nat} {ends : Stdio} {sh : Shell}
    (before : Before base ends sh) (count : Nat) {h : Nat} (later : base + 2 * index ≤ h) :
    h ≠ (ends.betweenPipes base count index).input ∧
      (index < count → h ≠ base + 2 * index + 1 →
        h ≠ (ends.betweenPipes base count index).output) ∧
      h ≠ (ends.betweenPipes base count index).error ∧ h ∉ sh.log := by
  have behind : base ≤ h := Nat.le_trans (Nat.le_add_right _ _) later
  refine ⟨?_, fun less other => ?_, ?_, fun recorded => ?_⟩
  · unfold Stdio.betweenPipes pipeEnds
    dsimp only
    split
    · exact Nat.ne_of_gt (Nat.lt_of_lt_of_le before.input behind)
    · have earlier : base + 2 * (index - 1) < h := by omega
      exact Nat.ne_of_gt earlier
  · unfold Stdio.betweenPipes
    dsimp only
    rw [if_neg (Nat.ne_of_lt less)]
    exact other
  · exact Nat.ne_of_gt (Nat.lt_of_lt_of_le before.error behind)
  · exact Nat.not_lt.2 behind (before.log h recorded)

/-- A stage that prints to the pipe behind it: what it prints is there to be read, the pipes further on
are still to be used, and nothing is printed to files that were open before. -/
theorem fills_pipe {q : Passage} (faithful : q.Faithful source) (inOrder : q.start.InOrder)
    {base count index : Nat} {ends : Stdio} (before : Before base ends q.start.shell)
    (less : index < count) (files : q.stdio = ends.betweenPipes base count index)
    (unused : ∀ i, index ≤ i → i < count →
      ∃ node, q.start.host.Unused node (pipeEnds base i).1 (pipeEnds base i).2) :
    ((q.finish source).host.drawn (pipeEnds base index).1).1 = q.produced ∧
    (∀ i, index + 1 ≤ i → i < count →
      ∃ node, (q.finish source).host.Unused node (pipeEnds base i).1 (pipeEnds base i).2) ∧
    ∀ h < base, q.PrintsApart h := by
  let A := q.start.host.access q.stdio q.start.shell.log
  have within : q.start.host.Within A := inOrder.within _ _
  have output : q.stdio.output = (pipeEnds base index).2 := by
    rw [files, Stdio.betweenPipes, if_neg (Nat.ne_of_lt less)]
  -- What is behind the stage and is not its output is out of its reach.
  have apart {h : Nat} (behind : base + 2 * index ≤ h) (other : h ≠ base + 2 * index + 1)
      (old : h < q.start.host.opened.size)
      (unheld : ∀ p ∈ q.start.host.processes, ∀ e ∈ p.held, e.1 ≠ h) :
      ¬A.reads h ∧ ∀ b, ¬A.holds h b := by
    obtain ⟨input, output, error, recorded⟩ := before.apart count behind
    rw [← files] at input output error
    exact Host.access_apart old input (output less other) error recorded unheld
  obtain ⟨node, pipe⟩ := unused index (Nat.le_refl _) less
  refine ⟨?_, fun i behind inside => ?_, fun h old => ?_⟩
  · rw [Passage.produced, output]
    refine pipe.drawn faithful.course ?_ ?_
    · exact apart (Nat.le_refl _) (Nat.ne_of_lt (Nat.lt_succ_self _)) pipe.opened.1
        fun p hp e he => (pipe.unheld p hp e he).1
    · have input := (before.apart count (Nat.le_succ (base + 2 * index))).1
      rw [← files] at input
      rintro (same | new)
      · exact input same
      · exact Nat.not_le.2 pipe.opened.2 new
  · obtain ⟨node, pipe⟩ := unused i (Nat.le_of_succ_le behind) inside
    have further : base + 2 * index + 1 < base + 2 * i := by omega
    refine ⟨node, pipe.course within faithful.course ?_ ?_⟩
    · exact apart (Nat.le_of_succ_le (Nat.le_of_lt further)) (Nat.ne_of_gt further) pipe.opened.1
        fun p hp e he => (pipe.unheld p hp e he).1
    · have further := Nat.lt_succ_of_lt further
      exact apart (Nat.le_of_succ_le (Nat.le_of_lt further)) (Nat.ne_of_gt further) pipe.opened.2
        fun p hp e he => (pipe.unheld p hp e he).2
  · have behind : h < (pipeEnds base index).2 :=
      Nat.lt_of_lt_of_le old (Nat.le_trans (Nat.le_add_right _ _) (Nat.le_succ _))
    exact faithful.printsApart (Nat.lt_trans behind pipe.opened.2) (output ▸ Nat.ne_of_lt behind)

/-- The stages of a pipeline, by induction on those that are left. The pipes behind them are out of the
reach of all that have run before. -/
theorem runStages_flow (sourcing : IsSourcing source) {ends : Stdio} {base count : Nat}
    {files : Nat → Stdio} (laid : ∀ i ≤ count, files i = ends.betweenPipes base count i)
    {stages : List (Int × Command × Stage)} (some : stages ≠ []) {index : Nat}
    (left : index + stages.length = count + 1) {m : Machine} (confined : m.Confined A)
    (watches : Watches m.shell) (before : Before base ends m.shell)
    (given : ∀ i ≤ count, (files i).Allowed A m.host.extent)
    (unused : ∀ i, index ≤ i → i < count →
      ∃ node, m.host.Unused node (pipeEnds base i).1 (pipeEnds base i).2) :
    (runStages (fun _ => source) files index stages m).2.shell = m.shell ∧
      ∃ passages : List Passage, passages.map Passage.task = stages ∧
        Flow source m (files index).input ends.output passages
          (runStages (fun _ => source) files index stages m).2 := by
  induction stages generalizing m index with
  | nil => exact absurd rfl some
  | cons first rest ih =>
    obtain ⟨pid, c, stage⟩ := first
    rw [List.length_cons] at left
    have inside : index ≤ count := by omega
    obtain ⟨log, faithful, kept, confined'⟩ :=
      exists_faithful sourcing confined watches (given index inside) pid c stage
    let q : Passage := ⟨pid, c, stage, files index, m, log⟩
    have error : q.stdio.error = q.start.shell.stdio.error :=
      (congrArg Stdio.error (laid index inside)).trans before.same
    cases rest with
    | nil =>
      have last : index = count := by simpa using left
      have output : q.stdio.output = ends.output := by
        change (files index).output = _
        rw [laid index inside, Stdio.betweenPipes, if_pos last]
      refine ⟨kept, [q], rfl, ?_⟩
      rw [← output]
      exact Flow.single faithful error
    | cons next rest =>
      rw [List.length_cons] at left
      have less : index < count := by omega
      have reader : (files (index + 1)).input = (pipeEnds base index).1 := by
        rw [laid (index + 1) less, Stdio.betweenPipes, if_neg (Nat.succ_ne_zero index),
          Nat.add_sub_cancel]
      obtain ⟨received, later, prints⟩ :=
        fills_pipe faithful confined.inOrder before less (laid index inside) unused
      rw [← reader] at received
      have reached := confined.host.extent_le faithful.course.continues
      have left : index + 1 + (next :: rest).length = count + 1 := by
        rw [List.length_cons]
        omega
      obtain ⟨kept', passages, tasks, flow⟩ := ih (List.cons_ne_nil _ _) left confined'
        (by rwa [kept]) (by rwa [kept]) (fun i hi => (given i hi).mono reached) later
      have some : passages ≠ [] := by
        rintro rfl
        cases tasks
      exact ⟨kept'.trans kept, q :: passages, congrArg _ tasks,
        .cons faithful error kept ⟨prints _ before.output, prints _ before.own⟩ received some flow⟩

end SessionM
end JobShell
