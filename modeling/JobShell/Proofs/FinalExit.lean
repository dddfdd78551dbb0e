import JobShell.Proofs.BuiltinFrame
import JobShell.Proofs.Chronicle
import JobShell.Proofs.ForkedCommands
import JobShell.Proofs.LineAssignments

/-! Once a builtin has asked to leave, nothing more is done of a line or of the files that are being
sourced, and the status to leave with is the status of the line. A run goes from open states, in
which nobody has asked to leave, to open states or to closed ones, and stops there. -/
namespace JobShell

open Carrier
open SessionM (Does Alters Tolerant)
open Shell (Stands Beside)

/-- Neither the request to leave nor the status of what ran last has changed. -/
def Shell.Steady (before after : Shell) : Prop :=
  after.exitRequest = before.exitRequest ∧ after.vars.status = before.vars.status

open Shell (Steady)

namespace SessionM

theorem tolerant_steady : Tolerant Steady where
  refl _ := ⟨rfl, rfl⟩
  trans h h' := ⟨h'.1.trans h.1, h'.2.trans h.2⟩
  printed _ _ := ⟨rfl, rfl⟩

theorem steady_of_stands (a b : Shell) (h : Stands a b) : Steady a b := by
  have request : b.standing.exitRequest = a.standing.exitRequest := congrArg Shell.exitRequest h
  have status : b.standing.vars.status = a.standing.vars.status := congrArg (·.vars.status) h
  exact ⟨request, status⟩

theorem steady_of_beside (a b : Shell) (h : Beside a b) : Steady a b := by
  obtain ⟨_, _, _, -, rfl⟩ := h
  exact ⟨rfl, rfl⟩

theorem steady_startBackground (source : Builtin.Sourcing) (ts : List Token) :
    Alters Steady (startBackground source ts).run := by
  intro m
  refine ⟨?_, trivial⟩
  have started := starts_startBackground source ts m.shell m (tolerant_printed.refl _)
  revert started
  rcases (startBackground source ts).run m with ⟨e | ⟨⟩, m'⟩
  · rintro ⟨u, same⟩
    rw [same]
    exact ⟨rfl, rfl⟩
  · rintro ⟨pid, u, same⟩
    rw [same]
    exact ⟨rfl, rfl⟩

theorem steady_expandLine (line : String) : Alters Steady (expandLine line) := by
  intro m
  refine ⟨⟨rfl, ?_⟩, trivial⟩
  have assigned := Piece.assigned_expandReferences m.shell.vars (m.shell.aliases.expand line)
  change (expandReferences m.shell.vars (m.shell.aliases.expand line)).2.status = _
  rw [assigned.eq_named]

/-- The status that `exit` asks to leave with. -/
theorem runExit_apply (b : Builtin) (argv : List String) {m : Machine}
    (h : IsStatus m.shell.vars.status) :
    IsStatus (Builtin.runExit b argv m).1 ∧
      (Builtin.runExit b argv m).2.shell.exitRequest = some (Builtin.runExit b argv m).1 := by
  unfold Builtin.runExit
  cases argv[1]? with
  | none => exact ⟨h, rfl⟩
  | some arg =>
    dsimp only
    cases Text.readLong? arg with
    | some n =>
      refine ⟨?_, rfl⟩
      change IsStatus (n % 256)
      unfold IsStatus
      omega
    | none => exact ⟨isStatus_two, rfl⟩

end SessionM

/-- Whether a deed is a request to leave. -/
def Deed.leaves : Deed → Bool
  | builtin b _ => b = .exit || b = .quit
  | _ => false

namespace Chronicle

/-- Nobody has asked to leave. -/
structure Open (s : Machine × List Deed) : Prop where
  request : s.1.shell.exitRequest = none
  status : IsStatus s.1.shell.vars.status
  deeds : ∀ d ∈ s.2, d.leaves = false

/-- The last deed was a request to leave with a certain status. -/
structure Closed (status : Int) (s : Machine × List Deed) : Prop where
  request : s.1.shell.exitRequest = some status
  isStatus : IsStatus status
  deeds : ∃ before last, s.2 = before ++ [last] ∧ last.leaves = true ∧
    ∀ d ∈ before, d.leaves = false

/-- Something has ended with a status, which is the one to leave with if leaving has been asked
for. -/
def After (status : Int) (s : Machine × List Deed) : Prop :=
  Open s ∧ IsStatus status ∨ Closed status s

/-- Something has been attempted, and has left things open if it failed. -/
def AfterTry {ε : Type} : Except ε Int → Machine × List Deed → Prop
  | .ok status, s => After status s
  | .error _, s => Open s

/-- Something has ended with a status, and that has been taken over. -/
def Ends (status : Int) (s : Machine × List Deed) : Prop :=
  After status s ∧ s.1.shell.vars.status = status

/-- A step leads from open states to results and states with a property. -/
def Leads {α : Type} (Q : α → Machine × List Deed → Prop) (x : ChronicleM α) : Prop :=
  ∀ s, Open s → Q (x s).1 (x s).2

section Steps

variable {α β ε : Type} {s : Machine × List Deed} {status : Int}
  {Q : α → Machine × List Deed → Prop}

theorem Open.lift (h : Open s) {x : SessionM α} (hx : Alters Steady x) : Open (lift x s).2 where
  request := (hx s.1).1.1.trans h.request
  status := by
    change IsStatus (x s.1).2.shell.vars.status
    rw [(hx s.1).1.2]
    exact h.status
  deeds := h.deeds

theorem After.lift (h : After status s) {x : SessionM α} (hx : Alters Steady x) :
    After status (lift x s).2 := by
  obtain ⟨h, hs⟩ | h := h
  · exact .inl ⟨h.lift hx, hs⟩
  · exact .inr ⟨(hx s.1).1.1.trans h.request, h.isStatus, h.deeds⟩

theorem Open.note (h : Open s) {d : Deed} (stays : d.leaves = false) : Open (note d s).2 where
  request := h.request
  status := h.status
  deeds := by
    change ∀ e ∈ s.2 ++ [d], e.leaves = false
    simpa [or_imp, forall_and] using ⟨h.deeds, stays⟩

theorem After.setStatus (h : After status s) :
    Ends status (Carrier.lift (SessionM.setStatus status) s).2 := by
  refine ⟨?_, rfl⟩
  obtain ⟨h, hs⟩ | h := h
  · exact .inl ⟨⟨h.request, hs, h.deeds⟩, hs⟩
  · exact .inr ⟨h.request, h.isStatus, h.deeds⟩

/-- Where a run goes on, nobody has asked to leave. -/
theorem After.isOpen (h : After status s) (goesOn : ¬s.1.isOver = true) :
    Open s ∧ IsStatus status := by
  obtain still | closed := h
  · exact still
  · exact absurd (by simp [Machine.isOver, closed.request]) goesOn

namespace Leads

theorem liftThen {x : SessionM β} {f : β → ChronicleM α} (hx : Alters Steady x)
    (hf : ∀ b, Leads Q (f b)) : Leads Q (lift x >>= f) := fun _ h => hf _ _ (h.lift hx)

theorem tryLiftThen {x : SessionM β} {f : β → ExceptT ShellError ChronicleM Int}
    (hx : Alters Steady x) (hf : ∀ b, Leads AfterTry (f b).run) :
    Leads AfterTry (((Carrier.lift x : ChronicleM β) : ExceptT ShellError ChronicleM β) >>= f).run :=
  liftThen hx hf

theorem noteThen {d : Deed} {x : ChronicleM α} (stays : d.leaves = false) (hx : Leads Q x) :
    Leads Q (do note d; x) := fun _ h => hx _ (h.note stays)

theorem lift {x : SessionM Int} (hx : Does Steady IsStatus x) : Leads After (lift x) :=
  fun s h => .inl ⟨h.lift hx.alters, (hx s.1).2⟩

theorem attempt {x : AttemptM Int} (hx : Does Steady (Finds IsStatus) x.run) :
    Leads AfterTry (attempt x).run := by
  intro s h
  have still := h.lift hx.alters
  have found := (hx s.1).2
  change AfterTry (x.run s.1).1 (Carrier.lift x.run s).2
  cases result : (x.run s.1).1 with
  | error e => exact still
  | ok status =>
    rw [result] at found
    exact .inl ⟨still, found⟩

theorem attemptThen {x : AttemptM β} {f : β → ExceptT ShellError ChronicleM Int}
    (hx : Alters Steady x.run) (hf : ∀ b, Leads AfterTry (f b).run) :
    Leads AfterTry (Carrier.attempt x >>= f).run := by
  intro s h
  have still := h.lift hx
  rw [ExceptT.run_bind, Engine.bind_apply]
  cases ((Carrier.attempt x).run s).1 with
  | error e => exact still
  | ok b => exact hf b _ still

/-- A failure is reported, and its status is given. -/
theorem reported {x : ExceptT ShellError ChronicleM Int} (hx : Leads AfterTry x.run) :
    Leads After (do
      match ← x.run with
      | .ok status => return status
      | .error e => Carrier.lift (SessionM.report e)) := by
  intro s h
  have tried := hx s h
  rw [Engine.bind_apply]
  revert tried
  rcases x.run s with ⟨e | status, s'⟩ <;> intro tried
  · exact Leads.lift (SessionM.tolerant_steady.report e.isStatus) s' tried
  · exact tried

end Leads
end Steps

/-! ### Commands and pipelines -/

/-- Sourcing a file ends in an open state or with a request to leave. -/
def Sources.Settle (sources : Sources) : Prop := ∀ path, Leads AfterTry (sources.noted path)

variable {sources : Sources}

theorem leads_runSource (settle : sources.Settle) (b : Builtin) (argv : List String) :
    Leads After (runSource sources b argv) := by
  have h := SessionM.tolerant_steady
  unfold runSource
  cases argv[1]? with
  | none => exact .lift (h.fail SessionM.isStatus_two _ _)
  | some file =>
    intro s hs
    have read := settle file s hs
    dsimp only
    rw [Engine.bind_apply]
    revert read
    rcases sources.noted file s with ⟨e | status, s'⟩ <;> intro read
    · exact Leads.lift (h.fail SessionM.isStatus_one _ _) s' read
    · exact read

/-- A request to leave closes the run. -/
theorem leads_runExit {b : Builtin} {argv : List String}
    (leaves : (Deed.builtin b argv).leaves = true) :
    Leads After (do note (.builtin b argv); lift (Builtin.runExit b argv)) := by
  intro s h
  obtain ⟨status, request⟩ := SessionM.runExit_apply b argv h.status
  exact .inr ⟨request, status, s.2, .builtin b argv, rfl, leaves, h.deeds⟩

theorem leads_callBuiltin (settle : sources.Settle) (b : Builtin) (argv : List String) :
    Leads After (callBuiltin sources b argv) := by
  cases b with
  | exit => exact leads_runExit rfl
  | quit => exact leads_runExit rfl
  | dot | source => exact .noteThen rfl (leads_runSource settle _ argv)
  | _ => exact .noteThen rfl (.lift ((SessionM.stands_builtin rfl _ argv).weaken
      SessionM.steady_of_stands))

theorem leads_runBuiltin (settle : sources.Settle) (b : Builtin) (c : Command) :
    Leads AfterTry (runBuiltin sources b c).run := by
  have h := SessionM.tolerant_steady
  have redirected (sh : Shell) (stdio : Stdio) : Steady sh { sh with stdio } := ⟨rfl, rfl⟩
  refine .tryLiftThen h.shell fun sh => ?_
  refine .attemptThen (h.redirectForBuiltin redirected c _) fun _ => ?_
  -- After a request to leave the shell still puts its own files back.
  intro s hs
  have called := (leads_callBuiltin settle b c.argv s hs).lift h.flush
  change AfterTry ((if _ then _ else _ : ExceptT ShellError ChronicleM Int).run _).1 _
  split
  · exact called.lift (h.restore redirected _)
  · exact called

theorem leads_run (settle : sources.Settle) (c : Command) :
    Leads AfterTry ((commands sources).run c).run := by
  have h := SessionM.tolerant_steady
  unfold Commands.run
  split
  · next name value _ =>
    have assigned : Does Steady IsStatus
        (do SessionM.modifyVars (·.set name value); return 0) :=
      h.andThen (SessionM.alters_modifyShell fun sh => ⟨rfl, rfl⟩) fun _ =>
        h.pure SessionM.isStatus_zero
    exact fun s hs => Leads.noteThen rfl (.lift assigned) s hs
  · exact leads_runBuiltin settle _ c
  · exact Leads.noteThen rfl
      (.attempt ((SessionM.does_runExternal c).weaken SessionM.steady_of_beside))

theorem leads_execute (settle : sources.Settle) (ts : List Token) :
    Leads After ((engine sources).execute ts) := by
  have h := SessionM.tolerant_steady
  refine .noteThen rfl (.reported ?_)
  split
  · refine .attemptThen (h.build _) fun p s hs => ?_
    have ran := (SessionM.does_runPipeline sources.plain p).weaken SessionM.steady_of_beside
    exact Leads.noteThen (d := .pipeline p) rfl (.attempt ran) s hs
  · exact .attemptThen (h.build _) (leads_run settle)

/-! ### Lines and files -/

theorem after_proceed (settle : sources.Settle) (rest : List (Connector × List Token))
    {status : Int} {s : Machine × List Deed} (h : After status s) :
    After (Chain.proceed (engine sources).execute status rest s).1
      (Chain.proceed (engine sources).execute status rest s).2 := by
  induction rest generalizing status s with
  | nil => exact h
  | cons link rest ih =>
    rw [Chain.proceed, Engine.bind_apply, lift_isOver, Engine.ite_apply]
    dsimp only
    split
    · exact h
    · next goesOn =>
      obtain ⟨still, hs⟩ := h.isOpen goesOn
      rw [Engine.ite_apply]
      split
      · exact ih (leads_execute settle link.2 s still).setStatus.1
      · exact ih (.inl ⟨still, hs⟩)

theorem ends_runSegment (settle : sources.Settle) (segment : Segment) :
    Leads Ends ((engine sources).runSegment segment) := by
  have h := SessionM.tolerant_steady
  intro s hs
  rw [Engine.runSegment]
  split
  · have launched := (hs.note (d := .launch segment.tokens) rfl).lift
      (SessionM.steady_startBackground sources.plain segment.tokens)
    rw [Engine.bind_apply]
    change Open ((engine sources).launch segment.tokens s).2 at launched
    revert launched
    rcases (engine sources).launch segment.tokens s with ⟨e | ⟨⟩, s'⟩ <;> intro launched
    · exact (Leads.lift (h.report e.isStatus) s' launched).setStatus
    · have started : After 0 s' := .inl ⟨launched, SessionM.isStatus_zero⟩
      exact started.setStatus
  · have first := leads_execute settle (Chain.ofTokens segment.tokens).first s hs
    exact (after_proceed settle _ first.setStatus.1).setStatus

theorem ends_runSegments (settle : sources.Settle) (segments : List Segment) {status : Int}
    {s : Machine × List Deed} (still : Open s) (same : s.1.shell.vars.status = status) :
    Ends ((engine sources).runSegments status segments s).1
      ((engine sources).runSegments status segments s).2 := by
  induction segments generalizing status s with
  | nil => exact ⟨.inl ⟨still, same ▸ still.status⟩, same⟩
  | cons segment segments ih =>
    have ends := ends_runSegment settle segment s still
    rw [Engine.runSegments_cons]
    dsimp only
    split
    · exact ends
    · next goesOn => exact ih (ends.1.isOpen goesOn).1 ends.2

theorem ends_runLineWith (settle : sources.Settle) (line : String) :
    Leads Ends (runLineWith sources line) := by
  have h := SessionM.tolerant_steady
  rw [runLineWith, Engine.runLine_eq]
  refine .liftThen (SessionM.steady_expandLine line) fun text => .liftThen h.shell fun sh => ?_
  split
  · exact fun s hs => (Leads.lift (h.report (ShellError.isStatus _)) s hs).setStatus
  · exact fun s hs => ends_runSegments settle _ hs rfl

theorem after_runLines (settle : sources.Settle) (lines : List (List Char)) {status : Int}
    (hs : IsStatus status) : Leads After ((engine sources).runLines status lines) := by
  induction lines generalizing status with
  | nil => exact fun s start => .inl ⟨start, hs⟩
  | cons line rest ih =>
    intro s start
    rw [Engine.runLines]
    split
    · exact ih hs s start
    · have ran := (ends_runLineWith settle (String.ofList line) s start).1
      rw [Engine.bind_apply, Engine.bind_apply, lift_isOver, Engine.ite_apply]
      dsimp only
      split
      · exact ran
      · next goesOn =>
        obtain ⟨still, hs⟩ := ran.isOpen goesOn
        exact ih hs _ still

theorem settle_sourcesWithin (levels : Nat) : (sourcesWithin levels).Settle := by
  have h := SessionM.tolerant_steady
  induction levels with
  | zero => exact fun path s start => start
  | succ levels ih =>
    intro path
    refine .liftThen h.get fun m => ?_
    cases m.host.tree.readText m.shell.directory path with
    | failed e => exact fun s start => start
    | endless file => exact fun s start => .inl ⟨start.lift (h.ofFiles.halt _), SessionM.isStatus_zero⟩
    | text text =>
      refine .liftThen (SessionM.alters_modifyShell fun _ => ⟨rfl, rfl⟩) fun _ s start => ?_
      have ran := after_runLines ih (Text.lines text.toList) SessionM.isStatus_zero s start
      exact After.lift ran (x := SessionM.modifyShell fun sh =>
        { sh with sourceDepth := sh.sourceDepth - 1 })
        (SessionM.alters_modifyShell fun _ => ⟨rfl, rfl⟩)

theorem settle_sourcesOfSession : sourcesOfSession.Settle := fun path =>
  .liftThen SessionM.tolerant_steady.shell fun _ => settle_sourcesWithin _ path

/-- Nothing comes after a request to leave. -/
theorem Closed.later_eq_nil {status : Int} {s : Machine × List Deed} (h : Closed status s)
    {earlier later : List Deed} {d : Deed} (parts : s.2 = earlier ++ d :: later)
    (leaves : d.leaves = true) : later = [] := by
  obtain ⟨before, last, deeds, -, stays⟩ := h.deeds
  obtain rfl | ⟨middle, x, rfl⟩ := List.eq_nil_or_concat later
  · rfl
  have same : before ++ [last] = (earlier ++ d :: middle) ++ [x] := by
    rw [← deeds, parts, List.concat_eq_append, List.append_assoc, List.cons_append]
  have mem : d ∈ before := by
    rw [(List.append_inj' same rfl).1]
    simp
  exact absurd leaves (by simp [stays d mem])

/-- In a session in which nobody has asked to leave, a line that makes the shell run `exit` or
`quit`, directly or from within a file, does nothing more after that: it is the last deed of all. The
status that it asks to leave with is what the line gives and the status afterwards. Nothing else
makes the shell leave. The record of deeds is that of the run itself. -/
theorem exit_is_last_deed (line : String) (m : Machine) (idle : m.shell.exitRequest = none)
    (status : IsStatus m.shell.vars.status) :
    runLineWith sourcesOfSession line (m, []) =
      ((SessionM.runLine line m).1, (SessionM.runLine line m).2, lineDeeds line m) ∧
    let after := (SessionM.runLine line m).2.shell
    (after.exitRequest.isSome = true ↔ ∃ d ∈ lineDeeds line m, d.leaves = true) ∧
    ∀ earlier d later, lineDeeds line m = earlier ++ d :: later → d.leaves = true →
      later = [] ∧ ∃ s, IsStatus s ∧
        (SessionM.runLine line m).1 = s ∧ after.vars.status = s ∧ after.exitRequest = some s := by
  have recorded := seen_runLine line m
  have ends := ends_runLineWith settle_sourcesOfSession line (m, []) ⟨idle, status, nofun⟩
  rw [recorded] at ends
  refine ⟨recorded, ?_⟩
  obtain ⟨⟨still, -⟩ | closed, taken⟩ := ends
  · have request : (SessionM.runLine line m).2.shell.exitRequest = none := still.request
    have stays : ¬∃ d ∈ lineDeeds line m, d.leaves = true := by
      rintro ⟨d, hd, leaves⟩
      exact absurd leaves (by simp [still.deeds d hd])
    refine ⟨iff_of_false (by simp [request]) stays, ?_⟩
    intro earlier d later parts leaves
    exact absurd ⟨d, by simp [parts], leaves⟩ stays
  · have request : (SessionM.runLine line m).2.shell.exitRequest = some _ := closed.request
    obtain ⟨before, last, deeds, leaves, -⟩ := closed.deeds
    have mem : last ∈ lineDeeds line m := by
      change last ∈ (_, lineDeeds line m).2
      rw [deeds]
      simp
    refine ⟨iff_of_true (by simp [request]) ⟨last, mem, leaves⟩, ?_⟩
    intro earlier d later parts leaves
    exact ⟨closed.later_eq_nil parts leaves, _, closed.isStatus, rfl, taken, request⟩

/-- Leaving from a file that is sourced from another file, with more to do in each of them. -/
theorem exit_is_last_deed_nested :
    let tree := (FileTree.empty.plant FileTree.root "a"
      (.file (Bytes.ofString "x=1\n. b && y=2\nz=3\n") false)).plant FileTree.root "b"
      (.file (Bytes.ofString "exit 300; w=1\nw=2\n") false)
    let m := Machine.start tree FileTree.root .null [] .default
    let line := ". a || true; w=3"
    m.shell.exitRequest = none ∧ IsStatus m.shell.vars.status ∧
      (lineDeeds line m).getLast? = some (.builtin .exit ["exit", "300"]) ∧
      ∃ s, IsStatus s ∧ (SessionM.runLine line m).1 = s ∧
        (SessionM.runLine line m).2.shell.vars.status = s ∧
        (SessionM.runLine line m).2.shell.exitRequest = some s := by
  intro tree m line
  have idle : m.shell.exitRequest = none := rfl
  have status : IsStatus m.shell.vars.status := SessionM.isStatus_zero
  have deeds : lineDeeds line m =
      (lineDeeds line m).dropLast ++ .builtin .exit ["exit", "300"] :: [] := by decide +kernel
  obtain ⟨-, -, final⟩ := exit_is_last_deed line m idle status
  exact ⟨idle, status, by rw [deeds, List.getLast?_concat], (final _ _ _ deeds rfl).2⟩

end Chronicle
end JobShell
