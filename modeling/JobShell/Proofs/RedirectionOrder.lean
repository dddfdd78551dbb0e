import JobShell.Proofs.FaithfulBuilding
import JobShell.Proofs.OpenedTargets
import JobShell.Proofs.RefusedLines
import JobShell.Session.Transcript

/-! The targets of redirections are opened from left to right, up to the first one that cannot be
opened. Nothing is run then. -/
namespace JobShell

open Token Grammar

theorem Grammar.PipelineTree.target_not_isRedirection {p : PipelineTree} {r : Token × Token}
    (h : r ∈ redirections p.tokens) : r.2.kind.isRedirection = false := by
  rw [p.redirections_tokens] at h
  obtain ⟨c, -, h⟩ := List.mem_flatMap.1 h
  rw [c.redirections_tokens] at h
  obtain ⟨i, -, h⟩ := List.mem_flatMap.1 h
  cases i with
  | word w => cases h
  | redirection op target =>
    obtain rfl := List.mem_singleton.1 h
    exact target.not_isRedirection

namespace Command

variable {here : Surroundings} {rs : List (Token × Token)} {t u : FileTree}

/-- Opens targets in turn, up to one that cannot be opened. -/
def openAll (here : Surroundings) : List (Token × Token) → FileTree →
    Except ShellError Unit × FileTree
  | [], t => (.ok (), t)
  | r :: rs, t =>
    match openTarget here r t with
    | .ok t => openAll here rs t
    | .error e => (.error (.redirectionTarget (targetPath here r.2) e), t)

theorem checkRedirections_eq_openAll {ts : List Token}
    (targets : ∀ r ∈ redirections ts, r.2.kind.isRedirection = false) :
    checkRedirections here ts t = openAll here (redirections ts) t := by
  have mem_target {op target : Token} (rest : List Token) (h : op.kind.isRedirection = true) :
      (op, target) ∈ redirections (op :: target :: rest) := by
    rw [redirections_cons_cons, if_pos h]
    exact List.mem_append_left _ (List.mem_singleton_self _)
  fun_induction checkRedirections here ts t with
  | case1 | case2 => rfl
  | case3 op target rest t isRedirection s first ih =>
    have noRedirection := targets _ (mem_target rest isRedirection)
    rw [redirections_redirection isRedirection noRedirection] at targets ⊢
    rw [ih (List.forall_mem_cons.1 targets).2, openAll, openTarget, first]
  | case4 op target rest t isRedirection cause failed =>
    have noRedirection := targets _ (mem_target rest isRedirection)
    rw [redirections_redirection isRedirection noRedirection, openAll, openTarget, failed]
  | case5 x target rest t noRedirection ih =>
    rw [redirections_cons_of_not (Bool.eq_false_iff.2 noRedirection)] at targets ⊢
    exact ih targets

theorem openAll_eq_ok : openAll here rs t = (.ok (), u) ↔ InTurn here rs t u := by
  induction rs generalizing t with
  | nil => simp [openAll, inTurn_nil]
  | cons r rs ih =>
    rw [openAll, inTurn_cons]
    cases openTarget here r t with
    | error cause => simp
    | ok s => simp [ih]

theorem openAll_eq_error {e : ShellError} :
    openAll here rs t = (.error e, u) ↔
      ∃ before r after cause, rs = before ++ r :: after ∧ InTurn here before t u ∧
        openTarget here r u = .error cause ∧
        e = .redirectionTarget (targetPath here r.2) cause := by
  induction rs generalizing t with
  | nil => simp [openAll]
  | cons r rs ih =>
    rw [openAll]
    cases first : openTarget here r t with
    | error cause =>
      refine ⟨?_, ?_⟩
      · rintro ⟨⟩
        exact ⟨[], r, rs, cause, rfl, .nil _, first, rfl⟩
      · rintro ⟨before, r', after, cause', parts, opened, failed, rfl⟩
        cases before with
        | nil =>
          obtain rfl := inTurn_nil.1 opened
          obtain ⟨rfl, -⟩ := List.cons.inj parts
          cases first.symm.trans failed
          rfl
        | cons _ before =>
          obtain ⟨rfl, -⟩ := List.cons.inj parts
          obtain ⟨s, first', -⟩ := inTurn_cons.1 opened
          cases first.symm.trans first'
    | ok s =>
      refine ih.trans ⟨?_, ?_⟩
      · rintro ⟨before, r', after, cause, rfl, opened, failed, rfl⟩
        exact ⟨r :: before, r', after, cause, rfl, .cons first opened, failed, rfl⟩
      · rintro ⟨before, r', after, cause, parts, opened, failed, rfl⟩
        cases before with
        | nil =>
          obtain rfl := inTurn_nil.1 opened
          obtain ⟨rfl, -⟩ := List.cons.inj parts
          cases first.symm.trans failed
        | cons _ before =>
          obtain ⟨rfl, later⟩ := List.cons.inj parts
          obtain ⟨s', first', opened⟩ := inTurn_cons.1 opened
          cases first.symm.trans first'
          exact ⟨before, r', after, cause, later, opened, failed, rfl⟩

theorem build_of_error {ts : List Token} {e : ShellError}
    (h : checkRedirections here ts t = (.error e, u)) :
    build here ts t = (.error e, u) ∧ Pipeline.build here ts t = (.error e, u) := by
  rw [build, Pipeline.build, h]
  exact ⟨rfl, rfl⟩

end Command

namespace SessionM

theorem tryBind_of_ok {α β : Type} {x : AttemptM α} {m m' : Machine} {a : α}
    (h : x.run m = (.ok a, m')) (f : α → AttemptM β) : (x >>= f).run m = (f a).run m' := by
  rw [ExceptT.run_bind, Engine.bind_apply, h]

theorem tryBind_of_error {α β : Type} {x : AttemptM α} {m m' : Machine} {e : ShellError}
    (h : x.run m = (.error e, m')) (f : α → AttemptM β) : (x >>= f).run m = (.error e, m') := by
  rw [ExceptT.run_bind, Engine.bind_apply, h]
  rfl

theorem toProcessTable_report (e : ShellError) (m : Machine) :
    (report e m).2.host.toProcessTable = m.host.toProcessTable := by
  rw [report_apply]
  dsimp only
  split
  · exact m.toProcessTable_recorded _
  · exact m.toProcessTable_told _

variable (source : Builtin.Sourcing) {m : Machine} {ts : List Token} {e : ShellError} {u : FileTree}

theorem build_of_error {α : Type} {act : Surroundings → BuildM α}
    (h : act m.shell.surroundings m.host.tree = (.error e, u)) :
    (build act).run m = (.error e, { m with host := { m.host with tree := u } }) := by
  rw [build_run, h]

theorem executePipeline_of_error
    (h : Command.checkRedirections m.shell.surroundings ts m.host.tree = (.error e, u)) :
    executePipeline source ts m = report e { m with host := { m.host with tree := u } } := by
  obtain ⟨command, pipeline⟩ := Command.build_of_error h
  rw [executePipeline_eq, Engine.bind_apply]
  split
  · rw [tryBind_of_error (build_of_error pipeline)]
  · rw [tryBind_of_error (build_of_error command)]

theorem startBackground_of_error (single : ts.any (·.kind.isOperator) = false)
    (h : Command.checkRedirections m.shell.surroundings ts m.host.tree = (.error e, u)) :
    (startBackground source ts).run m =
      (.error e, { m with host := { m.host with tree := u } }) := by
  refine tryBind_of_error ?_ _
  rw [planBackgroundBy, if_neg (Bool.eq_false_iff.1 single)]
  exact tryBind_of_error (build_of_error (Command.build_of_error h).1) _

end SessionM

namespace Command

/-- A target that was missing is an empty file once it has been opened. -/
theorem Opened.get?_missing {here : Surroundings} {rs : List (Token × Token)} {r : Token × Token}
    {t u : FileTree} (h : Opened here rs t u) (sound : t.Sound)
    (directory : t.isDirectory here.directory = true) (member : r ∈ rs)
    (missing : ∀ id, ¬Names here r t id) :
    ∃ id, Names here r u id ∧ u.get? id = some (.file [] false) := by
  obtain ⟨id, names, -⟩ := h.settled r member
  have has : u.Has id := by
    refine (h.sound.region.lookupBytes ?_ names).has h.sound
    rw [h.grows.isDirectory_eq, directory]
  have new : ¬t.Has id := fun old => missing id (h.grows.lookup_old sound old names)
  exact ⟨id, names, h.grows.get?_made new has⟩

end Command

/-- The targets of a pipeline are opened from left to right. There is an error just if one of them
cannot be opened when its turn comes, the first such one is named in it, and those behind that are
left alone. Whatever has been opened is settled then, all else is as it was, and what was missing is
an empty file. After an error a message is all that comes of the pipeline, and no process. -/
theorem redirections_open_in_turn (here : Surroundings) (p : PipelineTree) (t u : FileTree)
    (e : ShellError) :
    let rs := redirections p.tokens
    (Command.checkRedirections here p.tokens t = (.ok (), u) ↔ Command.InTurn here rs t u) ∧
    (Command.checkRedirections here p.tokens t = (.error e, u) ↔
      ∃ before r after cause, rs = before ++ r :: after ∧ Command.InTurn here before t u ∧
        Command.openTarget here r u = .error cause ∧
        e = .redirectionTarget (Command.targetPath here r.2) cause) ∧
    (t.Sound → t.isDirectory here.directory = true → ∀ opened v, Command.InTurn here opened t v →
      Command.Opened here opened t v ∧
      (∀ followLast dir path id, t.Has id →
        (v.lookup followLast dir path = .ok id ↔ t.lookup followLast dir path = .ok id)) ∧
      ∀ r ∈ opened, (∀ id, ¬Command.Names here r t id) →
        ∃ id, Command.Names here r v id ∧ v.get? id = some (.file [] false)) ∧
    ∀ (source : Builtin.Sourcing) (m : Machine), m.shell.surroundings = here → m.host.tree = t →
      Command.checkRedirections here p.tokens t = (.error e, u) →
      let failed : Machine := { m with host := { m.host with tree := u } }
      SessionM.executePipeline source p.tokens m = SessionM.report e failed ∧
      (SessionM.report e failed).2.host.toProcessTable = m.host.toProcessTable ∧
      (p.tokens.any (·.kind.isOperator) = false →
        (SessionM.startBackground source p.tokens).run m = (.error e, failed)) := by
  intro rs
  have check : Command.checkRedirections here p.tokens t = Command.openAll here rs t :=
    Command.checkRedirections_eq_openAll fun _ => p.target_not_isRedirection
  refine ⟨?_, ?_, fun sound directory opened v inTurn => ?_, ?_⟩
  · rw [check, Command.openAll_eq_ok]
  · rw [check, Command.openAll_eq_error]
  · have h := inTurn.opened sound directory
    exact ⟨h, fun followLast dir path id old =>
      ⟨h.grows.lookup_old sound old, h.grows.lookup sound⟩,
      fun r member => h.get?_missing sound directory member⟩
  · rintro source m rfl rfl error failed
    exact ⟨SessionM.executePipeline_of_error source error, SessionM.toProcessTable_report e failed,
      fun single => SessionM.startBackground_of_error source single error⟩

/-- A file that is emptied and read again, one that is made, and a third that is not there, before
one that would be made. -/
theorem redirections_open_in_turn_missing :
    let full := (FileTree.empty.create FileTree.root (Bytes.ofString "f") (.file [] false)).2.set 1
      (.file (Bytes.ofString "x") false)
    let m : Machine :=
      ⟨(Machine.start full FileTree.root .null [] .default).shell, Host.ofTree full⟩
    let here := m.shell.surroundings
    let word (text : String) : Word := ⟨⟨.word, text, false⟩, rfl⟩
    let input : Redirection := ⟨operator .input "<", rfl⟩
    let output : Redirection := ⟨operator .output ">", rfl⟩
    let append : Redirection := ⟨operator .append ">>", rfl⟩
    let c : CommandTree :=
      ⟨word "a", [.redirection output (word "f"), .redirection input (word "f")]⟩
    let d : CommandTree := ⟨word "b", [.redirection append (word "g"),
      .redirection input (word "no"), .redirection output (word "h")]⟩
    let p : PipelineTree := .more c ⟨operator .pipe "|", rfl⟩ (.one d)
    let e := ShellError.redirectionTarget "no" (.system .noEntry)
    full.Sound ∧ full.isDirectory here.directory = true ∧
    ∃ u, Command.checkRedirections here p.tokens full = (.error e, u) ∧
      u.readText here.directory "f" = .text "" ∧ u.readText here.directory "g" = .text "" ∧
      u.readText here.directory "h" = .failed (.system .noEntry) ∧
      (∃ before r after, redirections p.tokens = before ++ r :: after ∧
        Command.targetPath here r.2 = "no" ∧ Command.Opened here before full u) ∧
      (SessionM.executePipeline SessionM.sourceFile p.tokens m).2.host.toProcessTable =
        m.host.toProcessTable ∧
      (SessionM.startBackground SessionM.sourceFile d.tokens).run m =
        (.error e, { m with host := { m.host with tree :=
          (Command.checkRedirections here d.tokens full).2 } }) := by
  intro full m here word input output append c d p e
  have sound : full.Sound :=
    (FileTree.sound_empty.create rfl rfl).set_plain (by rfl) (by rintro _ _ ⟨⟩) (by rintro _ _ ⟨⟩)
  have failed : Command.checkRedirections here p.tokens full = (.error e, _) :=
    Prod.ext (by decide +kernel) rfl
  have failed' : Command.checkRedirections here d.tokens full = (.error e, _) :=
    Prod.ext (by decide +kernel) rfl
  obtain ⟨-, iff, frame, session⟩ := redirections_open_in_turn here p full _ e
  obtain ⟨before, r, after, cause, parts, inTurn, -, same⟩ := iff.1 failed
  obtain ⟨ran, untouched, -⟩ := session SessionM.sourceFile m rfl rfl failed
  obtain ⟨-, -, -, background⟩ := redirections_open_in_turn here (.one d) full _ e
  refine ⟨sound, rfl, _, failed, by decide +kernel, by decide +kernel, by decide +kernel,
    ⟨before, r, after, parts, ?_, (frame sound rfl before _ inTurn).1⟩, ?_, ?_⟩
  · exact (ShellError.redirectionTarget.inj same).1.symm
  · rw [ran, untouched]
  · exact (background SessionM.sourceFile m rfl rfl failed').2.2 (by decide +kernel)

end JobShell
