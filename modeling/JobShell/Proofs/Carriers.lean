import JobShell.Session.Execute

/-! Steps on states that have a machine in them: what they do at a state, that the status which they
give is the one that the machine keeps, and how runs on states that hold more are seen as runs on
those that hold less. -/
namespace JobShell

open Carrier SessionM

/-! ### Steps at a state -/

namespace Engine

variable {σ α β : Type}

theorem bind_apply (x : StateM σ α) (f : α → StateM σ β) (s : σ) :
    (x >>= f) s = f (x s).1 (x s).2 := rfl

theorem get_bind_apply (f : σ → StateM σ α) (s : σ) : (get >>= f) s = f s s := rfl

theorem ite_apply (c : Prop) [Decidable c] (x y : StateM σ α) (s : σ) :
    (if c then x else y) s = if c then x s else y s := by
  split <;> rfl

end Engine

namespace Carrier

variable {σ α β : Type} [Carrier σ]

theorem lift_pure (a : α) : lift (σ := σ) (pure a) = pure a := by
  funext s
  exact congrArg (a, ·) (put_machine s)

theorem lift_bind (x : SessionM α) (f : α → SessionM β) :
    lift (σ := σ) (x >>= f) = lift x >>= fun a => lift (f a) := by
  funext s
  change (_, put s _) = ((f (x (machine s)).1 (machine (put s (x (machine s)).2))).1,
    put (put s (x (machine s)).2) (f (x (machine s)).1 (machine (put s (x (machine s)).2))).2)
  rw [machine_put, put_put]

theorem machine_lift (x : SessionM α) (s : σ) : machine (lift x s).2 = (x (machine s)).2 :=
  machine_put _ _

/-- Reading something off the machine leaves the state alone. -/
theorem lift_read (f : Machine → α) (s : σ) :
    lift (do return f (← get)) s = (f (machine s), s) :=
  congrArg (f (machine s), ·) (put_machine s)

theorem lift_lastStatus (s : σ) : lift lastStatus s = ((machine s).shell.vars.status, s) :=
  lift_read (fun m => m.shell.vars.status) s

theorem lift_shell (s : σ) : lift shell s = ((machine s).shell, s) := lift_read Machine.shell s

theorem lift_isOver (s : σ) : lift isOver s = ((machine s).isOver, s) :=
  lift_read Machine.isOver s

theorem status_setStatus (status : Int) (s : σ) :
    (machine (lift (setStatus status) s).2).shell.vars.status = status := by
  rw [machine_lift]
  rfl

/-- The status that has been set is the one to be read. -/
theorem setStatus_lastStatus (status : Int) :
    (do lift (setStatus status); lift lastStatus : StateM σ Int) =
      (do lift (setStatus status); return status) := by
  funext s
  rw [Engine.bind_apply, lift_lastStatus, status_setStatus]
  rfl

end Carrier

/-! ### The two copies of the status -/

namespace Engine

variable {σ α : Type} [Carrier σ]

/-- A step that gives the status which the machine has after it. -/
def GivesStatus (x : StateM σ Int) : Prop :=
  ∀ s, (x s).1 = (machine (x s).2).shell.vars.status

namespace GivesStatus

theorem bind {x : StateM σ α} {f : α → StateM σ Int} (h : ∀ a, GivesStatus (f a)) :
    GivesStatus (x >>= f) := fun s => h _ (x s).2

theorem ite {x y : StateM σ Int} (c : Prop) [Decidable c] (hx : GivesStatus x)
    (hy : GivesStatus y) : GivesStatus (if c then x else y) := by
  split
  · exact hx
  · exact hy

theorem lastStatus : GivesStatus (σ := σ) (lift SessionM.lastStatus) := by
  intro s
  rw [lift_lastStatus]

theorem setStatus (status : Int) :
    GivesStatus (do lift (SessionM.setStatus status); return status : StateM σ Int) := fun s =>
  (status_setStatus status s).symm

theorem reject (e : ShellError) : GivesStatus (σ := σ) (lift (SessionM.reject e)) := by
  intro s
  rw [machine_lift]
  rfl

end GivesStatus

variable (E : Engine σ)

theorem runSegments_cons (status : Int) (segment : Segment) (segments : List Segment) (s : σ) :
    E.runSegments status (segment :: segments) s =
      let ran := E.runSegment segment s
      if (machine ran.2).isOver then ran else E.runSegments ran.1 segments ran.2 := by
  rw [runSegments, bind_apply, bind_apply, lift_isOver, ite_apply]
  rfl

theorem runTokens_apply (ts : List Token) (s : σ) :
    E.runTokens ts s =
      E.runSegments (machine s).shell.vars.status (Segment.ofLine ts) s := by
  rw [runTokens, bind_apply, lift_lastStatus]

end Engine

/-! ### Two engines side by side -/

/-- What has been found has a property. -/
def Finds {ε α : Type} (Q : α → Prop) : Except ε α → Prop
  | .ok a => Q a
  | .error _ => True

/-- A correspondence of steps on states of two kinds, with what holds of their results. It goes
through everything that lines are put together from; statuses have a property of their own. -/
structure Correspondence {σ τ : Type} [Carrier σ] [Carrier τ]
    (R : {α : Type} → (α → Prop) → StateM σ α → StateM τ α → Prop) (S : Int → Prop) : Prop where
  pure : ∀ {α : Type} {Q : α → Prop} {a : α}, Q a → R Q (pure a) (pure a)
  bind : ∀ {α β : Type} {P : β → Prop} {Q : α → Prop} {x : StateM σ β} {y : StateM τ β}
    {f : β → StateM σ α} {g : β → StateM τ α},
    R P x y → (∀ b, P b → R Q (f b) (g b)) → R Q (x >>= f) (y >>= g)
  isOver : R (fun _ => True) (lift isOver) (lift isOver)
  shell : R (fun _ => True) (lift shell) (lift shell)
  expandLine : ∀ line, R (fun _ => True) (lift (expandLine line)) (lift (expandLine line))
  zero : S 0
  lastStatus : R S (lift lastStatus) (lift lastStatus)
  setStatus : ∀ {status : Int}, S status →
    R (fun _ => True) (lift (setStatus status)) (lift (setStatus status))
  report : ∀ e, R S (lift (report e)) (lift (report e))

/-- What two engines are asked to run corresponds. -/
structure Engine.Agree {σ τ : Type} (R : {α : Type} → (α → Prop) → StateM σ α → StateM τ α → Prop)
    (S : Int → Prop) (E : Engine σ) (F : Engine τ) : Prop where
  execute : ∀ ts, R S (E.execute ts) (F.execute ts)
  launch : ∀ ts, R (fun _ => True) (E.launch ts) (F.launch ts)

namespace Correspondence

variable {σ τ α β : Type} [Carrier σ] [Carrier τ]
  {R : {α : Type} → (α → Prop) → StateM σ α → StateM τ α → Prop} {S : Int → Prop}
  (h : Correspondence R S)

theorem orElse (_ : Correspondence R S) {Q : α → Prop} {x x' : StateM σ α} {y y' : StateM τ α}
    (c : Prop) [Decidable c] (hx : R Q x y) (hy : R Q x' y') :
    R Q (if c then x else x') (if c then y else y') := by
  split
  · exact hx
  · exact hy

section
include h

theorem andThen {Q : α → Prop} {x : StateM σ β} {y : StateM τ β} {f : β → StateM σ α}
    {g : β → StateM τ α} (hx : R (fun _ => True) x y) (hf : ∀ b, R Q (f b) (g b)) :
    R Q (x >>= f) (y >>= g) := h.bind hx fun b _ => hf b

/-- A status is stored and given. -/
theorem store {status : Int} (hs : S status) :
    R S (do lift (SessionM.setStatus status); return status)
      (do lift (SessionM.setStatus status); return status) :=
  h.andThen (h.setStatus hs) fun _ => h.pure hs

theorem reject (e : ShellError) : R S (lift (SessionM.reject e)) (lift (SessionM.reject e)) := by
  simp only [SessionM.reject, lift_bind, lift_pure]
  exact h.bind (h.report e) fun status hs => h.store hs

end

/-! What holds of chains and of whatever is put together from them. -/

section Chains

variable {x : List Token → StateM σ Int} {y : List Token → StateM τ Int}
  (hx : ∀ ts, R S (x ts) (y ts))
include h hx

theorem proceed {status : Int} (hs : S status) (rest : List (Connector × List Token)) :
    R S (Chain.proceed x status rest) (Chain.proceed y status rest) := by
  induction rest generalizing status with
  | nil => exact h.pure hs
  | cons link rest ih =>
    refine h.andThen h.isOver fun _ => h.orElse _ (h.pure hs) (h.orElse _ ?_ (ih hs))
    exact h.bind (hx link.2) fun status hs => h.andThen (h.setStatus hs) fun _ => ih hs

theorem runChain (c : Chain) : R S (Chain.run x c) (Chain.run y c) :=
  h.bind (hx _) fun _ hs => h.andThen (h.setStatus hs) fun _ => h.proceed hx hs _

end Chains

section Lines

variable {E : Engine σ} {F : Engine τ} (agree : Engine.Agree R S E F)
include h agree

theorem runSegment (s : Segment) : R S (E.runSegment s) (F.runSegment s) := by
  refine h.orElse _ (h.andThen (agree.launch s.tokens) ?_) ?_
  · rintro (e | ⟨⟩)
    · simp only [lift_bind]
      refine h.andThen (h.bind (h.report e) fun status hs => h.setStatus hs) fun _ => ?_
      exact h.lastStatus
    · exact h.andThen (h.setStatus h.zero) fun _ => h.lastStatus
  · exact h.bind (h.runChain agree.execute _) fun status hs => h.store hs

theorem runSegments {status : Int} (hs : S status) (ss : List Segment) :
    R S (E.runSegments status ss) (F.runSegments status ss) := by
  induction ss generalizing status with
  | nil => exact h.pure hs
  | cons s ss ih =>
    refine h.bind (h.runSegment agree s) fun status hs => h.andThen h.isOver fun _ => ?_
    exact h.orElse _ (h.pure hs) (ih hs)

theorem runTokens (ts : List Token) : R S (E.runTokens ts) (F.runTokens ts) :=
  h.bind h.lastStatus fun _ hs => h.runSegments agree hs _

theorem runChecked (ts : List Token) : R S (E.runChecked ts) (F.runChecked ts) := by
  refine h.andThen h.shell fun sh => ?_
  dsimp only
  split
  · exact h.reject _
  · exact h.reject _
  · exact h.runTokens agree _

theorem runLine (line : String) : R S (E.runLine line) (F.runLine line) := by
  refine h.andThen (h.expandLine line) fun text => h.andThen h.shell fun sh => ?_
  split
  · exact h.reject _
  · exact h.runChecked agree _

theorem runLines {status : Int} (hs : S status) (lines : List (List Char)) :
    R S (E.runLines status lines) (F.runLines status lines) := by
  induction lines generalizing status with
  | nil => exact h.pure hs
  | cons line rest ih =>
    refine h.orElse _ (ih hs) (h.bind (h.runLine agree _) fun status hs => ?_)
    exact h.andThen h.isOver fun _ => h.orElse _ (h.pure hs) (ih hs)

/-- A file of which something is known when it is read. -/
theorem runFile {K : Machine → Prop} (read : R K (lift get) (lift get)) {path : String}
    (stuck : ∀ m file, K m → m.host.tree.readText m.shell.directory path = .endless file →
      R (fun _ => True) (lift (halt (.stuck file))) (lift (halt (.stuck file))))
    (depth : ∀ f : Nat → Nat,
      R (fun _ => True) (lift (modifyShell fun sh => { sh with sourceDepth := f sh.sourceDepth }))
        (lift (modifyShell fun sh => { sh with sourceDepth := f sh.sourceDepth }))) :
    R (Finds S) (E.runFile path) (F.runFile path) := by
  refine h.bind read fun m known => ?_
  cases found : m.host.tree.readText m.shell.directory path with
  | failed e => exact h.pure trivial
  | endless file => exact h.andThen (stuck m file known found) fun _ => h.pure h.zero
  | text text =>
    refine h.andThen (depth (· + 1)) fun _ => h.bind (h.runLines agree h.zero _) fun _ hs => ?_
    exact h.andThen (depth (· - 1)) fun _ => h.pure hs

end Lines
end Correspondence

/-! ### Runs on states that hold more -/

namespace Engine

variable {σ τ α β : Type}

/-- An action on fine states is, seen through a view of them, an action on coarse states. -/
def Seen (view : σ → τ) (x : StateM σ α) (y : StateM τ α) : Prop :=
  ∀ s, ((x s).1, view (x s).2) = y (view s)

namespace Seen

variable {view : σ → τ}

theorem pure (a : α) : Seen view (Pure.pure a) (Pure.pure a) := fun _ => rfl

theorem bind {x : StateM σ α} {y : StateM τ α} {f : α → StateM σ β} {g : α → StateM τ β}
    (hx : Seen view x y) (hf : ∀ a, Seen view (f a) (g a)) : Seen view (x >>= f) (y >>= g) := by
  intro s
  rw [bind_apply, bind_apply, ← hx s]
  exact hf _ _

theorem ite {x x' : StateM σ α} {y y' : StateM τ α} (c : Prop) [Decidable c]
    (h : Seen view x y) (h' : Seen view x' y') :
    Seen view (if c then x else x') (if c then y else y') := by
  split
  · exact h
  · exact h'

section Attempts

variable {x : ExceptT ShellError (StateM σ) β} {y : ExceptT ShellError (StateM τ) β}
  {f : β → ExceptT ShellError (StateM σ) α} {g : β → ExceptT ShellError (StateM τ) α}

theorem tryBind (hx : Seen view x.run y.run) (hf : ∀ b, Seen view (f b).run (g b).run) :
    Seen view (x >>= f).run (y >>= g).run := by
  rw [ExceptT.run_bind, ExceptT.run_bind]
  refine .bind hx ?_
  rintro (e | b)
  · exact .pure _
  · exact hf b

theorem liftBind {x : StateM σ β} {y : StateM τ β} (hx : Seen view x y)
    (hf : ∀ b, Seen view (f b).run (g b).run) :
    Seen view ((liftM x : ExceptT ShellError (StateM σ) β) >>= f).run
      ((liftM y : ExceptT ShellError (StateM τ) β) >>= g).run := .bind hx hf

end Attempts
end Seen

variable [Carrier σ] [Carrier τ]

/-- A view keeps the machine in sight. -/
structure Views (view : σ → τ) : Prop where
  machine : ∀ s, machine (view s) = machine s
  put : ∀ s m, view (put s m) = put (view s) m

namespace Views

variable {view : σ → τ} (h : Views view)

theorem fst {ρ : Type} : Views (Prod.fst : σ × ρ → σ) := ⟨fun _ => rfl, fun _ _ => rfl⟩

include h

theorem lift (x : SessionM α) : Seen view (lift x) (lift x) := by
  intro s
  change ((x (Carrier.machine s)).1, view (Carrier.put s _)) = (_, Carrier.put (view s) _)
  rw [h.put, h.machine]

theorem attempt (x : AttemptM α) : Seen view (attempt (σ := σ) x).run (attempt x).run :=
  h.lift x.run

/-- Nothing is said of what steps give beyond that it is the same. -/
theorem correspondence :
    Correspondence (fun {α} (Q : α → Prop) x y => Seen view x y ∧ ∀ s, Q (x s).1) fun _ => True where
  pure ha := ⟨.pure _, fun _ => ha⟩
  bind hx hf := by
    refine ⟨fun s => ?_, fun s => (hf _ (hx.2 s)).2 _⟩
    rw [bind_apply, bind_apply, ← hx.1 s]
    exact (hf _ (hx.2 s)).1 _
  isOver := ⟨h.lift _, fun _ => trivial⟩
  shell := ⟨h.lift _, fun _ => trivial⟩
  expandLine _ := ⟨h.lift _, fun _ => trivial⟩
  zero := trivial
  lastStatus := ⟨h.lift _, fun _ => trivial⟩
  setStatus _ := ⟨h.lift _, fun _ => trivial⟩
  report _ := ⟨h.lift _, fun _ => trivial⟩

end Views

/-- Each thing one engine does is, through the view, what the other does. -/
structure SeenAs (E : Engine σ) (view : σ → τ) (F : Engine τ) : Prop where
  views : Views view
  execute : ∀ ts, Seen view (E.execute ts) (F.execute ts)
  launch : ∀ ts, Seen view (E.launch ts) (F.launch ts)

namespace SeenAs

variable {E : Engine σ} {view : σ → τ} {F : Engine τ} (h : E.SeenAs view F)
include h

theorem agree : Agree (fun {α} (Q : α → Prop) x y => Seen view x y ∧ ∀ s, Q (x s).1)
    (fun _ => True) E F :=
  ⟨fun ts => ⟨h.execute ts, fun _ => trivial⟩, fun ts => ⟨h.launch ts, fun _ => trivial⟩⟩

theorem runTokens (ts : List Token) : Seen view (E.runTokens ts) (F.runTokens ts) :=
  (h.views.correspondence.runTokens h.agree ts).1

theorem runLine (line : String) : Seen view (E.runLine line) (F.runLine line) :=
  (h.views.correspondence.runLine h.agree line).1

theorem runFile (path : String) : Seen view (E.runFile path) (F.runFile path) :=
  (h.views.correspondence.runFile h.agree (K := fun _ => True)
    ⟨h.views.lift _, fun _ => trivial⟩ (fun _ _ _ _ => ⟨h.views.lift _, fun _ => trivial⟩)
    fun _ => ⟨h.views.lift _, fun _ => trivial⟩).1

end SeenAs
end Engine

namespace Commands

open Engine

variable {σ τ : Type} [Carrier σ] [Carrier τ]

/-- Commands of each kind are run on fine states as they are on coarse ones. -/
structure SeenAs (C : Commands σ) (view : σ → τ) (D : Commands τ) : Prop where
  views : Views view
  assign : ∀ name value, Seen view (C.assign name value) (D.assign name value)
  builtin : ∀ b c, Seen view (C.builtin b c).run (D.builtin b c).run
  program : ∀ c, Seen view (C.program c).run (D.program c).run
  pipeline : ∀ p, Seen view (C.pipeline p).run (D.pipeline p).run

variable {C : Commands σ} {view : σ → τ} {D : Commands τ}

theorem SeenAs.run (h : C.SeenAs view D) (c : Command) : Seen view (C.run c).run (D.run c).run := by
  unfold Commands.run
  split
  · exact (h.assign _ _).bind fun status => .pure (Except.ok status)
  · exact h.builtin _ c
  · exact h.program c

theorem SeenAs.execute (h : C.SeenAs view D) (ts : List Token) :
    Seen view (C.execute ts) (D.execute ts) := by
  refine .bind ?_ ?_
  · split
    · exact .tryBind (h.views.attempt _) h.pipeline
    · exact .tryBind (h.views.attempt _) h.run
  · rintro (e | status)
    · exact h.views.lift _
    · exact .pure status

end Commands
end JobShell
