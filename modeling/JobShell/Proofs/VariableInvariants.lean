import JobShell.Proofs.ShellInvariants

/-! What holds of the variables throughout a session, also while files are sourced. -/
namespace JobShell

/-- A property of variables that goes with a range of statuses, and that survives everything that
sessions do to variables. -/
structure Variables.Enduring (I : Variables → Prop) (S : Int → Prop) : Prop where
  range {s : Int} : IsStatus s → S s
  current {v : Variables} : I v → S v.status
  status {v : Variables} {s : Int} : I v → S s → I { v with status := s }
  background {v : Variables} : I v → ∀ pid, I { v with background := some pid }
  set {v : Variables} {name : String} : I v → Text.isIdentifier name.toList = true →
    ∀ value, I (v.set name value)
  exported {v : Variables} {name : String} : I v → Text.isIdentifier name.toList = true →
    ∀ value, I (v.setExported name value)
  unset {v : Variables} : I v → ∀ name, I (v.unset name)

open Variables (Enduring)

namespace SessionM

variable {I : Variables → Prop} {S : Int → Prop} (E : Enduring I S)
include E

theorem enduring_vars : Shell.Enduring (fun sh => I sh.vars) S where
  range := E.range
  current := E.current
  status := E.status
  background := E.background
  set := E.set
  exported := E.exported
  unset := E.unset
  other h same _ := same ▸ h

section
variable {prepare : Preparation}
  (agree : ∀ argv m, I m.shell.vars → (prepare argv).run m = (prepareImage argv).run m)
include agree

theorem alike_sourceWithin (levels : Nat) (path : String) :
    Alike (fun sh => I sh.vars) (Finds S) (sourceWithinBy prepare levels path)
      (sourceWithinBy prepareImage levels path) := by
  have V := enduring_vars E
  have K := kept_of_enduring V
  have A := K.admits
  induction levels generalizing path with
  | zero => exact .pure trivial
  | succ levels ih =>
    refine (correspondence_alike K).runFile (K := fun _ => True) (alike_engine V ih agree)
      (.of_does A.get) (fun _ file _ _ => .of_does (A.ofFiles.halt (.stuck file))) ?_
    exact fun f m h => ⟨rfl, h, trivial⟩

theorem alike_sourceFile (path : String) :
    Alike (fun sh => I sh.vars) (Finds S) (sourceFileBy prepare path)
      (sourceFileBy prepareImage path) :=
  .shellBind fun _ _ => alike_sourceWithin E agree _ path

omit agree in
theorem keeping_reapJobs : Alters (Keeping fun sh => I sh.vars) reapJobs := by
  have A := (kept_of_enduring (enduring_vars E)).admits
  intro m
  let reaped := m.shell.jobs.reap m.shell.pid m.host
  exact ⟨(A.ofFiles.announce reaped.1 ⟨{ m.shell with jobs := reaped.2.1 }, reaped.2.2⟩).1, trivial⟩

/-- Every step of a session keeps the property, and prepares programs only where it holds. -/
theorem alike_perform (step : Transcript.Step) :
    Alike (fun sh => I sh.vars) (fun _ => True) (Transcript.performBy prepare step)
      (Transcript.perform step) := by
  have V := enduring_vars E
  have K := kept_of_enduring V
  have A := K.admits
  have sources := alike_sourceFile E agree
  have engine := alike_engine V sources agree
  have done (r : Transcript.Result) :
      Alike (fun sh => I sh.vars) (fun _ => True) (pure r) (pure r) := .pure trivial
  cases step with
  | line text => exact ((correspondence_alike K).runLine engine text).bind fun _ _ => done _
  | builtin name argv =>
    simp only [Transcript.performBy, Transcript.perform]
    cases Builtin.ofName? name with
    | some b => exact (alike_builtin K sources b argv).bind fun _ _ => done _
    | none => exact done _
  | tokens ts => exact ((correspondence_alike K).runChecked engine ts).bind fun _ _ => done _
  | source path =>
    refine (sources path).bind ?_
    rintro (e | status) - <;> exact done _
  | prompt => exact .of_does (A.andThen (A.apart fun _ => rfl) fun _ => A.pure trivial)
  | reap =>
    exact .andThen (.of_does (keeping_reapJobs E)) fun _ => done _
  | steal job =>
    refine .andThen (.of_does (A.apart fun _ => rfl)) fun found => ?_
    cases found with
    | none => exact done _
    | some pid => exact .andThen (.of_does (A.modifyProcesses _)) fun _ => done _
  | signal number =>
    simp only [Transcript.performBy, Transcript.perform]
    cases Signal.ofNumber? number with
    | none => exact done _
    | some sig => exact .andThen (.of_does (A.receiveSignal sig)) fun _ => done _

end
end SessionM
end JobShell
