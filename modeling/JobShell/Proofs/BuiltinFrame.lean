import JobShell.Proofs.ShellChanges

/-! What builtins change of the shell: tables, jobs, the working directory and what is printed.
Apart from those that ask to leave or source a file, none of them changes anything else. -/
namespace JobShell

/-- What of a shell builtins leave alone. -/
def Shell.standing (sh : Shell) : Shell :=
  { sh with
    vars := { sh.vars with named := .empty }
    aliases := .empty
    jobs := .empty
    previousDirectory := none
    directory := FileTree.root
    unwritten := []
    foreground := none }

/-- A shell has changed at most where builtins change it. -/
def Shell.Stands (before after : Shell) : Prop := after.standing = before.standing

namespace SessionM

/-- A relation that allows what such builtins change: new variables are named by identifiers. -/
structure Admits (R : Shell → Shell → Prop) : Prop extends Tolerant R where
  aliases : ∀ sh aliases, R sh { sh with aliases }
  jobs : ∀ sh jobs, R sh { sh with jobs }
  watched : ∀ sh foreground, R sh { sh with foreground }
  moved : ∀ sh directory, R sh { sh with directory }
  left : ∀ sh previousDirectory, R sh { sh with previousDirectory }
  set : ∀ sh {name}, Text.isIdentifier name.toList = true → ∀ value,
    R sh { sh with vars := sh.vars.set name value }
  exported : ∀ sh {name}, Text.isIdentifier name.toList = true → ∀ value,
    R sh { sh with vars := sh.vars.setExported name value }
  unset : ∀ sh name, R sh { sh with vars := sh.vars.unset name }

namespace Admits

variable {R : Shell → Shell → Prop} (h : Admits R)
include h

theorem modifyJobs (f : JobTable → JobTable) : Alters R (modifyJobs f) :=
  alters_modifyShell fun sh => h.jobs sh _

theorem ofSignals : OfSignals (fun {α} (Q : α → Prop) (x : SessionM α) => Does R Q x)
    fun _ => True where
  toOfSteps := h.ofFiles.toOfSteps
  aliases _ := alters_modifyShell fun sh => h.aliases sh _
  set identifier value := alters_modifyShell fun sh => h.set sh identifier value
  exported identifier _ := alters_modifyShell fun sh => h.exported sh identifier _
  unset name := alters_modifyShell fun sh => h.unset sh name
  moved _ _ := alters_modifyShell fun sh => h.moved sh _
  left _ := alters_modifyShell fun sh => h.left sh _
  kill _ _ _ := h.onProcesses _
  struck _ := h.ofFiles.halt _

theorem bringBack (job : Job) : Does R IsStatus (JobControl.bringBack job) := by
  refine h.andThen (h.say _) fun _ => h.andThen h.flush fun _ => ?_
  refine h.andThen (h.modifyJobs _) fun _ => h.bind (P := ?_) ?_ ?_
  · exact fun r => ∀ status, r = .error status → IsStatus status
  · refine h.withForeground h.watched _ (h.andThen (h.ofSignals.resume job) ?_)
    rintro (e | ⟨⟩)
    · refine h.bind (h.fail isStatus_one _ _) fun status hs => h.pure ?_
      rintro _ ⟨⟩
      exact hs
    · exact h.andThen (h.waitFor _) fun _ => h.pure (by simp)
  · rintro (status | e | outcome) failed
    · exact h.pure (failed status rfl)
    · exact h.fail isStatus_one _ _
    · exact h.settle (fun sh _ _ _ => h.jobs sh _) _ _ _

theorem ofBuiltins : OfBuiltins (fun {α} (Q : α → Prop) (x : SessionM α) => Does R Q x)
    fun _ => True where
  toOfSignals := h.ofSignals
  forgotten _ := h.modifyJobs _
  resumed _ := h.modifyJobs _
  bringBack _ _ := h.bringBack _

theorem builtin {b : Builtin} (stays : b.stays = true) (source : Builtin.Sourcing)
    (argv : List String) : Does R IsStatus (b.run source argv) :=
  h.ofBuiltins.builtin stays source argv

end Admits

theorem admits_stands : Admits Shell.Stands where
  refl _ := rfl
  trans first second := Eq.trans second first
  printed _ _ := rfl
  aliases _ _ := rfl
  jobs _ _ := rfl
  watched _ _ := rfl
  moved _ _ := rfl
  left _ _ := rfl
  set _ _ _ _ := rfl
  exported _ _ _ _ := rfl
  unset _ _ := rfl

theorem stands_builtin {b : Builtin} (stays : b.stays = true) (source : Builtin.Sourcing)
    (argv : List String) : Does Shell.Stands IsStatus (b.run source argv) :=
  admits_stands.builtin stays source argv

end SessionM
end JobShell
