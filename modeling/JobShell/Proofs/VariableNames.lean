import JobShell.Proofs.VariableInvariants

/-! The names of variables are identifiers, whatever a session that began without variables has
done. -/
namespace JobShell

/-! ### Well-named variables -/

namespace Variables

/-- Every variable has an identifier for a name. -/
structure WellNamed (v : Variables) : Prop where
  identifiers : ∀ p ∈ v.list, Text.isIdentifier p.1.toList = true

namespace WellNamed

variable {v : Variables}

theorem of_empty (h : v.named = .empty) : v.WellNamed := by
  constructor
  rw [list, h]
  nofun

theorem insert (h : v.WellNamed) {name : String} (identifier : Text.isIdentifier name.toList = true)
    (x : Variable) : WellNamed { v with named := v.named.insert name x } where
  identifiers p hp := by
    obtain rfl | hp := Table.mem_insertEntry hp
    · exact identifier
    · exact h.identifiers p hp

theorem erase (h : v.WellNamed) (name : String) : (v.unset name).WellNamed where
  identifiers p hp := h.identifiers p (List.mem_of_mem_filter hp)

/-- No variable is hidden by a parameter of the session. -/
theorem get?_eq_some (h : v.WellNamed) {p : String × Variable} (hp : p ∈ v.list) :
    v.get? p.1 = some p.2.value := by
  rw [get?, special?_eq_none v (h.identifiers p hp), Table.get?_eq_some_iff.2 hp]
  rfl

theorem environment (h : v.WellNamed) {p : String × String} (hp : p ∈ v.environment) :
    '=' ∉ p.1.toList := by
  obtain ⟨e, he, rfl⟩ := List.mem_map.1 hp
  have identifier := h.identifiers e (List.mem_of_mem_filter he)
  intro equals
  exact absurd (Text.isNameChar_of_mem identifier _ equals) (by decide)

end WellNamed

theorem enduring_wellNamed : Enduring WellNamed fun _ => True where
  range _ := trivial
  current _ := trivial
  status h _ := ⟨h.identifiers⟩
  background h _ := ⟨h.identifiers⟩
  set h identifier _ := h.insert identifier _
  exported h identifier _ := h.insert identifier _
  unset h name := h.erase name

end Variables

/-! ### Sessions -/

open SessionM

namespace Shell

/-- The shells that come of one by steps of all kinds. Before each of them, the rest of the world
may be in any state. -/
inductive Leads (start : Shell) : Shell → Prop where
  | start : Leads start start
  | step {sh : Shell} (reached : Leads start sh) (world : Host) (step : Transcript.Step) :
    Leads start (Transcript.perform step ⟨sh, world⟩).2.shell

theorem Leads.wellNamed {start sh : Shell} (reached : start.Leads sh)
    (h : start.vars.WellNamed) : sh.vars.WellNamed := by
  induction reached with
  | start => exact h
  | step _ world step ih =>
    exact (alike_perform Variables.enduring_wellNamed (fun _ _ _ => rfl) step ⟨_, world⟩ ih).2.1

/-- In a session that began without variables, every variable has an identifier for a name and is
found under it, and exported names have no equals sign in them. That holds within steps too,
whenever a program is prepared to be run: how programs would be prepared in an environment with
other names makes no difference to any step. -/
theorem variable_names_are_identifiers {start sh : Shell} (empty : start.vars.named = .empty)
    (reached : start.Leads sh) :
    (∀ p ∈ sh.vars.list,
      Text.isIdentifier p.1.toList = true ∧ sh.vars.get? p.1 = some p.2.value) ∧
    (∀ p ∈ sh.vars.environment, '=' ∉ p.1.toList) ∧
    ∀ prepare : Preparation,
      (∀ argv m, (∀ p ∈ m.shell.vars.environment, '=' ∉ p.1.toList) →
        (prepare argv).run m = (prepareImage argv).run m) →
      ∀ step world, Transcript.performBy prepare step ⟨sh, world⟩ =
        Transcript.perform step ⟨sh, world⟩ := by
  have named := reached.wellNamed (.of_empty empty)
  refine ⟨fun p hp => ⟨named.identifiers p hp, named.get?_eq_some hp⟩,
    fun p hp => named.environment hp, fun prepare agree step world => ?_⟩
  have alike := alike_perform Variables.enduring_wellNamed
    (fun argv m h => agree argv m fun p hp => h.environment hp) step
  exact (alike ⟨sh, world⟩ named).1

/-- A line that tries names of all kinds, in assignments, references, exports and a sourced file. -/
theorem variable_names_are_identifiers_mixed :
    let tree := FileTree.empty.plant FileTree.root "a"
      (.file (Bytes.ofString "cd .\n3=x\nD=${_E:=e}\n") false)
    let start := Machine.start tree FileTree.root .null [] .default
    let line := "export 1=a B=b; true ${2:=c} ${C:=d}; . a"
    let sh := (Transcript.perform (.line line) start).2.shell
    start.shell.vars.named = .empty ∧ start.shell.Leads sh ∧
      sh.vars.list.map (·.1) = ["B", "C", "D", "OLDPWD", "PWD", "_E"] ∧
      sh.vars.get? "D" = some "e" ∧ sh.vars.environment = [("B", "b")] ∧
      '=' ∉ "B".toList := by
  intro tree start line sh
  have empty : start.shell.vars.named = .empty := rfl
  have reached : start.shell.Leads sh := .step .start start.host (.line line)
  obtain ⟨found, inside, -⟩ := variable_names_are_identifiers empty reached
  have listed : sh.vars.list = [("B", ⟨"b", true⟩), ("C", ⟨"d", false⟩), ("D", ⟨"e", false⟩),
      ("OLDPWD", ⟨"/", false⟩), ("PWD", ⟨"/", false⟩), ("_E", ⟨"e", false⟩)] := by
    decide +kernel
  have exported : sh.vars.environment = [("B", "b")] := by
    rw [Variables.environment, listed]
    rfl
  exact ⟨empty, reached, by rw [listed]; rfl, (found ("D", ⟨"e", false⟩) (by simp [listed])).2,
    exported, inside ("B", "b") (by simp [exported])⟩

end Shell
end JobShell
