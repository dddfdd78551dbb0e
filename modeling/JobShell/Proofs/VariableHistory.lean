import JobShell.Proofs.TextBytes
import JobShell.Store.Variables
import Mathlib.Data.List.Induction

/-! Variables after any changes: what they hold follows from the history of the changes alone. -/
namespace JobShell.Variables

/-- What can be done to variables. -/
inductive Act where
  | set (name value : String)
  | setExported (name value : String)
  | markExported (name : String)
  | unset (name : String)
  | setArguments (arguments : List String)
  | setStatus (status : Int)
  | setBackground (pid : Int)
  deriving DecidableEq

def act (v : Variables) : Act → Variables
  | .set name value => v.set name value
  | .setExported name value => v.setExported name value
  | .markExported name => v.markExported name
  | .unset name => v.unset name
  | .setArguments arguments => v.setArguments arguments
  | .setStatus status => { v with status }
  | .setBackground pid => { v with background := some pid }

/-- The variables after some acts, one after the other. -/
def acts (v : Variables) (as : List Act) : Variables := as.foldl act v

theorem acts_concat (v : Variables) (as : List Act) (a : Act) :
    v.acts (as ++ [a]) = (v.acts as).act a := by
  rw [acts, List.foldl_append]
  rfl

/-! ### Values -/

/-- The value that a name was given last since it was unset, of acts of which the latest comes
first. A name without a value that is marked for export is given an empty one. -/
def given? (name : String) : List Act → Option String
  | [] => none
  | .set n value :: earlier | .setExported n value :: earlier =>
    if n = name then some value else given? name earlier
  | .markExported n :: earlier =>
    if n = name then some ((given? name earlier).getD "") else given? name earlier
  | .unset n :: earlier => if n = name then none else given? name earlier
  | .setArguments _ :: earlier | .setStatus _ :: earlier | .setBackground _ :: earlier =>
    given? name earlier

theorem value_acts (self : Int) (as : List Act) (name : String) :
    (((initial self).acts as).named.get? name).map Variable.value = given? name as.reverse := by
  induction as using List.reverseRecOn with
  | nil => rfl
  | append_singleton as a ih =>
    rw [acts_concat, List.reverse_concat]
    generalize (initial self).acts as = v at ih
    cases a with
    | set n value =>
      rw [given?, ← ih, act, Variables.set, Table.get?_insert]
      split <;> rfl
    | setExported n value =>
      rw [given?, ← ih, act, Variables.setExported, Table.get?_insert]
      split <;> rfl
    | markExported n =>
      rw [given?, ← ih, act, markExported, Variables.setExported, Table.get?_insert]
      split
      · next same => rw [same]; rfl
      · rfl
    | unset n =>
      rw [given?, ← ih, act, Variables.unset, Table.get?_erase]
      split <;> rfl
    | setArguments arguments =>
      rw [given?, ← ih, act]
      cases arguments <;> rfl
    | setStatus | setBackground => exact ih

/-! ### Export marks -/

/-- Whether an act marks a name for export. -/
def Act.marks (name : String) : Act → Bool
  | .setExported n _ | .markExported n => n = name
  | _ => false

theorem isExported_act (v : Variables) (a : Act) (name : String) :
    (v.act a).isExported name = true ↔
      a.marks name = true ∨ (a ≠ .unset name ∧ v.isExported name = true) := by
  cases a with
  | set n value =>
    simp only [act, isExported, Variables.set, Table.get?_insert, Act.marks]
    split
    · next same => simp [same]
    · simp
  | setExported n value | markExported n =>
    simp only [act, isExported, markExported, Variables.setExported, Table.get?_insert, Act.marks]
    split
    · next same => simp [same]
    · next differs => simp [differs]
  | unset n =>
    simp only [act, isExported, Variables.unset, Table.get?_erase, Act.marks]
    split
    · next same => simp [same]
    · next differs => simp [differs]
  | setArguments arguments => cases arguments <;> simp [act, isExported, setArguments, Act.marks]
  | setStatus | setBackground => simp [act, isExported, Act.marks]

/-- A name is marked exactly if an act marked it behind which it has not been unset. -/
theorem isExported_acts (self : Int) (as : List Act) (name : String) :
    ((initial self).acts as).isExported name = true ↔
      ∃ before a after, as = before ++ a :: after ∧ a.marks name = true ∧ .unset name ∉ after := by
  induction as using List.reverseRecOn with
  | nil => simp [acts, initial, isExported]
  | append_singleton as a ih =>
    rw [acts_concat, isExported_act, ih]
    constructor
    · rintro (marks | ⟨kept, before, b, after, rfl, marks, since⟩)
      · exact ⟨as, a, [], rfl, marks, List.not_mem_nil⟩
      · refine ⟨before, b, after ++ [a], by simp, marks, ?_⟩
        simpa using ⟨since, kept.symm⟩
    · rintro ⟨before, b, after, split, marks, since⟩
      rcases List.eq_nil_or_concat after with rfl | ⟨after, c, rfl⟩
      · obtain ⟨-, same⟩ := List.append_inj' split rfl
        cases same
        exact .inl marks
      · rw [List.concat_eq_append] at split since
        rw [List.mem_append, List.mem_singleton, not_or] at since
        rw [← List.cons_append, ← List.append_assoc] at split
        obtain ⟨rfl, same⟩ := List.append_inj' split rfl
        cases same
        exact .inr ⟨Ne.symm since.2, before, b, after, rfl, marks, since.1⟩

/-! ### Parameters -/

/-- The parameters as one list, with the name of the program in front. -/
def parameters (v : Variables) : List String := v.program :: v.arguments

/-- What becomes of a list of parameters. -/
def Act.onParameters (parameters : List String) : Act → List String
  | .setArguments [] => parameters.take 1
  | .setArguments given => given
  | _ => parameters

theorem parameters_acts (v : Variables) (as : List Act) :
    (v.acts as).parameters = as.foldl Act.onParameters v.parameters := by
  induction as generalizing v with
  | nil => rfl
  | cons a as ih =>
    have step : (v.act a).parameters = a.onParameters v.parameters := by
      cases a with
      | setArguments arguments => cases arguments <;> rfl
      | _ => rfl
    rw [List.foldl_cons, ← step]
    exact ih (v.act a)

/-- Reads a name off a list of parameters that may be empty. Then there are no arguments, nor is
there a number of them, and reading these fails. -/
def read? (v : Variables) (parameters : List String) (name : String) : Option (Option String) :=
  match name with
  | "?" => some (some (toString v.status))
  | "$" => some (some (toString v.self))
  | "!" => some (some ((v.background.map toString).getD ""))
  | "#" => parameters.tail?.map fun arguments => some (toString arguments.length)
  | "@" | "*" => parameters.tail?.map fun arguments => some (" ".intercalate arguments)
  | _ =>
    match Text.readIndex? name with
    | some i => some (some (parameters.getD i ""))
    | none => some ((v.named.get? name).map Variable.value)

/-- The names of the special parameters, but for the numbers. -/
def specialNames : List String := ["?", "$", "!", "#", "@", "*"]

theorem special?_of_not_mem (v : Variables) {name : String} (h : name ∉ specialNames) :
    v.special? name = (Text.readIndex? name).map v.argument := by
  unfold special?
  split
  case h_7 => rfl
  all_goals exact absurd (by decide) h

/-- There is always a first parameter, so that reading never fails. -/
theorem read?_parameters (v : Variables) (name : String) :
    v.read? v.parameters name = some (v.get? name) := by
  unfold read?
  split
  case h_7 question dollar exclamation number at_ star =>
    have ordinary : name ∉ specialNames := by
      simp only [specialNames, List.mem_cons, List.not_mem_nil, or_false]
      tauto
    rw [get?, v.special?_of_not_mem ordinary]
    cases Text.readIndex? name with
    | none => rfl
    | some i => cases i <;> rfl
  all_goals rfl

/-! ### The whole table -/

/-- Variables after any sequence of acts. There is always a first parameter, so that every name can
be read; a name that is no special parameter has the value it was given last since it was unset; it
is marked for export exactly if it was marked since then, whatever values it was given; and the
variables, of which the exported ones are what child processes see, are all that have values, each
once and in the order of the bytes of their names. -/
theorem table_follows_history (self : Int) (as : List Act) :
    let v := (initial self).acts as
    let parameters := as.foldl Act.onParameters ["jobsh"]
    parameters ≠ [] ∧ (∀ name, v.read? parameters name = some (v.get? name)) ∧
    (∀ name, name ∉ specialNames → Text.readIndex? name = none →
      v.get? name = given? name as.reverse) ∧
    (∀ name, v.isExported name = true ↔
      ∃ before a after, as = before ++ a :: after ∧ a.marks name = true ∧ .unset name ∉ after) ∧
    (∀ name later, v.isExported name = true → .unset name ∉ later →
      (v.acts later).isExported name = true) ∧
    (∀ name x, (name, x) ∈ v.list ↔
      given? name as.reverse = some x.value ∧ x.exported = v.isExported name) ∧
    v.list.Pairwise (fun p q => Bytes.ofString p.1 < Bytes.ofString q.1) ∧
    v.environment = (v.list.filter (·.2.exported)).map (fun p => (p.1, p.2.value)) ∧
    v.environment.Pairwise (fun p q => Bytes.ofString p.1 < Bytes.ofString q.1) := by
  intro v parameters
  have whole : v.parameters = parameters := parameters_acts (initial self) as
  have ordered : v.list.Pairwise (fun p q => Bytes.ofString p.1 < Bytes.ofString q.1) :=
    v.named.ascending.imp Bytes.ofString_lt_iff.2
  refine ⟨whole ▸ List.cons_ne_nil _ _, fun name => whole ▸ v.read?_parameters name,
    fun name ordinary index => ?_, isExported_acts self as, fun name later marked kept => ?_,
    fun name x => ?_, ordered, rfl, List.pairwise_map.2 (ordered.filter _)⟩
  · rw [get?, v.special?_of_not_mem ordinary, index]
    exact value_acts self as name
  · obtain ⟨before, a, after, rfl, marks, since⟩ := (isExported_acts self as name).1 marked
    have together : v.acts later = (initial self).acts (before ++ a :: (after ++ later)) := by
      simp [v, acts]
    rw [together, isExported_acts]
    refine ⟨before, a, after ++ later, rfl, marks, ?_⟩
    rw [List.mem_append, not_or]
    exact ⟨since, kept⟩
  · rw [← value_acts, list, ← Table.get?_eq_some_iff, isExported]
    change _ ↔ (v.named.get? name).map _ = _ ∧ _
    obtain ⟨value, exported⟩ := x
    cases v.named.get? name with
    | none => simp
    | some y =>
      obtain ⟨value', exported'⟩ := y
      simp [eq_comm]

/-- Of three names one is given a value, marked and given another one, one is marked without having
been given a value, and one is unset after it was marked. -/
theorem table_follows_history_mixed :
    let as : List Act := [.set "A" "1", .markExported "A", .setArguments ["x", "y"],
      .setExported "C" "3", .set "A" "2", .unset "C", .markExported "B", .setArguments [],
      .set "C" "4"]
    let v := (initial 7).acts as
    "A" ∉ specialNames ∧ Text.readIndex? "A" = none ∧ v.get? "A" = some "2" ∧
      v.isExported "A" = true ∧ v.isExported "C" = false ∧ v.read? ["x"] "#" = some (v.get? "#") ∧
      v.environment = [("A", "2"), ("B", "")] := by
  intro as v
  obtain ⟨-, reads, values, marks, -⟩ := table_follows_history 7 as
  have ordinary : "A" ∉ specialNames := by decide
  have index : Text.readIndex? "A" = none := by decide
  refine ⟨ordinary, index, values "A" ordinary index, ?_, ?_, reads "#", by decide +kernel⟩
  · exact (marks "A").2 ⟨[.set "A" "1"], _, _, rfl, rfl, by decide⟩
  · decide +kernel

end JobShell.Variables
