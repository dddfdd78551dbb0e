import JobShell.Expansion.Reference
import JobShell.Proofs.FilledLine

/-! What the expansion of a line does to the variables: it gives values to some that had none, where
the line says so. -/
namespace JobShell

/-- Variables after some of the references among the pieces of a line have set the variable that
they name, each of which was unset or empty at its turn. -/
inductive Piece.Assigned (ps : List Piece) (v : Variables) : Variables → Prop where
  | refl : Assigned ps v v
  | set {w : Variables} {q : Bool} {name text : String} (h : Assigned ps v w)
    (written : .reference q (.orAssign name text) ∈ ps)
    (identifier : Text.isIdentifier name.toList = true)
    (empty : (w.get? name).filter (· ≠ "") = none) : Assigned ps v (w.set name text)

namespace Piece

theorem assigned_evaluate {ps : List Piece} {v w : Variables} (h : Assigned ps v w) {q : Bool}
    {r : Reference} (written : .reference q r ∈ ps) : Assigned ps v (r.evaluate w).2 := by
  cases r with
  | literal | value | length => exact h
  | orElse name text =>
    rw [Reference.evaluate]
    split <;> exact h
  | orAssign name text =>
    rw [Reference.evaluate]
    split
    · exact h
    · next empty =>
      dsimp only
      split
      · next identifier => exact .set h written identifier empty
      · exact h

theorem assigned_expand {all ps : List Piece} {v w : Variables} (h : Assigned all v w)
    (among : ps ⊆ all) : Assigned all v (expand w ps).2 := by
  induction ps generalizing w with
  | nil => exact h
  | cons p ps ih =>
    obtain ⟨here, rest⟩ := List.cons_subset.1 among
    cases p with
    | plain c => exact ih h rest
    | reference q r => exact ih (assigned_evaluate h here) rest

theorem assigned_expandReferences (v : Variables) (line : String) :
    Assigned (ofLine .bare line.toList) v (expandReferences v line).2 :=
  assigned_expand .refl (List.Subset.refl _)

namespace Assigned

variable {ps : List Piece} {v w : Variables}

/-- Special parameters are left alone. -/
theorem eq_named (h : Assigned ps v w) : w = { v with named := w.named } := by
  induction h with
  | refl => rfl
  | @set w _ name text _ _ _ _ ih =>
    exact congrArg (fun u : Variables => { u with named := (w.set name text).named }) ih

theorem isExported_eq (h : Assigned ps v w) (name : String) :
    w.isExported name = v.isExported name := by
  induction h with
  | refl => rfl
  | @set w _ assigned text _ _ _ _ ih =>
    rw [← ih]
    simp only [Variables.set, Variables.isExported, Table.get?_insert]
    split
    · next same =>
      subst same
      rfl
    · rfl

end Assigned
end Piece
end JobShell
