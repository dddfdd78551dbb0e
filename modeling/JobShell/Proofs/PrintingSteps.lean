import JobShell.Session.Output
import Mathlib.Tactic.Common

/-! Printing is made up of few steps. What holds of these, and of steps one after the other, holds
of all that prints. -/
namespace JobShell.SessionM

/-- A property of steps that holds of what printing is made up of. -/
structure OfPrinting (C : {α : Type} → SessionM α → Prop) : Prop where
  pure : ∀ {α : Type} (a : α), C (pure a)
  bind : ∀ {α β : Type} {x : SessionM α} {f : α → SessionM β}, C x → (∀ a, C (f a)) → C (x >>= f)
  shell : C shell
  unwritten : ∀ f : Shell → Bytes, C (modifyShell fun sh => { sh with unwritten := f sh })
  writeDirectly : ∀ b, C (writeDirectly b)

namespace OfPrinting

variable {C : {α : Type} → SessionM α → Prop}

theorem ite {α : Type} {x y : SessionM α} {c : Prop} [Decidable c] (hx : C x) (hy : C y) :
    C (if c then x else y) := by
  split
  · exact hx
  · exact hy

variable (h : OfPrinting C)
include h

/-- A step that goes on unless another one fails. -/
theorem unlessError {x y : SessionM (Except Errno Unit)} (hx : C x) (hy : C y) :
    C (do
      if let .error e ← x then return .error e
      y) := by
  refine h.bind hx ?_
  rintro (e | ⟨⟩)
  · exact h.pure _
  · exact hy

theorem flush : C flush := by
  refine h.bind h.shell fun sh => ite (h.pure _) (h.bind (h.writeDirectly _) ?_)
  rintro (e | ⟨⟩)
  · exact h.pure _
  · exact h.bind (h.unwritten fun _ => []) fun _ => h.pure _

theorem buffer (b : Bytes) : C (buffer b) := by
  have store : C (if bufferSize ≤ b.length then SessionM.writeDirectly b else do
      keep b
      return .ok ()) :=
    ite (h.writeDirectly b) (h.bind (h.unwritten fun sh => sh.unwritten ++ b) fun _ => h.pure _)
  exact h.bind h.shell fun sh => ite (h.unlessError h.flush store) store

theorem print (b : Bytes) : C (print b) := by
  refine h.bind h.shell fun sh => ite (ite ?_ ?_) (ite ?_ ?_)
  · exact h.unlessError h.flush (h.buffer _)
  · exact h.buffer _
  · exact h.unlessError (h.writeDirectly _) (h.buffer _)
  · exact h.unlessError (h.buffer _) (h.unlessError h.flush (h.buffer _))

theorem say (pieces : List String) : C (say pieces) := by
  induction pieces with
  | nil => exact h.pure _
  | cons piece rest ih =>
    refine h.bind (h.print _) ?_
    rintro (e | ⟨⟩)
    · exact h.pure _
    · exact ih

end OfPrinting
end JobShell.SessionM
