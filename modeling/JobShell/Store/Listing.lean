/-!
Finite maps as lists of entries in any order, in which no key stands twice.
-/
namespace JobShell

structure Listing (κ α : Type) where
  entries : List (κ × α)
  distinct : entries.Pairwise (·.1 ≠ ·.1)
  deriving DecidableEq, Repr

namespace Listing

variable {κ α : Type} [DecidableEq κ]

def empty : Listing κ α := ⟨[], .nil⟩

def get? (t : Listing κ α) (k : κ) : Option α := (t.entries.find? (·.1 = k)).map (·.2)

def erase (t : Listing κ α) (k : κ) : Listing κ α :=
  ⟨t.entries.filter (·.1 ≠ k), t.distinct.filter _⟩

theorem distinct_insert (t : Listing κ α) (k : κ) (v : α) :
    ((t.erase k).entries ++ [(k, v)]).Pairwise (·.1 ≠ ·.1) := by
  refine List.pairwise_append.2 ⟨(t.erase k).distinct, List.pairwise_singleton _ _, ?_⟩
  intro e he last hlast
  rw [List.mem_singleton.1 hlast]
  exact of_decide_eq_true (List.mem_filter.1 he).2

/-- Puts an entry behind all others, instead of an entry with the same key. -/
def insert (t : Listing κ α) (k : κ) (v : α) : Listing κ α :=
  ⟨(t.erase k).entries ++ [(k, v)], t.distinct_insert k v⟩

def keys (t : Listing κ α) : List κ := t.entries.map (·.1)

@[simp] theorem get?_empty (k : κ) : (empty : Listing κ α).get? k = none := rfl

/-- An erased key has no value, and no other key has changed. -/
@[simp] theorem get?_erase (t : Listing κ α) (k k' : κ) :
    (t.erase k).get? k' = if k = k' then none else t.get? k' := by
  simp only [get?, erase, List.find?_filter]
  split
  · next h =>
    subst h
    simp
  · next h =>
    congr 2
    funext e
    by_cases he : e.1 = k'
    · subst he
      simp [Ne.symm h]
    · simp [he]

/-- An entered key has the value entered, and no other key has changed. -/
@[simp] theorem get?_insert (t : Listing κ α) (k k' : κ) (v : α) :
    (t.insert k v).get? k' = if k = k' then some v else t.get? k' := by
  have split : (t.insert k v).get? k' =
      ((t.erase k).get? k').or (if k = k' then some v else none) := by
    simp only [get?, insert, List.find?_append, Option.map_or]
    by_cases h : k = k' <;> simp [h]
  rw [split, get?_erase]
  by_cases h : k = k'
  · simp [h]
  · simp [h]

/-- What stands in a listing is what is found under its key. -/
theorem get?_eq_some_iff {t : Listing κ α} {k : κ} {v : α} :
    t.get? k = some v ↔ (k, v) ∈ t.entries := by
  obtain ⟨l, distinct⟩ := t
  rw [get?]
  dsimp only
  induction l with
  | nil => simp
  | cons e r ih =>
    obtain ⟨first, rest⟩ := List.pairwise_cons.1 distinct
    by_cases same : e.1 = k
    · subst same
      have later : (e.1, v) ∉ r := fun he => first (e.1, v) he rfl
      simp [later, Prod.ext_iff, eq_comm]
    · have other : (k, v) ≠ e := by
        rintro rfl
        exact same rfl
      simpa [same, other] using ih rest

end Listing
end JobShell
