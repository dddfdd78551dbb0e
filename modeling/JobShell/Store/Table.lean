/-!
Finite maps as lists of entries in ascending order of their keys, so that no key stands twice.
-/
namespace JobShell

structure Table (κ α : Type) [LT κ] where
  entries : List (κ × α)
  ascending : entries.Pairwise (·.1 < ·.1)
  deriving DecidableEq, Repr

namespace Table

variable {κ α : Type} [LE κ] [LT κ] [DecidableLT κ] [DecidableEq κ]

def empty : Table κ α := ⟨[], .nil⟩

instance : Inhabited (Table κ α) := ⟨empty⟩

def get? (t : Table κ α) (k : κ) : Option α := (t.entries.find? (·.1 = k)).map (·.2)

def contains (t : Table κ α) (k : κ) : Bool := (t.get? k).isSome

/-- Puts an entry in its place, instead of an entry with the same key. -/
def insertEntry (k : κ) (v : α) : List (κ × α) → List (κ × α)
  | [] => [(k, v)]
  | e :: r =>
    if k < e.1 then (k, v) :: e :: r
    else if k = e.1 then (k, v) :: r
    else e :: insertEntry k v r

omit [LE κ] in
theorem mem_insertEntry {k : κ} {v : α} {l : List (κ × α)} {e : κ × α}
    (h : e ∈ insertEntry k v l) : e = (k, v) ∨ e ∈ l := by
  induction l with
  | nil => exact .inl (List.mem_singleton.1 h)
  | cons a r ih =>
    rw [insertEntry] at h
    split at h
    · exact List.mem_cons.1 h
    · split at h
      · exact (List.mem_cons.1 h).imp id (List.mem_cons_of_mem a)
      · obtain rfl | h := List.mem_cons.1 h
        · exact .inr List.mem_cons_self
        · exact (ih h).imp id (List.mem_cons_of_mem a)

section
variable [Std.IsLinearOrder κ] [Std.LawfulOrderLT κ]

theorem pairwise_insertEntry (k : κ) (v : α) {l : List (κ × α)}
    (h : l.Pairwise (·.1 < ·.1)) : (insertEntry k v l).Pairwise (·.1 < ·.1) := by
  induction l with
  | nil => exact List.pairwise_singleton _ _
  | cons a r ih =>
    obtain ⟨first, rest⟩ := List.pairwise_cons.1 h
    rw [insertEntry]
    split
    · next before =>
      refine List.pairwise_cons.2 ⟨fun e he => ?_, h⟩
      obtain rfl | he := List.mem_cons.1 he
      · exact before
      · exact Std.lt_trans before (first e he)
    · next before =>
      split
      · next same => exact List.pairwise_cons.2 ⟨fun e he => same ▸ first e he, rest⟩
      · next differs =>
        have behind : a.1 < k := Std.lt_of_le_of_ne (Std.not_lt.1 before) (Ne.symm differs)
        refine List.pairwise_cons.2 ⟨fun e he => ?_, ih rest⟩
        obtain rfl | he := mem_insertEntry he
        · exact behind
        · exact first e he

def insert (t : Table κ α) (k : κ) (v : α) : Table κ α :=
  ⟨insertEntry k v t.entries, pairwise_insertEntry k v t.ascending⟩

/-- Enters all pairs of a list, of which later ones win. -/
def insertAll (t : Table κ α) (l : List (κ × α)) : Table κ α :=
  l.foldl (fun t e => t.insert e.1 e.2) t

def ofList (l : List (κ × α)) : Table κ α := empty.insertAll l

end

def erase (t : Table κ α) (k : κ) : Table κ α :=
  ⟨t.entries.filter (·.1 ≠ k), t.ascending.filter _⟩

omit [LE κ] [DecidableLT κ] in
@[simp] theorem get?_empty (k : κ) : (empty : Table κ α).get? k = none := rfl

omit [LE κ] in
theorem find?_insertEntry (k k' : κ) (v : α) (l : List (κ × α)) :
    (insertEntry k v l).find? (·.1 = k') = if k = k' then some (k, v) else l.find? (·.1 = k') := by
  induction l with
  | nil => by_cases h : k = k' <;> simp [insertEntry, h]
  | cons e r ih =>
    rw [insertEntry]
    split
    · by_cases h : k = k' <;> simp [h]
    · split
      · next he => by_cases h : k = k' <;> simp [h, ← he]
      · next he =>
        by_cases h : k = k'
        · subst h
          simp [Ne.symm he, ih]
        · simp [List.find?_cons, ih, h]

/-- An entered key has the value entered, and no other key has changed. -/
@[simp] theorem get?_insert [Std.IsLinearOrder κ] [Std.LawfulOrderLT κ] (t : Table κ α) (k k' : κ)
    (v : α) : (t.insert k v).get? k' = if k = k' then some v else t.get? k' := by
  simp only [get?, insert, find?_insertEntry]
  split <;> rfl

omit [LE κ] [DecidableLT κ] in
/-- An erased key has no value, and no other key has changed. -/
@[simp] theorem get?_erase (t : Table κ α) (k k' : κ) :
    (t.erase k).get? k' = if k = k' then none else t.get? k' := by
  simp only [get?, erase, List.find?_filter]
  split
  · next h =>
    subst h
    simp
  · next h =>
    congr 2
    funext e
    by_cases he : e.1 = k'
    · subst he
      simp [Ne.symm h]
    · simp [he]

omit [DecidableLT κ] in
/-- What stands in a table is what is found under its key. -/
theorem get?_eq_some_iff [Std.IsLinearOrder κ] [Std.LawfulOrderLT κ] {t : Table κ α} {k : κ}
    {v : α} : t.get? k = some v ↔ (k, v) ∈ t.entries := by
  obtain ⟨l, ascending⟩ := t
  rw [get?]
  dsimp only
  induction l with
  | nil => simp
  | cons e r ih =>
    obtain ⟨first, rest⟩ := List.pairwise_cons.1 ascending
    by_cases same : e.1 = k
    · subst same
      have later : (e.1, v) ∉ r := fun he => Std.lt_irrefl (first (e.1, v) he)
      simp [later, Prod.ext_iff, eq_comm]
    · have other : (k, v) ≠ e := by
        rintro rfl
        exact same rfl
      simpa [same, other] using ih rest

end Table
end JobShell
