import JobShell.Host.Basic
import JobShell.Proofs.TreeGrowth

/-! What comes of writing to an open file: which files and places change, and when a process that has
something to say gives up for want of space. -/
namespace JobShell.Host

variable {s : Host}

/-! ### Attempts to write -/

/-- All that an attempt to write can do. -/
theorem attempt_cases (s : Host) (h : Handle) (b : Bytes) :
    s.attempt h b = s ∨ ∃ o content executable, s.opened[h]? = some o ∧
      s.tree.get? o.node = some (.file content executable) ∧
      let offset := if o.append then content.length else o.offset
      s.attempt h b = { s with
        tree := s.tree.set o.node (.file (splice content offset b) executable)
        opened := s.opened.setIfInBounds h { o with offset := offset + b.length } } := by
  unfold attempt write
  cases opened : s.opened[h]? with
  | none => exact .inl rfl
  | some o =>
    cases node : s.tree.get? o.node with
    | none => simp only [node, true_or]
    | some n =>
      cases n with
      | file content executable =>
        exact .inr ⟨o, content, executable, rfl, node, by simp only [node]⟩
      | full =>
        left
        simp only [node]
        cases List.isEmpty b <;> rfl
      | _ => simp only [node, true_or]

/-- A node that is not open at a place does not change when something is written there. -/
theorem get?_attempt {h : Handle} {node : NodeId}
    (other : ∀ o, s.opened[h]? = some o → o.node ≠ node) (b : Bytes) :
    (s.attempt h b).tree.get? node = s.tree.get? node := by
  obtain same | ⟨o, content, executable, opened, file, written⟩ := s.attempt_cases h b
  · rw [same]
  · rw [written]
    exact (FileTree.get?_set (FileTree.has_of_get? file) _ _).trans (if_neg (other o opened))

theorem opened_attempt {h f : Handle} (other : h ≠ f) (b : Bytes) :
    (s.attempt h b).opened[f]? = s.opened[f]? := by
  obtain same | ⟨o, content, executable, opened, file, written⟩ := s.attempt_cases h b
  · rw [same]
  · rw [written]
    exact Array.getElem?_setIfInBounds_ne other

/-- At every place the same node stays open. -/
theorem node_attempt (s : Host) (h : Handle) (b : Bytes) (f : Handle) :
    (s.attempt h b).opened[f]?.map OpenFile.node = s.opened[f]?.map OpenFile.node := by
  by_cases same : h = f
  · subst same
    obtain same | ⟨o, content, executable, opened, file, written⟩ := s.attempt_cases h b
    · rw [same]
    · have inside : h < s.opened.size := (Array.getElem?_eq_some_iff.1 opened).1
      rw [written, opened]
      simp only [Array.getElem?_setIfInBounds_self, inside, if_true, Option.map_some]
  · rw [opened_attempt same]

theorem halts_attempt (s : Host) (h : Handle) (b : Bytes) : (s.attempt h b).halts = s.halts := by
  obtain same | ⟨o, content, executable, opened, file, written⟩ := s.attempt_cases h b
  · rw [same]
  · rw [written]

/-! ### Want of space -/

theorem isFull_iff (s : Host) (h : Handle) :
    s.isFull h = true ↔
      ∃ node, s.opened[h]?.map OpenFile.node = some node ∧ s.tree.get? node = some .full := by
  unfold isFull
  cases s.opened[h]? with
  | none => simp
  | some o =>
    simp only [Option.bind_some, Option.map_some, Option.some.injEq, exists_eq_left']
    split
    · next full => exact iff_of_true rfl full
    · next other => exact iff_of_false Bool.false_ne_true other

theorem isFull_attempt (s : Host) (h : Handle) (b : Bytes) (f : Handle) :
    (s.attempt h b).isFull f = s.isFull f := by
  have full (id : NodeId) : (s.attempt h b).tree.get? id = some .full ↔
      s.tree.get? id = some .full := by
    obtain same | ⟨o, content, executable, opened, file, written⟩ := s.attempt_cases h b
    · rw [same]
    · rw [written]
      dsimp only
      rw [FileTree.get?_set (FileTree.has_of_get? file)]
      split
      · next same => simp [← same, file]
      · rfl
  rw [Bool.eq_iff_iff, isFull_iff, isFull_iff, node_attempt]
  simp only [full]

/-- A process gives up just if there is no space for what it has to say. -/
theorem complain_eq (s : Host) (pid : Int) (h : Handle) (text : String) :
    s.complain pid h text =
      if s.isFull h = true ∧ Bytes.ofString text ≠ [] then s.halt pid .crashed
      else s.attempt h (Bytes.ofString text) := by
  unfold complain attempt isFull write
  cases s.opened[h]? with
  | none => rfl
  | some o =>
    simp only [Option.bind_some]
    cases s.tree.get? o.node with
    | none => rfl
    | some n =>
      cases n with
      | full => cases Bytes.ofString text <;> rfl
      | _ => rfl

end JobShell.Host
