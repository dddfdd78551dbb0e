import JobShell.Proofs.Evaluation
import JobShell.Proofs.SessionRules

/-! What is printed arrives, in order and as a whole, where standard output goes to the end of a
regular file: behind what is written there stands what is still in the buffer. -/
namespace JobShell

namespace Host

/-- A regular file is open, and the next byte goes to its end. -/
def AtEnd (s : Host) (h : Handle) : Prop :=
  ∃ o content executable, s.opened[h]? = some o ∧
    s.tree.get? o.node = some (.file content executable) ∧
    (o.append = true ∨ o.offset = content.length)

theorem splice_length (content b : Bytes) : splice content content.length b = content ++ b := by
  simp [splice]

theorem write_of_atEnd {s : Host} {h : Handle} (atEnd : s.AtEnd h) (b : Bytes) :
    ∃ t, s.write h b = .ok t ∧ t.AtEnd h ∧ t.content h = s.content h ++ b := by
  obtain ⟨o, content, executable, opened, node, place⟩ := atEnd
  have offset : (if o.append then content.length else o.offset) = content.length := by
    rcases place with append | offset
    · rw [if_pos append]
    · rw [offset, ite_self]
  have inside : h < s.opened.size := (Array.getElem?_eq_some_iff.1 opened).1
  have known : o.node < s.tree.nodes.size := (Array.getElem?_eq_some_iff.1 node).1
  let t : Host := { s with
    tree := s.tree.set o.node (.file (content ++ b) executable)
    opened := s.opened.setIfInBounds h { o with offset := content.length + b.length } }
  have opened' : t.opened[h]? = some { o with offset := content.length + b.length } :=
    Array.getElem?_setIfInBounds_self_of_lt inside
  have node' : t.tree.get? o.node = some (.file (content ++ b) executable) :=
    Array.getElem?_setIfInBounds_self_of_lt known
  refine ⟨t, ?_, ⟨_, _, _, opened', node', .inr List.length_append.symm⟩, ?_⟩
  · simp only [write, opened, node, offset, splice_length]
    rfl
  · simp [Host.content, opened', node', opened, node]

end Host

namespace Machine

/-- Standard output goes to the end of a regular file. -/
def Records (m : Machine) : Prop := m.host.AtEnd m.shell.stdio.output

/-- All that has been printed, the bytes in the buffer included. -/
def printed (m : Machine) : Bytes := m.host.content m.shell.stdio.output ++ m.shell.unwritten

/-- Some bytes have been printed, and nothing else has become of the session. -/
structure Wrote (b : Bytes) (m m' : Machine) : Prop where
  records : m'.Records
  printed : m'.printed = m.printed ++ b
  shell : m'.shell = { m.shell with unwritten := m'.shell.unwritten }

theorem Records.wrote {m : Machine} (h : m.Records) : Wrote [] m m :=
  ⟨h, (List.append_nil _).symm, rfl⟩

theorem Wrote.trans {b c : Bytes} {m m' m'' : Machine} (h : Wrote b m m') (h' : Wrote c m' m'') :
    Wrote (b ++ c) m m'' where
  records := h'.records
  printed := by rw [h'.printed, h.printed, List.append_assoc]
  shell := by rw [h'.shell, h.shell]

/-- Output is collected in a file of its own. -/
theorem records_start (tree : FileTree) (directory : NodeId) (input : Node)
    (environment : List (String × String)) (config : Config) :
    (start tree directory input environment config).Records := by
  let nodes := tree.nodes.push input
  refine ⟨⟨nodes.size, 0, false⟩, [], false, rfl, ?_, .inr rfl⟩
  change ((nodes.push (.file [] false)).push (.file [] false))[nodes.size]? = some (.file [] false)
  rw [Array.getElem?_push_lt (by simp)]
  simp

end Machine

namespace SessionM

open Machine (Records Wrote)

/-- A step prints some bytes and succeeds. -/
def Prints (b : Bytes) (x : SessionM (Except Errno Unit)) : Prop :=
  ∀ m : Machine, m.Records → ∃ m', x m = (.ok (), m') ∧ Wrote b m m'

theorem writeDirectly_apply {m : Machine} {b : Bytes} {t : Host}
    (written : m.host.write m.shell.stdio.output b = .ok t) :
    writeDirectly b m = (.ok (), { m with host := t }) := by
  change tryHost (fun s => (s.write m.shell.stdio.output b).map fun s => ((), s)) m = _
  rw [tryHost_apply, written]
  rfl

theorem writeDirectly_of_records {m : Machine} (h : m.Records) (empty : m.shell.unwritten = [])
    (b : Bytes) :
    ∃ m', writeDirectly b m = (.ok (), m') ∧ Wrote b m m' ∧ m'.shell = m.shell := by
  obtain ⟨t, written, atEnd, content⟩ := Host.write_of_atEnd h b
  refine ⟨_, writeDirectly_apply written, ⟨atEnd, ?_, rfl⟩, rfl⟩
  change t.content m.shell.stdio.output ++ m.shell.unwritten = _
  rw [content, Machine.printed, empty, List.append_nil, List.append_nil]

theorem flush_of_records {m : Machine} (h : m.Records) :
    ∃ m', flush m = (.ok (), m') ∧ Wrote [] m m' ∧ m'.shell.unwritten = [] := by
  by_cases empty : m.shell.unwritten = []
  · refine ⟨m, ?_, h.wrote, empty⟩
    change (if m.shell.unwritten.isEmpty then _ else _ : SessionM _) m = _
    rw [empty]
    rfl
  · obtain ⟨t, written, atEnd, content⟩ := Host.write_of_atEnd h m.shell.unwritten
    refine ⟨⟨{ m.shell with unwritten := [] }, t⟩, ?_, ⟨atEnd, ?_, rfl⟩, rfl⟩
    · change (if m.shell.unwritten.isEmpty then _ else _ : SessionM _) m = _
      rw [if_neg (by simpa using empty), Engine.bind_apply, writeDirectly_apply written]
      rfl
    · change t.content m.shell.stdio.output ++ [] = _
      rw [content, Machine.printed, List.append_nil]

/-- The first step prints, and so does the one that follows it. -/
theorem Prints.andThen {b c : Bytes} {x y : SessionM (Except Errno Unit)} (hx : Prints b x)
    (hy : Prints c y) :
    Prints (b ++ c) (do
      if let .error e ← x then return .error e
      y) := by
  intro m h
  obtain ⟨m', eq, wrote⟩ := hx m h
  obtain ⟨m'', eq', wrote'⟩ := hy m' wrote.records
  refine ⟨m'', ?_, wrote.trans wrote'⟩
  rw [Engine.bind_apply, eq]
  exact eq'

theorem prints_flush : Prints [] flush := fun _ h =>
  let ⟨m', eq, wrote, _⟩ := flush_of_records h
  ⟨m', eq, wrote⟩

/-- Bytes that are too many for the buffer find it empty, so that they overtake none. -/
theorem deliver_of_records {m : Machine} (h : m.Records) {b : Bytes}
    (room : m.shell.unwritten = [] ∨ b.length < bufferSize) :
    ∃ m', (if bufferSize ≤ b.length then writeDirectly b else do
      keep b
      return .ok () : SessionM (Except Errno Unit)) m = (.ok (), m') ∧ Wrote b m m' := by
  split
  · next big =>
    have empty := room.resolve_right (Nat.not_lt.2 big)
    obtain ⟨m', eq, wrote, _⟩ := writeDirectly_of_records h empty b
    exact ⟨m', eq, wrote⟩
  · exact ⟨_, rfl, h, (List.append_assoc ..).symm, rfl⟩

theorem prints_buffer (b : Bytes) : Prints b (buffer b) := by
  intro m h
  by_cases room : bufferSize - m.shell.unwritten.length < b.length
  · obtain ⟨m', eq, wrote, empty⟩ := flush_of_records h
    obtain ⟨m'', eq', wrote'⟩ := deliver_of_records wrote.records (b := b) (.inl empty)
    refine ⟨m'', ?_, wrote.trans wrote'⟩
    change (if bufferSize - m.shell.unwritten.length < b.length then _ else _ : SessionM _) m = _
    rw [if_pos room, Engine.bind_apply, eq]
    exact eq'
  · have free : m.shell.unwritten = [] ∨ b.length < bufferSize := by
      rw [← List.length_eq_zero_iff]
      have positive : 0 < bufferSize := by decide
      omega
    obtain ⟨m', eq, wrote⟩ := deliver_of_records h free
    refine ⟨m', ?_, wrote⟩
    change (if bufferSize - m.shell.unwritten.length < b.length then _ else _ : SessionM _) m = _
    rw [if_neg room]
    exact eq

theorem splitLines_append (b : Bytes) : (splitLines b).1 ++ (splitLines b).2 = b := by
  have suffix : (splitLines b).2 <:+ b := by
    rw [← List.reverse_prefix]
    simpa [splitLines] using List.takeWhile_prefix _
  exact List.suffix_iff_eq_append.1 suffix

/-- A text without a line feed sends out the complete lines that are still in the buffer. -/
theorem prints_tail {m : Machine} (h : m.Records) (tail : Bytes) :
    ∃ m', (if m.shell.unwritten.getLast? = some Bytes.newline then do
        if let .error e ← flush then return .error e
        buffer tail
      else buffer tail : SessionM (Except Errno Unit)) m = (.ok (), m') ∧ Wrote tail m m' := by
  split
  · exact prints_flush.andThen (prints_buffer tail) m h
  · exact prints_buffer tail m h

/-- Complete lines go out at once, behind what is in the buffer. -/
theorem prints_lines {m : Machine} (h : m.Records) (lines tail : Bytes) :
    ∃ m', (if m.shell.unwritten.isEmpty then do
        if let .error e ← writeDirectly lines then return .error e
        buffer tail
      else do
        if let .error e ← buffer lines then return .error e
        if let .error e ← flush then return .error e
        buffer tail : SessionM (Except Errno Unit)) m = (.ok (), m') ∧
      Wrote (lines ++ tail) m m' := by
  split
  · next empty =>
    obtain ⟨m', eq, wrote, _⟩ := writeDirectly_of_records h (List.isEmpty_iff.1 empty) lines
    obtain ⟨m'', eq', wrote'⟩ := prints_buffer tail m' wrote.records
    refine ⟨m'', ?_, wrote.trans wrote'⟩
    rw [Engine.bind_apply, eq]
    exact eq'
  · exact (prints_buffer lines).andThen (prints_flush.andThen (prints_buffer tail)) m h

theorem prints_print (b : Bytes) : Prints b (print b) := by
  intro m h
  have cut := splitLines_append b
  by_cases none : (splitLines b).1 = []
  · obtain ⟨m', eq, wrote⟩ := prints_tail h (splitLines b).2
    rw [none, List.nil_append] at cut
    refine ⟨m', ?_, cut ▸ wrote⟩
    rw [← eq]
    change (if (splitLines b).1.isEmpty then _ else _ : SessionM _) m = _
    rw [if_pos (List.isEmpty_iff.2 none)]
    rfl
  · obtain ⟨m', eq, wrote⟩ := prints_lines h (splitLines b).1 (splitLines b).2
    refine ⟨m', ?_, cut ▸ wrote⟩
    rw [← eq]
    change (if (splitLines b).1.isEmpty then _ else _ : SessionM _) m = _
    rw [if_neg fun empty => none (List.isEmpty_iff.1 empty)]
    rfl

theorem say_of_records {m : Machine} (h : m.Records) (pieces : List String) :
    Wrote (pieces.flatMap Bytes.ofString) m (say pieces m).2 := by
  induction pieces generalizing m with
  | nil => exact h.wrote
  | cons piece rest ih =>
    obtain ⟨m', eq, wrote⟩ := prints_print (Bytes.ofString piece) m h
    have step : say (piece :: rest) m = say rest m' := by
      rw [say, Engine.bind_apply, eq]
    rw [step]
    exact wrote.trans (ih wrote.records)

/-- What is printed for the members of a list comes in the list's order. -/
theorem forM_of_records {α : Type} {f : α → SessionM PUnit} {b : α → Bytes}
    (prints : ∀ a m, m.Records → Wrote (b a) m (f a m).2) (xs : List α) {m : Machine}
    (h : m.Records) : Wrote (xs.flatMap b) m (xs.forM f m).2 := by
  induction xs generalizing m with
  | nil => exact h.wrote
  | cons a xs ih =>
    have here := prints a m h
    exact here.trans (ih here.records)

end SessionM
end JobShell
