import JobShell.Proofs.PrintedOutput
import JobShell.Proofs.ScopedFiles

/-! What a builtin prints while its output is redirected. None of it goes to the standard output of
the shell as long as the builtin runs. But what its target has refused stays in the buffer that the
shell prints through, and goes out with whatever the shell prints next. -/
namespace JobShell

open Host (Course)

namespace Host

variable {A : Access} {s t : Host} {h : Handle}

/-! ### Files that take what is written to them -/

/-- Whether a file takes bytes: all but full devices do, of those that can be written to at all. -/
def takes (s : Host) (h : Handle) : Bool :=
  match (s.opened[h]?).bind fun o => s.tree.get? o.node with
  | some (.file ..) | some .null | some (.terminal _) | some .fifo | some (.program _) => true
  | _ => false

theorem write_of_takes (takes : s.takes h = true) (b : Bytes) : ∃ t, s.write h b = .ok t := by
  unfold Host.takes at takes
  unfold write
  cases opened : s.opened[h]? with
  | none =>
    rw [opened] at takes
    cases takes
  | some o =>
    rw [opened, Option.bind_some] at takes
    dsimp only
    cases node : s.tree.get? o.node with
    | none =>
      rw [node] at takes
      cases takes
    | some n =>
      rw [node] at takes
      cases n with
      | file | null | terminal | fifo | program => exact ⟨_, rfl⟩
      | directory | link | full => cases takes

theorem write_of_not_takes (refuses : s.takes h = false) {b : Bytes} (some : b ≠ []) :
    ∃ e, s.write h b = .error e := by
  unfold Host.takes at refuses
  unfold write
  cases opened : s.opened[h]? with
  | none => exact ⟨_, rfl⟩
  | some o =>
    rw [opened, Option.bind_some] at refuses
    dsimp only
    cases node : s.tree.get? o.node with
    | none => exact ⟨_, rfl⟩
    | some n =>
      rw [node] at refuses
      cases n with
      | file | null | terminal | fifo | program => cases refuses
      | directory | link => exact ⟨_, rfl⟩
      | full =>
        have nonempty : b.isEmpty = false := by simpa using some
        dsimp only
        rw [nonempty]
        exact ⟨_, rfl⟩

/-- A file that is open goes on taking what it is given, or refusing it. -/
theorem Continues.takes_eq (continues : s.Continues t) {o : OpenFile}
    (opened : s.opened[h]? = some o) (has : s.tree.Has o.node) : t.takes h = s.takes h := by
  obtain ⟨o', opened', same, -⟩ := continues.opened h o opened
  obtain ⟨n, node⟩ := Option.isSome_iff_exists.1 has
  obtain ⟨n', node', akin⟩ := continues.lasts.node _ n node
  rw [takes, takes, opened, opened', Option.bind_some, Option.bind_some, same, node, node']
  cases akin <;> rfl

/-! ### Files that nothing else leads to -/

/-- A regular file is open at its end, at one place alone, and no path leads to it. -/
structure Secluded (s : Host) (h : Handle) : Prop where
  atEnd : s.AtEnd h
  unlisted : ∀ o, s.opened[h]? = some o → s.tree.Unlisted o.node
  only : ∀ (o : OpenFile) (f : Handle) (p : OpenFile), s.opened[h]? = some o →
    s.opened[f]? = some p → p.node = o.node → f = h

/-- A new file that is in no directory. -/
theorem secluded_openUnnamed (sound : s.tree.Sound)
    (nodes : ∀ (f : Handle) (o : OpenFile), s.opened[f]? = some o → s.tree.Has o.node) :
    (s.openUnnamed (.file [] false)).2.Secluded s.opened.size := by
  have place : (s.openUnnamed (.file [] false)).2.opened[s.opened.size]? =
      some ⟨s.tree.nodes.size, 0, false⟩ := Array.getElem?_push_size
  refine ⟨⟨_, [], false, place, Array.getElem?_push_size, .inr rfl⟩, fun o here => ?_,
    fun o f p here there same => ?_⟩
  · obtain rfl := Option.some.inj (place.symm.trans here)
    exact FileTree.unlisted_push sound (by rintro _ _ ⟨⟩)
  · obtain rfl := Option.some.inj (place.symm.trans here)
    change (s.opened.push _)[f]? = some p at there
    rw [Array.getElem?_push] at there
    split at there
    · assumption
    · have old := nodes f p there
      rw [same] at old
      exact absurd old s.tree.not_has_size

namespace Secluded

/-- Nothing else comes to lead to the file, and so it matters only where it stands. -/
theorem go (h' : s.Secluded h) (continues : s.Continues t) (atEnd : t.AtEnd h) : t.Secluded h := by
  obtain ⟨o, content, executable, opened, node, -⟩ := h'.atEnd
  have has : s.tree.Has o.node := FileTree.has_of_get? node
  obtain ⟨o', opened', same, -⟩ := continues.opened h o opened
  refine ⟨atEnd, fun p here => ?_, fun p f q here there node => ?_⟩
  · obtain rfl := Option.some.inj (opened'.symm.trans here)
    rw [same]
    exact continues.lasts.unlisted has (h'.unlisted o opened)
  · obtain rfl := Option.some.inj (opened'.symm.trans here)
    cases before : s.opened[f]? with
    | none =>
      rw [same] at node
      exact absurd (h'.unlisted o opened) (node ▸ (continues.new f q before there).2 (node ▸ has))
    | some q' =>
      obtain ⟨q'', there', same', -⟩ := continues.opened f q' before
      obtain rfl := Option.some.inj (there.symm.trans there')
      exact h'.only o f q' opened before (same'.symm.trans (node.trans same))

/-- Neither the file nor the place changes, and so nothing has been written. -/
theorem still (h' : s.Secluded h) (continues : s.Continues t)
    (place : t.opened[h]? = s.opened[h]?)
    (node : ∀ o, s.opened[h]? = some o → t.tree.get? o.node = s.tree.get? o.node) :
    t.Secluded h ∧ t.content h = s.content h := by
  obtain ⟨o, content, executable, opened, file, ends⟩ := h'.atEnd
  have opened' := place.trans opened
  have file' := (node o opened).trans file
  refine ⟨h'.go continues ⟨o, content, executable, opened', file', ends⟩, ?_⟩
  rw [Host.content, Host.content, place, opened, Option.bind_some, Option.bind_some,
    node o opened]

theorem silent (h' : s.Secluded h) (act : s.Silent A t) :
    t.Secluded h ∧ t.content h = s.content h := by
  obtain ⟨o, content, executable, opened, file, -⟩ := h'.atEnd
  refine h'.still act.continues ((act.opened h o opened).trans opened.symm) fun p here => ?_
  obtain rfl := Option.some.inj (opened.symm.trans here)
  exact act.spares.spared _ (FileTree.has_of_get? file) (h'.unlisted o opened)

theorem attempt (h' : s.Secluded h) (b : Bytes) :
    (s.attempt h b).Secluded h ∧ (s.attempt h b).content h = s.content h ++ b := by
  obtain ⟨t, written, atEnd, content⟩ := write_of_atEnd h'.atEnd b
  have done : s.attempt h b = t := by rw [Host.attempt, written]
  have continues := continues_attempt s h b
  rw [done] at continues ⊢
  exact ⟨h'.go continues atEnd, content⟩

/-- What is added to the file is what is written at its place, as long as nobody reads there. -/
theorem course {log : List Writing} (h' : s.Secluded h) (unread : ¬A.reads h)
    (course : Course A s log t) :
    t.Secluded h ∧ t.content h = s.content h ++ Writing.through h log := by
  induction course with
  | rest s => exact ⟨h', by simp [Writing.through]⟩
  | silent act _ ih =>
    obtain ⟨secluded, same⟩ := h'.silent act
    rw [← same]
    exact ih secluded
  | @read s u f log allowed _ ih =>
    have other : f ≠ h := by
      rintro rfl
      exact unread allowed
    obtain ⟨secluded, same⟩ := h'.still (continues_drawn s f) (opened_drawn other) fun o here =>
      get?_drawn fun p there same => other (h'.only o f p here there same)
    rw [← same]
    exact ih secluded
  | @write s u outlet f b log allowed _ ih =>
    by_cases own : f = h
    · subst own
      obtain ⟨secluded, more⟩ := h'.attempt b
      obtain ⟨secluded', all⟩ := ih secluded
      refine ⟨secluded', all.trans ?_⟩
      rw [more]
      simp [Writing.through]
    · obtain ⟨secluded, same⟩ := h'.still (continues_attempt s f b) (opened_attempt own b)
        fun o here => get?_attempt (fun p there same => own (h'.only o f p here there same)) b
      obtain ⟨secluded', all⟩ := ih secluded
      refine ⟨secluded', all.trans ?_⟩
      rw [same]
      simp [Writing.through, own]

end Secluded

/-- The standard output of a shell is left alone. Messages may go there if standard error or the log
does, and so may what processes have held back for it. -/
def sparing (s : Host) (own : Stdio) (log : Option Handle) : Access where
  bound := own.output + 1
  reads f := f ≠ own.output ∨ own.input = own.output
  prints f := f ≠ own.output
  complains f := f ≠ own.output ∨ own.error = own.output
  records f := f ≠ own.output ∨ own.output ∈ log
  holds f b := f ≠ own.output ∨ own.error = own.output ∨ own.output ∈ log ∨
    ∃ p ∈ s.processes, (f, b) ∈ p.held
  crashes := True
  standing _ := True
  directory := s.tree.isDirectory
  fresh new := ⟨.inl (Nat.ne_of_gt new), Nat.ne_of_gt new, .inl (Nat.ne_of_gt new)⟩
  held := by
    rintro f (other | (other | same) | other | same) b
    · exact .inl other
    · exact .inl other
    · exact .inr (.inl same)
    · exact .inl other
    · exact .inr (.inr (.inl same))

end Host

/-- Standard output is collected in a file of its own. -/
structure Machine.Collects (m : Machine) : Prop where
  secluded : m.host.Secluded m.shell.stdio.output
  apart : m.shell.stdio.input ≠ m.shell.stdio.output

theorem Machine.unwritten_giving (m : Machine) (files : Stdio) :
    (m.giving files).shell.unwritten = m.shell.unwritten := rfl

theorem Machine.collects_start {tree : FileTree} (sound : tree.Sound) (directory : NodeId)
    {input : Node} (plain : ∀ parent entries, input ≠ .directory parent entries)
    (environment : List (String × String)) (config : Config) :
    (start tree directory input environment config).Collects := by
  let first := ((Host.ofTree tree).openUnnamed input).2
  let second := (first.openUnnamed (.file [] false)).2
  have opened : Course (first.access ⟨0, 0, 0⟩ none) second []
      (second.openUnnamed (.file [] false)).2 := Host.course_openUnnamed (by rintro _ _ ⟨⟩)
  have secluded : second.Secluded 1 := by
    refine Host.secluded_openUnnamed ((FileTree.Lasts.push plain).sound sound) fun f o here => ?_
    obtain ⟨inside, rfl⟩ := Array.getElem?_eq_some_iff.1 here
    obtain rfl : f = 0 := Nat.lt_one_iff.1 inside
    exact FileTree.has_of_get? Array.getElem?_push_size
  exact ⟨secluded.go opened.continues (records_start tree directory input environment config),
    by rintro ⟨⟩⟩

namespace SessionM

/-! ### Printing to a file that takes nothing -/

/-- What stays in the buffer of what is printed to a file that takes nothing: a text without a line
feed, if there is room for it. -/
def leftover (b : Bytes) : Bytes := if Bytes.newline ∈ b ∨ bufferSize ≤ b.length then [] else b

theorem not_mem_snd_splitLines (b : Bytes) : Bytes.newline ∉ (splitLines b).2 := by
  intro member
  have kept := List.mem_takeWhile_imp (List.mem_reverse.1 member)
  simp at kept

theorem fst_splitLines_eq_nil {b : Bytes} : (splitLines b).1 = [] ↔ Bytes.newline ∉ b := by
  refine ⟨fun none member => ?_, fun absent => ?_⟩
  · have whole := splitLines_append b
    rw [none, List.nil_append] at whole
    rw [← whole] at member
    refine not_mem_snd_splitLines b ?_
    rwa [whole] at member ⊢
  · have all : ∀ x ∈ b.reverse, (decide (x ≠ Bytes.newline)) = true := by
      intro x hx
      rw [decide_eq_true_iff]
      rintro rfl
      exact absent (List.mem_reverse.1 hx)
    unfold splitLines
    dsimp only
    rw [List.takeWhile_eq_self_iff.2 all]
    simp

section
variable {m : Machine} (refuses : m.host.takes m.shell.stdio.output = false)
include refuses

theorem writeDirectly_refused {b : Bytes} (some : b ≠ []) :
    ∃ e, writeDirectly b m = (.error e, m) := by
  obtain ⟨e, refused⟩ := Host.write_of_not_takes refuses some
  refine ⟨e, ?_⟩
  change tryHost (fun s => (s.write m.shell.stdio.output b).map fun s => ((), s)) m = _
  rw [tryHost_apply, refused]
  rfl

theorem flush_refused : (flush m).2 = m := by
  rw [flush_apply]
  split
  · rfl
  · next nonempty =>
    have some : m.shell.unwritten ≠ [] := fun none => nonempty (by rw [none]; rfl)
    obtain ⟨e, refused⟩ := Host.write_of_not_takes refuses some
    rw [refused]

/-- Bytes that are too many for the buffer are written past it, and refused. -/
theorem buffer_refused (empty : m.shell.unwritten = []) (b : Bytes) :
    (buffer b m).2.shell =
      { m.shell with unwritten := if bufferSize ≤ b.length then [] else b } := by
  by_cases big : bufferSize ≤ b.length
  · have some : b ≠ [] := by
      rintro rfl
      exact absurd big (by decide)
    obtain ⟨e, refused⟩ := writeDirectly_refused refuses some
    have idle : flush m = (.ok (), m) := by rw [flush_apply, if_pos (by rw [empty]; rfl)]
    have failed : buffer b m = (.error e, m) := by
      change (if bufferSize - m.shell.unwritten.length < b.length then _ else _ :
        SessionM (Except Errno Unit)) m = _
      split
      · rw [Engine.bind_apply, idle]
        exact refused
      · exact refused
    rw [failed, if_pos big, ← empty]
  · have room : ¬bufferSize - m.shell.unwritten.length < b.length := by
      rw [empty, List.length_nil]
      omega
    have kept : (buffer b m).2 =
        { m with shell := { m.shell with unwritten := m.shell.unwritten ++ b } } := by
      change ((if bufferSize - m.shell.unwritten.length < b.length then _ else _ :
        SessionM (Except Errno Unit)) m).2 = _
      rw [if_neg room, if_neg big]
      rfl
    rw [kept, if_neg big, empty, List.nil_append]

theorem print_refused (empty : m.shell.unwritten = []) (b : Bytes) :
    (print b m).2.shell = { m.shell with unwritten := leftover b } := by
  by_cases line : Bytes.newline ∈ b
  · have lines : (splitLines b).1 ≠ [] := fun none => fst_splitLines_eq_nil.1 none line
    obtain ⟨e, refused⟩ := writeDirectly_refused refuses lines
    have failed {f : Except Errno Unit → SessionM (Except Errno Unit)} :
        (writeDirectly (splitLines b).1 >>= f) m = f (.error e) m := by
      rw [Engine.bind_apply, refused]
    have run : print b m = (.error e, m) := by
      change (if (splitLines b).1.isEmpty then _ else _ : SessionM (Except Errno Unit)) m = _
      rw [if_neg fun none => lines (List.isEmpty_iff.1 none), if_pos (List.isEmpty_iff.2 empty)]
      exact failed
    rw [run, leftover, if_pos (.inl line), ← empty]
  · have none := fst_splitLines_eq_nil.2 line
    have cut := splitLines_append b
    rw [none, List.nil_append] at cut
    have whole : buffer (splitLines b).2 m = buffer b m := by rw [cut]
    have run : print b m = buffer b m := by
      change (if (splitLines b).1.isEmpty then _ else _ : SessionM (Except Errno Unit)) m = _
      rw [if_pos (List.isEmpty_iff.2 none), if_neg (by rw [empty]; simp)]
      exact whole
    rw [run, buffer_refused refuses empty, leftover]
    simp only [line, false_or]

/-- What echo leaves behind. -/
theorem echo_refused (empty : m.shell.unwritten = []) (argv : List String) :
    (Echo.run argv m).2.shell = { m.shell with unwritten := leftover (Echo.text argv.tail) } := by
  have told (message : String) (n : Machine) : (fail "echo" message 1 n).2.shell = n.shell := rfl
  rw [← print_refused refuses empty, Echo.run, Engine.bind_apply]
  rcases (print (Echo.text argv.tail) m).1 with e | ⟨⟩
  · exact told _ _
  · rfl

end

/-! ### Redirecting -/

variable {A : Access} {m m₁ : Machine} {c : Command}

theorem openOutputFor_cases (confined : m.Confined A) {target : Target}
    (aim : c.target? = some target) {output : Option Handle} {m' : Machine}
    (run : (Scoped.openOutputFor c).run m = (.ok output, m')) :
    ∃ mid, m' = (flush mid).2 ∧ output = some m.host.opened.size ∧ mid.shell = m.shell ∧
      Course A m.host [] mid.host := by
  unfold Scoped.openOutputFor at run
  rw [aim] at run
  dsimp only at run
  rw [liftBind_run] at run
  obtain ⟨e, failed⟩ | ⟨node, tree, t, -, opened, silent, -⟩ := openOutput_cases confined target
  · rw [failed] at run
    dsimp only at run
    split at run <;> cases run
  · rw [opened] at run
    cases run
    exact ⟨{ m with host := t }, rfl, rfl, rfl, .of_silent silent⟩

/-- What is opened for a builtin is open besides all that was. Then what has been printed before
goes out, to where it belongs. -/
theorem redirected_cases (confined : m.Confined A) (redirected : c.output.isSome = true)
    (opened : (redirectForBuiltin c m.shell.stdio).run m = (.ok (), m₁)) :
    ∃ input output mid, m₁ = (flush mid).2.giving (m.shell.stdio.redirect input (some output)) ∧
      (∀ h, input = some h → m.host.opened.size ≤ h) ∧ m.host.opened.size ≤ output ∧
      mid.shell = m.shell ∧ Course A m.host [] mid.host := by
  have aimed : c.target?.isSome = true := by rwa [Command.target?, Option.isSome_map]
  obtain ⟨target, aim⟩ := Option.isSome_iff_exists.1 aimed
  rw [redirectForBuiltin_run] at opened
  rcases scope : (Scoped.openFor m.shell.stdio c).run m with ⟨e | now, m'⟩
  · rw [tryBind_of_error scope] at opened
    cases opened
  rw [tryBind_of_ok scope] at opened
  obtain rfl : m'.giving now = m₁ := congrArg Prod.snd opened
  unfold Scoped.openFor at scope
  rcases source : c.input with _ | path
  · rw [source] at scope
    simp only [Option.mapM_none, pure_bind] at scope
    rcases aimed : (Scoped.openOutputFor c).run m with ⟨e | output, after⟩
    · rw [tryBind_of_error aimed] at scope
      cases scope
    rw [tryBind_of_ok aimed] at scope
    obtain ⟨mid, rfl, rfl, same, course⟩ := openOutputFor_cases confined aim aimed
    cases scope
    exact ⟨none, _, mid, rfl, by rintro _ ⟨⟩, Nat.le_refl _, same, course⟩
  · rw [source] at scope
    simp only [Option.mapM_some, map_eq_pure_bind, bind_assoc, pure_bind] at scope
    obtain ⟨e, failed⟩ | ⟨node, t, -, read, silent, -⟩ := openInput_cases confined path
    · rw [tryBind_of_error failed] at scope
      cases scope
    rw [tryBind_of_ok read] at scope
    have begun : Course A m.host [] t := .of_silent silent
    have more := silent.continues.size_le
    have confined' : Machine.Confined A { m with host := t } :=
      ⟨begun.within confined.host, confined.shell.mono (confined.host.extent_le silent.continues)⟩
    rcases aimed : (Scoped.openOutputFor c).run { m with host := t } with ⟨e | output, after⟩
    · rw [tryBind_of_error aimed] at scope
      cases scope
    rw [tryBind_of_ok aimed] at scope
    obtain ⟨mid, rfl, rfl, same, course⟩ := openOutputFor_cases confined' aim aimed
    cases scope
    refine ⟨some m.host.opened.size, _, mid, rfl, ?_, more, same, begun.trans course⟩
    rintro _ ⟨⟩
    exact Nat.le_refl _

/-- A builtin whose files have been redirected runs with them, and gets rid of what it has printed
as far as that can be done. -/
theorem runBuiltin_redirected (source : Builtin.Sourcing) (b : Builtin)
    (redirected : c.output.isSome = true)
    (opened : (redirectForBuiltin c m.shell.stdio).run m = (.ok (), m₁)) :
    (runBuiltin source b c).run m = (.ok (b.run source c.argv m₁).1,
      (flush (b.run source c.argv m₁).2).2.giving m.shell.stdio) := by
  have start : (runBuiltin source b c).run m = (do
      redirectForBuiltin c m.shell.stdio
      let status ← b.run source c.argv
      let _ ← flush
      if c.input.isSome || c.output.isSome then restore m.shell.stdio
      return status : AttemptM Int).run m := rfl
  rw [start, tryBind_of_ok opened, liftBind_run, liftBind_run, redirected, Bool.or_true, if_pos rfl]
  change (_, (flush (flush (b.run source c.argv m₁).2).2).2.giving m.shell.stdio) = _
  rw [flush_flush]

/-- A builtin leaves the files of the shell as they are. -/
theorem stdio_builtin {source : Builtin.Sourcing} (sourcing : IsSourcing source) (b : Builtin)
    (argv : List String) (m : Machine) :
    (b.run source argv m).2.shell.stdio = m.shell.stdio := by
  obtain ⟨sources, follows⟩ : ∃ sources, Follows source sources := by
    obtain rfl | ⟨levels, rfl⟩ := sourcing
    · exact ⟨_, follows_sourceFile⟩
    · exact ⟨_, follows_sourceWithin levels⟩
  obtain ⟨same, uses, -⟩ := follows_builtin follows _ b argv m rfl
  rw [same]
  exact uses

theorem unwritten_flush_of_takes (takes : m.host.takes m.shell.stdio.output = true) :
    (flush m).2.shell.unwritten = [] := by
  obtain ⟨t, written⟩ := Host.write_of_takes takes m.shell.unwritten
  rw [flush_apply, written]
  split
  · next empty => exact List.isEmpty_iff.1 empty
  · rfl

end SessionM

namespace Machine

variable {m m₁ : Machine} {own : Stdio}

/-- Nothing needs the standard output of a shell that has been given another one. -/
theorem InOrder.sparing (h : m.InOrder) (inside : own.output < m.host.opened.size)
    (input : m.shell.stdio.input = own.input ∨ m.shell.stdio.input ≠ own.output)
    (output : m.shell.stdio.output ≠ own.output) (error : m.shell.stdio.error = own.error) :
    m.Confined (m.host.sparing own m.shell.log) where
  host :=
    { bound := inside
      sound := h.sound
      directories := fun _ => rfl
      standing := fun _ _ _ => trivial
      nodes := h.nodes
      held := fun p hp e he => ⟨.inr (.inr (.inr ⟨p, hp, he⟩)), h.held p hp e he⟩
      next := h.next }
  shell := by
    refine ⟨⟨⟨?_, h.input⟩, ⟨output, h.output⟩, ⟨?_, h.error⟩, .inl trivial⟩,
      fun f log => ⟨?_, h.log f log⟩, h.directory⟩
    · obtain same | other := input
      · rw [same]
        exact (eq_or_ne own.input own.output).symm
      · exact .inl other
    · rw [error]
      exact (eq_or_ne own.error own.output).symm
    · obtain rfl | other := eq_or_ne f own.output
      · exact .inr log
      · exact .inl other

/-- Whether a file of the session takes what is written to it does not change. -/
theorem InOrder.takes_eq (h : m.InOrder) {t : Host} (continues : m.host.Continues t) {f : Handle}
    (inside : f < m.host.opened.size) : t.takes f = m.host.takes f := by
  have opened := Array.getElem?_eq_getElem inside
  exact continues.takes_eq opened (h.nodes f _ opened)

/-- A session whose output goes to a file that has been opened for that, and another one before. All
that has been printed has gone to the former output, if that takes it. -/
structure Redirected (m m₁ : Machine) : Prop where
  inOrder : m₁.InOrder
  continues : m.host.Continues m₁.host
  input : m₁.shell.stdio.input = m.shell.stdio.input ∨ m.host.opened.size ≤ m₁.shell.stdio.input
  output : m.host.opened.size ≤ m₁.shell.stdio.output
  error : m₁.shell.stdio.error = m.shell.stdio.error
  log : m₁.shell.log = m.shell.log
  emptied : m.host.takes m.shell.stdio.output = true → m₁.shell.unwritten = []
  collected : m.Collects → m₁.host.Secluded m.shell.stdio.output ∧
    m₁.host.content m.shell.stdio.output = m.printed

end Machine

namespace SessionM

variable {m m₁ : Machine} {c : Command}

theorem redirectForBuiltin_redirected (inOrder : m.InOrder) (redirected : c.output.isSome = true)
    (opened : (redirectForBuiltin c m.shell.stdio).run m = (.ok (), m₁)) : m.Redirected m₁ := by
  have confined := inOrder.confined
  have after := (heeds_redirectForBuiltin c confined.shell.stdio).confined confined (le_refl _)
  rw [opened] at after
  obtain ⟨input, output, mid, rfl, read, new, same, course⟩ :=
    redirected_cases confined redirected opened
  have reached := confined.host.extent_le course.continues
  have confined' : mid.Confined m.access :=
    ⟨course.within confined.host, same ▸ confined.shell.mono reached⟩
  obtain ⟨log, flushed⟩ := (heeds_flush mid confined' bot_le).1
  have recorded : (flush mid).2.shell.log = m.shell.log := by
    obtain ⟨_, printed⟩ := (tolerant_printed.flush mid).1
    rw [printed, same]
  refine ⟨after.inOrder, course.continues.trans flushed.continues, ?_, new, rfl, recorded, ?_, ?_⟩
  · cases input with
    | none => exact .inl rfl
    | some h => exact .inr (read h rfl)
  · intro takes
    rw [← inOrder.takes_eq course.continues inOrder.output, ← same] at takes
    exact unwritten_flush_of_takes takes
  · intro collects
    have unread : ¬m.access.reads m.shell.stdio.output := by
      rintro (same | fresh)
      · exact collects.apart same.symm
      · exact Nat.not_lt.2 fresh inOrder.output
    obtain ⟨secluded, content⟩ := collects.secluded.course unread course
    have records : mid.Records := by
      rw [Machine.Records, same]
      exact secluded.atEnd
    obtain ⟨m', run, wrote, empty⟩ := flush_of_records records
    have stays : m'.shell.stdio = m.shell.stdio := by rw [wrote.shell, same]
    rw [run] at flushed
    have arrived : m'.host.content m'.shell.stdio.output =
        mid.host.content mid.shell.stdio.output ++ mid.shell.unwritten := by
      have printed := wrote.printed
      rwa [Machine.printed, empty, List.append_nil, List.append_nil] at printed
    rw [run]
    refine ⟨secluded.go flushed.continues (stays ▸ wrote.records), ?_⟩
    rw [stays, same, content] at arrived
    refine arrived.trans ?_
    simp [Machine.printed, Writing.through]

/-- As long as a builtin runs whose output has been redirected, nothing is printed to the output of
the shell: all that goes there are messages, if standard error or the log does, and what processes
have held back before. What a builtin prints is gone afterwards if its target takes bytes. What stays
in the buffer if it refuses them goes out before all that is printed later. For echo that is its
text, unless this has a line feed or is too long for the buffer. -/
theorem redirected_output_leaks_only_if_refused {source : Builtin.Sourcing}
    (sourcing : IsSourcing source) (b : Builtin) (redirected : c.output.isSome = true)
    (inOrder : m.InOrder)
    (opened : (redirectForBuiltin c m.shell.stdio).run m = (.ok (), m₁)) :
    ∃ status m₂ log, (runBuiltin source b c).run m = (.ok status, m₂) ∧
      m₂.shell.stdio = m.shell.stdio ∧
      Course (m₁.host.sparing m.shell.stdio m.shell.log) m₁.host log m₂.host ∧
      (∀ w ∈ log, w.handle = m.shell.stdio.output → w.outlet ≠ .printed ∧
        (m.shell.stdio.error = m.shell.stdio.output ∨ m.shell.stdio.output ∈ m.shell.log ∨
          w.outlet = .delivered ∧ ∃ p ∈ m₁.host.processes, (w.handle, w.bytes) ∈ p.held)) ∧
      (m.Collects →
        m₂.host.content m.shell.stdio.output =
          m.printed ++ Writing.through m.shell.stdio.output log ∧
        ∀ text, (print text m₂).2.printed =
          m.printed ++ Writing.through m.shell.stdio.output log ++ m₂.shell.unwritten ++ text) ∧
      (m₁.host.takes m₁.shell.stdio.output = true → m₂.shell.unwritten = []) ∧
      (m₁.host.takes m₁.shell.stdio.output = false → b = .echo →
        m.host.takes m.shell.stdio.output = true →
          m₂.shell.unwritten = leftover (Echo.text c.argv.tail)) := by
  have ready := redirectForBuiltin_redirected inOrder redirected opened
  have confined : m₁.Confined (m₁.host.sparing m.shell.stdio m.shell.log) := by
    rw [← ready.log]
    refine ready.inOrder.sparing (Nat.lt_of_lt_of_le inOrder.output ready.continues.size_le) ?_
      (Nat.ne_of_gt (Nat.lt_of_lt_of_le inOrder.output ready.output)) ready.error
    exact ready.input.imp_right fun new => Nat.ne_of_gt (Nat.lt_of_lt_of_le inOrder.output new)
  have run := runBuiltin_redirected source b redirected opened
  have heeds : Heeds (m₁.host.sparing m.shell.stdio m.shell.log) ⊥ (b.run source c.argv) :=
    heeds_builtin sourcing.heeds b c.argv
  obtain ⟨log, ran⟩ := (heeds m₁ confined bot_le).1
  obtain ⟨log', flushed⟩ := (heeds_flush _ (heeds.confined confined bot_le) bot_le).1
  have kept := stdio_builtin sourcing b c.argv m₁
  have takes := ready.inOrder.takes_eq ran.continues ready.inOrder.output
  rw [← kept] at takes
  have course := ran.trans flushed
  refine ⟨_, _, log ++ log', run, rfl, course, ?_, fun collects => ?_, fun taken => ?_,
    fun refused echo taken => ?_⟩
  · rintro ⟨outlet, h, bytes⟩ hw rfl
    have allowed := course.allows _ hw
    cases outlet with
    | printed => exact absurd rfl allowed
    | complained => exact ⟨by rintro ⟨⟩, .inl (allowed.resolve_left (absurd rfl))⟩
    | recorded => exact ⟨by rintro ⟨⟩, .inr (.inl (allowed.resolve_left (absurd rfl)))⟩
    | delivered =>
      exact ⟨by rintro ⟨⟩, (allowed.resolve_left (absurd rfl)).imp_right
        (Or.imp_right fun held => ⟨rfl, held⟩)⟩
  · obtain ⟨secluded, content⟩ := ready.collected collects
    have unread : ¬(m₁.host.sparing m.shell.stdio m.shell.log).reads m.shell.stdio.output :=
      fun read => read.elim (absurd rfl) collects.apart
    obtain ⟨secluded', content'⟩ := secluded.course unread course
    rw [content] at content'
    refine ⟨content', fun text => ?_⟩
    have records : Machine.Records
        ((flush (b.run source c.argv m₁).2).2.giving m.shell.stdio) := secluded'.atEnd
    obtain ⟨m', printing, wrote⟩ := prints_print text _ records
    rw [printing, wrote.printed, ← content']
    rfl
  · rw [Machine.unwritten_giving]
    exact unwritten_flush_of_takes (takes.trans (kept ▸ taken))
  · subst echo
    have ran : Builtin.run source .echo c.argv m₁ = Echo.run c.argv m₁ := rfl
    have refuses := takes.trans (kept ▸ refused)
    rw [Machine.unwritten_giving, flush_refused refuses, ran,
      echo_refused refused (ready.emptied taken)]

/-- A full device refuses what echo prints to it. -/
theorem redirected_output_leaks_from_full_device :
    let m := Machine.start World.withDevices FileTree.root .null [] .default
    let c : Command := ⟨["echo", "-n", "hi"], none, some "/dev/full", false⟩
    m.InOrder ∧ m.Collects ∧ ∃ status m₂, (runBuiltin sourceFile .echo c).run m = (.ok status, m₂) ∧
      m₂.host.content m.shell.stdio.output = [] ∧
      ∀ text, (print text m₂).2.printed = Bytes.ofString "hi" ++ text := by
  intro m c
  have sound : World.withDevices.Sound :=
    FileTree.sound_of_isProper (by decide +kernel) (by decide +kernel)
  have inOrder : m.InOrder := Machine.inOrder_start sound (by decide +kernel) (by rintro _ _ ⟨⟩) _ _
  have collects : m.Collects := Machine.collects_start sound _ (by rintro _ _ ⟨⟩) _ _
  let m₁ := ((redirectForBuiltin c m.shell.stdio).run m).2
  have opens : ((redirectForBuiltin c m.shell.stdio).run m).1.toOption = some () := by
    decide +kernel
  have opened : (redirectForBuiltin c m.shell.stdio).run m = (.ok (), m₁) := by
    refine Prod.ext ?_ rfl
    generalize ((redirectForBuiltin c m.shell.stdio).run m).1 = r at opens
    rcases r with e | ⟨⟩
    · cases opens
    · rfl
  obtain ⟨status, m₂, log, run, -, -, only, printed, -, refused⟩ :=
    redirected_output_leaks_only_if_refused (.inl rfl) .echo rfl inOrder opened
  have nothing : Writing.through m.shell.stdio.output log = [] := by
    have none : m₁.host.processes = [] := by decide +kernel
    have others : log.filter (·.handle = m.shell.stdio.output) = [] := by
      refine List.filter_eq_nil_iff.2 fun w hw here => ?_
      obtain ⟨-, same | recorded | ⟨-, p, hp, -⟩⟩ := only w hw (of_decide_eq_true here)
      · exact absurd same (by decide)
      · cases recorded
      · rw [none] at hp
        cases hp
    rw [Writing.through, others]
    rfl
  have left := refused (by decide +kernel) rfl (by decide +kernel)
  have first : m.printed = [] := by decide +kernel
  have rest : leftover (Echo.text c.argv.tail) = Bytes.ofString "hi" := by decide +kernel
  obtain ⟨content, later⟩ := printed collects
  rw [nothing, first] at content
  refine ⟨inOrder, collects, status, m₂, run, content, fun text => ?_⟩
  rw [later, nothing, first, left, rest]
  rfl

/-- A text that a full device has refused is printed in front of the next one. -/
theorem refused_text_printed_later :
    let m := Machine.start World.withDevices FileTree.root .null [] .default
    (runLine "echo -n hi > /dev/full; echo ok" m).2.host.content m.shell.stdio.output =
      Bytes.ofString "hiok\n" := by decide +kernel

end SessionM
end JobShell
