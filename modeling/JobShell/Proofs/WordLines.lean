import JobShell.Proofs.RefusedLines

/-! A line that consists of words is one command, whose arguments are what the words stand for. -/
namespace JobShell

section
variable {ts : List Token} (words : ∀ t ∈ ts, t.kind = .word)
include words

theorem Grammar.check_words (e : Expect) (some : e = .word → ts ≠ []) :
    check e (ts ++ [Token.eof]) = .ok () := by
  induction ts generalizing e with
  | nil =>
    cases e with
    | word => exact absurd rfl (some rfl)
    | list | more => rfl
  | cons t ts ih =>
    obtain ⟨word, others⟩ := List.forall_mem_cons.1 words
    have rest := ih others .more nofun
    cases e <;> simpa only [List.cons_append, check, word] using rest

theorem Token.withoutEnds_words : withoutEnds ts = ts :=
  List.filter_eq_self.2 fun t ht => by simp [words t ht]

theorem Grammar.read_words {limit : Nat} {line : String}
    (tokens : Token.tokenize limit line = .ok (ts ++ [Token.eof])) (room : ts.length + 1 < limit) :
    Grammar.read limit line = .ok ts := by
  have accepted : validate limit (ts ++ [Token.eof]) = .accepted := by
    rw [validate, if_neg (by simp; omega), check_words words .list nofun]
  have kept : Token.withoutEnds (ts ++ [Token.eof]) = ts := by
    have dropped : Token.withoutEnds [Token.eof] = [] := rfl
    rw [Token.withoutEnds, List.filter_append, ← Token.withoutEnds, ← Token.withoutEnds, dropped,
      Token.withoutEnds_words words, List.append_nil]
  simp only [Grammar.read, tokens, accepted, kept]

namespace Command

theorem checkRedirections_words (here : Surroundings) (tree : FileTree) :
    checkRedirections here ts tree = (.ok (), tree) := by
  induction ts with
  | nil => rfl
  | cons t ts ih =>
    obtain ⟨word, others⟩ := List.forall_mem_cons.1 words
    cases ts with
    | nil => rfl
    | cons u ts =>
      rw [checkRedirections, word]
      exact ih others

theorem gather_words (here : Surroundings) (tree : FileTree) (c : Command) :
    gather here tree c ts = .ok { c with argv := c.argv ++ ts.flatMap (expandWord here tree) } := by
  induction ts generalizing c with
  | nil => simp [gather]
  | cons t ts ih =>
    obtain ⟨word, others⟩ := List.forall_mem_cons.1 words
    rw [gather.eq_def]
    simp only [word, ih others, List.append_assoc, List.flatMap_cons]

theorem build_words {here : Surroundings} {tree : FileTree} {argv : List String}
    (argv_eq : ts.flatMap (expandWord here tree) = argv) (some : argv ≠ []) :
    build here ts tree = (.ok ⟨argv, none, none, false⟩, tree) := by
  have gathered := gather_words words here tree .empty
  rw [argv_eq] at gathered
  simp only [build, checkRedirections_words words, ofTokens, Token.withoutEnds_words words,
    gathered]
  exact congrArg (·, tree) (if_neg (by simpa [empty] using some))

omit words in
/-- A word without a leading tilde and without pattern characters stands for itself, and so does one
that is quoted. -/
theorem expandWord_eq_self (here : Surroundings) (tree : FileTree) {t : Token}
    (h : t.quoted = false → t.text.toList.head? ≠ some '~' ∧ Pattern.isPattern t.text = false) :
    expandWord here tree t = [t.text] := by
  unfold expandWord
  split
  · rfl
  · next unquoted =>
    obtain ⟨first, bare⟩ := h (Bool.eq_false_of_not_eq_true unquoted)
    have tilde : here.expandTilde t.text = t.text := by
      unfold Surroundings.expandTilde
      split <;> simp_all
    simp [tilde, bare]

end Command

namespace SessionM

theorem executePipeline_words {source : Builtin.Sourcing} {m m' : Machine} {argv : List String}
    {status : Int}
    (argv_eq : ts.flatMap (Command.expandWord m.shell.surroundings m.host.tree) = argv)
    (some : argv ≠ [])
    (ran : (runCommand source ⟨argv, none, none, false⟩).run m = (.ok status, m')) :
    executePipeline source ts m = (status, m') := by
  have single : ¬ts.any (·.kind = .pipe) = true := by
    simp only [List.any_eq_true, decide_eq_true_eq, not_exists, not_and]
    intro t ht pipe
    cases pipe.symm.trans (words t ht)
  rw [executePipeline_eq, if_neg single, Engine.bind_apply, ExceptT.run_bind, Engine.bind_apply,
    build_run, Command.build_words words argv_eq some]
  have ran' : (runCommand source ⟨argv, none, none, false⟩) m = (.ok status, m') := ran
  dsimp only [ExceptT.bindCont]
  rw [ExceptT.run, ran']
  rfl

theorem runTokens_words {source : Builtin.Sourcing} {m m' : Machine} {status : Int}
    (some : ts ≠ []) (ran : executePipeline source ts m = (status, m')) :
    (Engine.session source).runTokens ts m =
      (status, { m' with shell := m'.shell.withStatus status }) := by
  have segments : Segment.ofLine ts = [⟨ts, false⟩] := by
    have noSeparator : ∀ t ∈ ts, t.kind.isSeparator = false := fun t ht => by rw [words t ht]; rfl
    simp [Segment.ofLine, Segment.ofTokens_no_separator noSeparator, some]
  have chain : Chain.ofTokens ts = ⟨ts, []⟩ :=
    Chain.ofTokens_no_connector fun t ht => by rw [words t ht]; rfl
  have segment : (Engine.session source).runSegment ⟨ts, false⟩ m =
      (status, { m' with shell := m'.shell.withStatus status }) := by
    have ran' : (Engine.session source).execute ts m = (status, m') := ran
    simp only [Engine.runSegment, Bool.false_eq_true, if_false, chain, Chain.run,
      Engine.bind_apply, ran']
    rfl
  rw [Engine.runTokens_apply, segments, Engine.runSegments_cons, segment]
  exact ite_self _

/-- A line of words that are taken as they are is run as one command. -/
theorem runLine_words {line : String} {m m' : Machine} {argv : List String} {status : Int}
    (plain : m.expanded line = (line, m.shell.vars))
    (tokens : Token.tokenize m.shell.settings.maxTokens line = .ok (ts ++ [Token.eof]))
    (room : ts.length + 1 < m.shell.settings.maxTokens)
    (argv_eq : ts.flatMap (Command.expandWord m.shell.surroundings m.host.tree) = argv)
    (some : argv ≠ [])
    (ran : (runCommand sourceFile ⟨argv, none, none, false⟩).run m = (.ok status, m')) :
    runLine line m = (status, { m' with shell := m'.shell.withStatus status }) := by
  have read : Grammar.read m.shell.settings.maxTokens (m.expanded line).1 = .ok ts := by
    rw [plain, Grammar.read_words words tokens room]
  have busy : ts ≠ [] := by
    rintro rfl
    exact some argv_eq.symm
  rw [Chronicle.runLine_of_read read, plain]
  exact runTokens_words words busy (executePipeline_words words argv_eq some ran)

end SessionM
end

namespace Aliases

/-- The word of a line in whose place the value of an alias is put. -/
def leadingWord (line : String) : String :=
  String.ofList ((Text.trimStart line.toList).takeWhile fun c => !Text.isBlank c)

theorem expand_eq_self {aliases : Aliases} {line : String}
    (h : aliases.get? (leadingWord line) = none) : aliases.expand line = line := by
  unfold expand
  dsimp only
  split
  · rfl
  · rw [show aliases.get? (String.ofList _) = none from h]

end Aliases

end JobShell
