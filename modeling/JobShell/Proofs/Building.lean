import JobShell.Command.Build
import JobShell.Proofs.LineParts
import JobShell.Proofs.Validation

/-! Every part of a line that the grammar accepts can be built, as far as files can be opened. -/
namespace JobShell

open Token Grammar

/-! ### Words -/

theorem Pattern.expand_ne_nil (tree : FileTree) (dir : NodeId) (pattern : String) :
    expand tree dir pattern ≠ [] := by
  unfold expand
  dsimp only
  split
  · exact List.cons_ne_nil _ _
  · split
    · exact List.cons_ne_nil _ _
    · next hfound =>
      intro none
      exact hfound ((none ▸ List.mergeSort_perm _ _ : List.Perm [] _).symm.eq_nil)

namespace Command

variable (here : Surroundings) (tree : FileTree)

theorem expandWord_ne_nil (t : Token) : expandWord here tree t ≠ [] := by
  unfold expandWord
  split
  · exact List.cons_ne_nil _ _
  · dsimp only
    split
    · exact Pattern.expand_ne_nil _ _ _
    · exact List.cons_ne_nil _ _

/-! ### Commands -/

/-- What an item of a command adds to it. -/
def addItem (c : Command) : Item → Command
  | .word w => { c with argv := c.argv ++ expandWord here tree w.token }
  | .redirection op target =>
    if op.token.kind = .input then { c with input := some (targetPath here target.token) }
    else
      { c with output := some (targetPath here target.token), append := op.token.kind = .append }

/-- The command that a tree stands for. -/
def ofTree (t : CommandTree) : Command :=
  t.items.foldl (addItem here tree) { empty with argv := expandWord here tree t.first.token }

theorem gather_word (c : Command) (w : Word) (ts : List Token) :
    gather here tree c (w.token :: ts) =
      gather here tree { c with argv := c.argv ++ expandWord here tree w.token } ts := by
  rw [gather.eq_def]
  simp only [w.kind_eq]

theorem gather_redirection (c : Command) (op : Redirection) (target : Word) (ts : List Token) :
    gather here tree c (op.token :: target.token :: ts) =
      gather here tree (addItem here tree c (.redirection op target)) ts := by
  have hkind : op.token.kind = .input ∨ op.token.kind = .output ∨ op.token.kind = .append := by
    have imp : ∀ k : Kind, k.isRedirection = true → k = .input ∨ k = .output ∨ k = .append := by
      decide
    exact imp _ op.isAllowed
  rcases hkind with hkind | hkind | hkind <;> simp [gather, addItem, hkind]

theorem gather_items (c : Command) (items : List Item) :
    gather here tree c (items.flatMap Item.tokens) = .ok (items.foldl (addItem here tree) c) := by
  induction items generalizing c with
  | nil => rfl
  | cons i items ih =>
    cases i with
    | word w => exact (gather_word here tree c w _).trans (ih _)
    | redirection op target => exact (gather_redirection here tree c op target _).trans (ih _)

theorem argv_prefix_addItem (c : Command) (i : Item) :
    c.argv <+: (addItem here tree c i).argv := by
  cases i with
  | word w => exact List.prefix_append _ _
  | redirection op target =>
    simp only [addItem]
    split <;> exact List.prefix_refl _

theorem argv_prefix_addItems (c : Command) (items : List Item) :
    c.argv <+: (items.foldl (addItem here tree) c).argv := by
  induction items generalizing c with
  | nil => exact List.prefix_refl _
  | cons i items ih => exact (argv_prefix_addItem here tree c i).trans (ih _)

theorem argv_ofTree_ne_nil (t : CommandTree) : (ofTree here tree t).argv ≠ [] := by
  intro hnil
  -- Items only ever add words, and the first word alone stands for one at least.
  have hprefix : expandWord here tree t.first.token <+: (ofTree here tree t).argv :=
    argv_prefix_addItems here tree { empty with argv := expandWord here tree t.first.token } t.items
  rw [hnil, List.prefix_nil] at hprefix
  exact expandWord_ne_nil here tree _ hprefix

theorem ofTokens_tree (t : CommandTree) :
    ofTokens here tree t.tokens = .ok (ofTree here tree t) := by
  have hends : withoutEnds t.tokens = t.tokens := by
    rw [withoutEnds, List.filter_eq_self]
    intro u hu
    have imp : ∀ k, inCommand k = true → decide (k ≠ .eof) = true := by decide
    exact imp _ (t.inCommand_of_mem hu)
  have hgather : gather here tree .empty t.tokens = .ok (ofTree here tree t) := by
    rw [CommandTree.tokens, gather_word, gather_items]
    rfl
  rw [ofTokens, hends, hgather]
  simp [argv_ofTree_ne_nil here tree t]

end Command

/-! ### Pipelines -/

namespace Pipeline

theorem segments_no_pipe {xs : List Token} (hxs : ∀ t ∈ xs, t.kind ≠ .pipe) :
    segments xs = [xs] := by
  induction xs with
  | nil => rfl
  | cons t xs ih =>
    have ht : t.kind ≠ .pipe := hxs t (by simp)
    rw [segments, if_neg ht, ih (fun u hu => hxs u (by simp [hu]))]

theorem segments_append_pipe {xs : List Token} (hxs : ∀ t ∈ xs, t.kind ≠ .pipe) {bar : Token}
    (hbar : bar.kind = .pipe) (ys : List Token) :
    segments (xs ++ bar :: ys) = xs :: segments ys := by
  induction xs with
  | nil => rw [List.nil_append, segments, if_pos hbar]
  | cons t xs ih =>
    have ht : t.kind ≠ .pipe := hxs t (by simp)
    rw [List.cons_append, segments, if_neg ht, ih (fun u hu => hxs u (by simp [hu]))]

theorem length_segments (ts : List Token) :
    (segments ts).length = ts.countP (·.kind = .pipe) + 1 := by
  induction ts with
  | nil => rfl
  | cons t ts ih =>
    by_cases ht : t.kind = .pipe
    · simp [segments, ht, ih]
    · rw [segments, if_neg ht, List.countP_cons_of_neg (by simpa using ht)]
      cases hs : segments ts with
      | nil => simp [hs] at ih
      | cons s ss => simpa [hs] using ih

end Pipeline

namespace Grammar

/-- The commands of a pipeline, in order. -/
def PipelineTree.commands : PipelineTree → List CommandTree
  | one c => [c]
  | more c _ rest => c :: rest.commands

theorem CommandTree.no_pipe (c : CommandTree) : ∀ t ∈ c.tokens, t.kind ≠ .pipe := by
  intro t ht
  have imp : ∀ k, inCommand k = true → k ≠ .pipe := by decide
  exact imp _ (c.inCommand_of_mem ht)

theorem PipelineTree.segments_tokens (p : PipelineTree) :
    Pipeline.segments p.tokens = p.commands.map CommandTree.tokens := by
  induction p with
  | one c => exact Pipeline.segments_no_pipe c.no_pipe
  | more c bar rest ih =>
    rw [tokens, Pipeline.segments_append_pipe c.no_pipe bar.kind_eq, ih]
    rfl

/-- The pipelines of a list, in order. -/
def ListTree.pipelines : ListTree → List PipelineTree
  | one p => [p]
  | more left _ right => left.pipelines ++ [right]

theorem ListTree.pipelines_chain (l : ListTree) :
    l.chain.pipelines = l.pipelines.map PipelineTree.tokens := by
  induction l with
  | one p => rfl
  | more left op right ih =>
    have hchain : (more left op right).chain.pipelines = left.chain.pipelines ++ [right.tokens] := by
      simp [chain, Chain.pipelines]
    rw [hchain, ih]
    simp [pipelines]

end Grammar

namespace Pipeline

variable (here : Surroundings) (tree : FileTree)

@[simp] theorem argv_confine (first last : Bool) (c : Command) :
    (confine first last c).argv = c.argv := by
  obtain ⟨argv, input, output, append⟩ := c
  cases first <;> cases last <;> cases output <;> rfl

/-- One stage is built for each command. Redirections may be dropped from a stage, words not. -/
theorem ofSegments_trees (first : Bool) (cs : List CommandTree) :
    ∃ built, ofSegments here tree first (cs.map CommandTree.tokens) = .ok built ∧
      built.map Command.argv = cs.map fun c => (Command.ofTree here tree c).argv := by
  induction cs generalizing first with
  | nil => exact ⟨[], rfl, rfl⟩
  | cons c cs ih =>
    -- Only the first stage keeps its input, so that the rest is built with another flag.
    obtain ⟨built, hbuilt, hargv⟩ := ih false
    rw [List.map_cons, ofSegments, Command.ofTokens_tree, hbuilt]
    refine ⟨_, rfl, ?_⟩
    rw [List.map_cons, List.map_cons, hargv, argv_confine]

end Pipeline

/-! ### Building -/

theorem Command.checkRedirections_error {here : Surroundings} {ts : List Token}
    {tree opened : FileTree} {e : ShellError}
    (h : checkRedirections here ts tree = (.error e, opened)) :
    ∃ path cause, e = .redirectionTarget path cause := by
  fun_induction checkRedirections here ts tree with
  | case1 => cases h
  | case2 => cases h
  | case3 tree t target rest hkind next hnext ih => exact ih h
  | case4 tree t target rest hkind cause hcause =>
    cases h
    exact ⟨_, _, rfl⟩
  | case5 tree t target rest hkind ih => exact ih h

/-- Building from some tokens gives a good result once the files of all redirections have been
opened. If one of them cannot be opened, that and nothing else is the error. -/
def Builds {α : Type} (act : Surroundings → List Token → BuildM α) (ts : List Token)
    (good : α → Prop) : Prop :=
  ∀ here tree,
    match Command.checkRedirections here ts tree with
    | (.ok (), opened) => ∃ a, act here ts tree = (.ok a, opened) ∧ good a
    | (.error e, opened) =>
      act here ts tree = (.error e, opened) ∧ ∃ path cause, e = .redirectionTarget path cause

theorem Command.builds_tree (c : CommandTree) :
    Builds Command.build c.tokens fun built => built.argv ≠ [] := by
  intro here tree
  unfold Command.build
  split
  · next opened hcheck =>
    simp only [hcheck, ofTokens_tree]
    exact ⟨_, rfl, argv_ofTree_ne_nil here opened c⟩
  · next e opened hcheck =>
    simp only [hcheck, true_and]
    exact checkRedirections_error hcheck

theorem Pipeline.builds_tree (p : PipelineTree) :
    Builds Pipeline.build p.tokens fun built =>
      built.length = p.tokens.countP (·.kind = .pipe) + 1 ∧ ∀ c ∈ built, c.argv ≠ [] := by
  intro here tree
  unfold Pipeline.build
  split
  · next opened hcheck =>
    obtain ⟨built, hbuilt, hargv⟩ := ofSegments_trees here opened true p.commands
    simp only [hcheck, p.segments_tokens, hbuilt]
    refine ⟨built, rfl, ?_, ?_⟩
    · have hlen := congrArg List.length hargv
      rw [List.length_map, List.length_map] at hlen
      rw [← length_segments, p.segments_tokens, List.length_map, hlen]
    · intro c hc
      have hmem : c.argv ∈ p.commands.map fun t => (Command.ofTree here opened t).argv := by
        rw [← hargv]
        exact List.mem_map_of_mem hc
      obtain ⟨t, -, ht⟩ := List.mem_map.1 hmem
      rw [← ht]
      exact Command.argv_ofTree_ne_nil here opened t
  · next e opened hcheck =>
    simp only [hcheck, true_and]
    exact Command.checkRedirections_error hcheck

/-- A pipeline without a pipe sign is a single command. -/
theorem Grammar.PipelineTree.eq_one {p : PipelineTree} (h : p.tokens.any (·.kind = .pipe) = false) :
    ∃ c, p = .one c := by
  cases p with
  | one c => exact ⟨c, rfl⟩
  | more c bar rest => simp [tokens, bar.kind_eq] at h

/-- A list without operators is a single command. -/
theorem Grammar.ListTree.eq_one {l : ListTree} (h : l.tokens.any (·.kind.isOperator) = false) :
    ∃ c, l = .one (.one c) := by
  have isOperator_of_isConnector : ∀ k : Kind, k.isConnector = true → k.isOperator = true := by
    decide
  cases l with
  | one p =>
    cases p with
    | one c => exact ⟨c, rfl⟩
    | more c bar rest => simp [tokens, PipelineTree.tokens, bar.kind_eq, Kind.isOperator] at h
  | more left op right => simp [tokens, isOperator_of_isConnector _ op.isAllowed] at h

theorem Segment.eq_tokens_of_mem {tree : Option LineTree} {s : Segment}
    (hs : s ∈ ofLine (lineTokens tree)) : ∃ l : ListTree, s.tokens = l.tokens := by
  cases tree with
  | none => simp [lineTokens, ofLine, ofTokens] at hs
  | some tree =>
    rw [lineTokens, LineTree.ofLine_tokens] at hs
    obtain ⟨e, -, rfl⟩ := List.mem_map.1 hs
    exact ⟨e.1, rfl⟩

/-- Whatever an accepted line hands on to be built, the pipelines of its segments and the segments
that are started in the background as single commands, is not empty, and only a file that cannot be
opened keeps it from being built. All commands that are built have words, and there is one more of
them than there are pipe signs. -/
theorem accepted_segments_build {limit bound : Nat} {line : String} {ts : List Token}
    (read : tokenize limit line = .ok ts) (accepted : validate bound ts = .accepted) :
    ∀ s ∈ Segment.ofLine (withoutEnds ts),
      s.tokens ≠ [] ∧
      (∀ p ∈ (Chain.ofTokens s.tokens).pipelines,
        p ≠ [] ∧
        Builds Pipeline.build p (fun built =>
          built.length = p.countP (·.kind = .pipe) + 1 ∧ ∀ c ∈ built, c.argv ≠ []) ∧
        (p.any (·.kind = .pipe) = false → Builds Command.build p fun built => built.argv ≠ [])) ∧
      (s.tokens.any (·.kind.isOperator) = false →
        Builds Command.build s.tokens fun built => built.argv ≠ []) := by
  intro s hs
  obtain ⟨tree, htree⟩ := exists_lineTokens read accepted
  rw [← htree] at hs
  obtain ⟨l, hl⟩ := Segment.eq_tokens_of_mem hs
  rw [hl]
  refine ⟨l.tokens_ne_nil, ?_, ?_⟩
  · intro p hp
    rw [l.ofTokens_tokens, l.pipelines_chain] at hp
    obtain ⟨p, -, rfl⟩ := List.mem_map.1 hp
    refine ⟨p.tokens_ne_nil, Pipeline.builds_tree p, ?_⟩
    intro hpipe
    obtain ⟨c, rfl⟩ := PipelineTree.eq_one hpipe
    exact Command.builds_tree c
  · intro hoperator
    obtain ⟨c, rfl⟩ := ListTree.eq_one hoperator
    exact Command.builds_tree c

theorem accepted_segments_build_mixed_line :
    ∃ ts s t p, tokenize 64 "a < f | b* && c; d > g &" = .ok ts ∧ validate 64 ts = .accepted ∧
      [s, t] = Segment.ofLine (withoutEnds ts) ∧ p = (Chain.ofTokens s.tokens).first ∧
      p.countP (·.kind = .pipe) = 1 ∧
      Builds Pipeline.build p (fun built => built.length = 2 ∧ ∀ c ∈ built, c.argv ≠ []) ∧
      t.background = true ∧ Builds Command.build t.tokens fun built => built.argv ≠ [] := by
  have parts : ∃ ts s t, tokenize 64 "a < f | b* && c; d > g &" = .ok ts ∧
      validate 64 ts = .accepted ∧ [s, t] = Segment.ofLine (withoutEnds ts) ∧
      (Chain.ofTokens s.tokens).first.countP (·.kind = .pipe) = 1 ∧
      t.background = true ∧ t.tokens.any (·.kind.isOperator) = false :=
    ⟨[⟨.word, "a", false⟩, ⟨.input, "<", false⟩, ⟨.word, "f", false⟩, ⟨.pipe, "|", false⟩,
        ⟨.word, "b*", false⟩, ⟨.and, "&&", false⟩, ⟨.word, "c", false⟩, ⟨.semicolon, ";", false⟩,
        ⟨.word, "d", false⟩, ⟨.output, ">", false⟩, ⟨.word, "g", false⟩, ⟨.ampersand, "&", false⟩,
        eof],
      _, _, by decide +kernel, by decide +kernel, rfl, by decide +kernel, rfl, rfl⟩
  obtain ⟨ts, s, t, read, accepted, hsegments, hpipes, hback, hoperator⟩ := parts
  obtain ⟨-, pipelines, -⟩ :=
    accepted_segments_build read accepted s (by rw [← hsegments]; simp)
  obtain ⟨-, -, single⟩ := accepted_segments_build read accepted t (by rw [← hsegments]; simp)
  obtain ⟨-, builds, -⟩ := pipelines _ (List.mem_cons_self ..)
  rw [hpipes] at builds
  exact ⟨ts, s, t, _, read, accepted, hsegments, rfl, hpipes, builds, hback, single hoperator⟩

end JobShell
